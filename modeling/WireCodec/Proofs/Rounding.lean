import Mathlib.Algebra.Order.Archimedean.Basic
import Mathlib.Order.Monotone.Basic
import Mathlib.Tactic.Linarith
import WireCodec.Proofs.Dyadic

/-!
# Rounding to the nearest pattern

Patterns without a sign denote greater numbers the greater they are, with no gap between the numbers
of one exponent and those of the next. Rounding finds the pattern whose number is the nearest, as if
no exponent were left to infinities, and of two that are as near the even one; what is beyond the
finite patterns is then infinite. A number that a pattern denotes is rounded to it.
-/

set_option autoImplicit false

namespace WireCodec

namespace Ieee754

namespace Format

variable (f : Format)

def shift (p : Nat) : Nat := p / 2 ^ f.fractionBits - 1

def significand (p : Nat) : Nat := p - f.shift p * 2 ^ f.fractionBits

/-- What a pattern without a sign would denote, if no exponent were left to infinities. -/
def ideal (p : Nat) : ℚ := f.significand p * 2 ^ (f.minExponent + f.shift p)

/-- No pattern is nearer to the number, and of two that are as near it is the even one. -/
structure Nearest (x : ℚ) (p : Nat) : Prop where
  closest : ∀ q, |f.ideal p - x| ≤ |f.ideal q - x|
  even : ∀ q, q ≠ p → |f.ideal q - x| = |f.ideal p - x| → p % 2 = 0

variable {f} {p q : Nat} {x : ℚ}

/-! ## The order of the patterns -/

theorem shift_significand (f : Format) (p : Nat) :
    p = f.shift p * 2 ^ f.fractionBits + f.significand p ∧
      f.significand p < 2 * 2 ^ f.fractionBits ∧
      (f.shift p = 0 ∨ 2 ^ f.fractionBits ≤ f.significand p) := by
  have parts := Nat.div_add_mod p (2 ^ f.fractionBits)
  have rest := Nat.mod_lt p (Nat.two_pow_pos f.fractionBits)
  unfold significand shift
  rw [mul_comm] at parts
  cases whole : p / 2 ^ f.fractionBits with
  | zero =>
    rw [whole, zero_mul, zero_add] at parts
    rw [parts] at rest
    rw [Nat.zero_sub, zero_mul, zero_add, Nat.sub_zero]
    exact ⟨rfl, by omega, .inl rfl⟩
  | succ k =>
    rw [whole, Nat.succ_mul] at parts
    rw [Nat.add_sub_cancel]
    omega

/-- A significand may also be one beyond the places it has, which is the first of the next
exponent. -/
theorem ideal_of_significand {k a : Nat} (filled : k = 0 ∨ 2 ^ f.fractionBits ≤ a)
    (room : a ≤ 2 * 2 ^ f.fractionBits) :
    f.ideal (k * 2 ^ f.fractionBits + a) = a * 2 ^ (f.minExponent + k) := by
  have pos := Nat.two_pow_pos f.fractionBits
  have whole : (k * 2 ^ f.fractionBits + a) / 2 ^ f.fractionBits = k + a / 2 ^ f.fractionBits := by
    rw [add_comm, Nat.add_mul_div_right _ _ pos, add_comm]
  obtain inside | rfl := room.lt_or_eq
  · have kept : f.shift (k * 2 ^ f.fractionBits + a) = k := by
      rw [shift, whole]
      obtain rfl | filled := filled
      · have few : a / 2 ^ f.fractionBits < 2 := Nat.div_lt_of_lt_mul (by rwa [mul_comm])
        omega
      · have one : a / 2 ^ f.fractionBits = 1 := Nat.div_eq_of_lt_le (by rwa [one_mul]) inside
        omega
    rw [ideal, significand, kept, Nat.add_sub_cancel_left]
  · have next : f.shift (k * 2 ^ f.fractionBits + 2 * 2 ^ f.fractionBits) = k + 1 := by
      rw [shift, whole, Nat.mul_div_cancel _ pos]
      omega
    have left : k * 2 ^ f.fractionBits + 2 * 2 ^ f.fractionBits - (k + 1) * 2 ^ f.fractionBits =
        2 ^ f.fractionBits := by
      rw [Nat.add_mul, Nat.one_mul]
      omega
    have half : (2 : ℚ) ^ (f.minExponent + (k + 1 : Nat)) = 2 * 2 ^ (f.minExponent + k) := by
      rw [Nat.cast_add_one, ← add_assoc, zpow_add_one₀ two_ne_zero, mul_comm]
    rw [ideal, significand, next, left, half]
    push_cast
    ring

theorem ideal_lt_succ (f : Format) (p : Nat) : f.ideal p < f.ideal (p + 1) := by
  obtain ⟨parts, few, filled⟩ := f.shift_significand p
  have next : f.ideal (p + 1) = (f.significand p + 1 : Nat) * 2 ^ (f.minExponent + f.shift p) := by
    rw [← ideal_of_significand (filled.imp_right Nat.le_succ_of_le) few, Nat.succ_eq_add_one,
      ← add_assoc, ← parts]
  have unit : (0 : ℚ) < 2 ^ (f.minExponent + f.shift p) := by positivity
  rw [next, ideal]
  exact mul_lt_mul_of_pos_right (Nat.cast_lt.mpr (Nat.lt_succ_self _)) unit

theorem ideal_strictMono (f : Format) : StrictMono f.ideal :=
  strictMono_nat_of_lt_succ f.ideal_lt_succ

theorem ideal_zero (f : Format) : f.ideal 0 = 0 := by
  simp [ideal, significand]

theorem exponent_mod (f : Format) (p : Nat) : f.exponent (p % f.signBit) = f.exponent p := by
  rw [Format.exponent, signBit_eq, mul_comm, Nat.mod_mul_right_div_self, Nat.mod_mod]
  rfl

theorem fraction_mod (f : Format) (p : Nat) : f.fraction (p % f.signBit) = f.fraction p := by
  rw [Format.fraction, signBit_eq, Nat.mod_mul_left_mod]
  rfl

theorem magnitude_mod (f : Format) (p : Nat) : f.magnitude (p % f.signBit) = f.magnitude p := by
  rw [magnitude, magnitude, exponent_mod, fraction_mod]

theorem isFinite_mod : f.IsFinite (p % f.signBit) ↔ f.IsFinite p := by
  rw [IsFinite, IsFinite, exponent_mod]

theorem magnitude_eq_ideal (small : p < f.infinity) : f.magnitude p = f.ideal p := by
  have below : p / 2 ^ f.fractionBits < 2 ^ f.exponentBits := by
    have under := small.trans f.infinity_lt_signBit
    rw [signBit_eq, mul_comm] at under
    exact Nat.div_lt_of_lt_mul under
  have parts := Nat.div_add_mod p (2 ^ f.fractionBits)
  have unit (k : Int) : (2 : ℚ) ^ (f.minExponent + k) =
      2 ^ (1 - f.bias + k) / 2 ^ f.fractionBits := by
    rw [minExponent_eq, sub_add_eq_add_sub, zpow_sub₀ two_ne_zero, zpow_natCast]
  rw [magnitude, exponent, Nat.mod_eq_of_lt below, fraction, ideal, significand, shift, unit]
  cases whole : p / 2 ^ f.fractionBits with
  | zero =>
    rw [whole, mul_zero, zero_add] at parts
    rw [if_pos rfl, parts, Nat.zero_sub, zero_mul, Nat.sub_zero, Nat.cast_zero, add_zero]
    ring
  | succ k =>
    have significand : p - k * 2 ^ f.fractionBits =
        2 ^ f.fractionBits + p % 2 ^ f.fractionBits := by
      rw [whole, Nat.mul_succ, mul_comm] at parts
      omega
    have exponent : ((k + 1 : Nat) : Int) - f.bias = 1 - f.bias + k := by
      push_cast
      ring
    rw [if_neg k.succ_ne_zero, Nat.add_sub_cancel, significand, exponent]
    push_cast
    field_simp

theorem mod_signBit_lt_infinity (finite : f.IsFinite p) : p % f.signBit < f.infinity := by
  have exponent : p % f.signBit / 2 ^ f.fractionBits = f.exponent p := by
    rw [signBit_eq, mul_comm, Nat.mod_mul_right_div_self]
    rfl
  have last : f.exponent p < 2 ^ f.exponentBits := Nat.mod_lt _ (Nat.two_pow_pos _)
  have below : f.exponent p < 2 ^ f.exponentBits - 1 :=
    Nat.lt_of_le_of_ne (Nat.le_sub_one_of_lt last) finite
  rw [infinity]
  exact (Nat.div_lt_iff_lt_mul (Nat.two_pow_pos _)).mp (exponent.trans_lt below)

theorem magnitude_of_finite (finite : f.IsFinite p) : f.magnitude p = f.ideal (p % f.signBit) := by
  rw [← magnitude_mod, magnitude_eq_ideal (mod_signBit_lt_infinity finite)]

/-! ## The nearest pattern -/

theorem abs_sub_lt_of_between {a b c : ℚ} (lower : a < b) (upper : b < c)
    (same : |a - x| = |c - x|) : |b - x| < |a - x| := by
  obtain equal | mirrored := abs_eq_abs.mp same
  · exact absurd (sub_left_injective equal) (lower.trans upper).ne
  · rw [abs_of_neg (by linarith : a - x < 0), abs_lt]
    exact ⟨by linarith, by linarith⟩

theorem Nearest.unique (h : f.Nearest x p) (h' : f.Nearest x q) : p = q := by
  have same := (h.closest q).antisymm (h'.closest p)
  -- Of two patterns that are as near as each other, both are even, so there is one between them,
  -- and it is nearer.
  have apart {p q : Nat} (h : f.Nearest x p) (h' : f.Nearest x q)
      (same : |f.ideal p - x| = |f.ideal q - x|) : ¬ p < q := by
    intro less
    have even := h.even q less.ne' same.symm
    have even' := h'.even p less.ne same
    have lower := f.ideal_strictMono (Nat.lt_succ_self p)
    have upper := f.ideal_strictMono (show p + 1 < q by omega)
    exact absurd (abs_sub_lt_of_between lower upper same) (h.closest (p + 1)).not_gt
  exact Nat.le_antisymm (Nat.le_of_not_lt (apart h' h same.symm))
    (Nat.le_of_not_lt (apart h h' same))

theorem nearest_ideal (f : Format) (p : Nat) : f.Nearest (f.ideal p) p where
  closest q := by
    rw [sub_self, abs_zero]
    exact abs_nonneg _
  even q other same := by
    rw [sub_self, abs_zero, abs_eq_zero, sub_eq_zero] at same
    exact absurd (f.ideal_strictMono.injective same) other

theorem Nearest.le_of_ideal_le (h : f.Nearest x p) (low : f.ideal q ≤ x) : q ≤ p := by
  by_contra less
  have lower := f.ideal_strictMono (Nat.lt_of_not_le less)
  have closest := h.closest q
  rw [abs_of_nonpos (by linarith), abs_of_nonpos (by linarith)] at closest
  linarith

theorem Nearest.le_of_le_ideal (h : f.Nearest x p) (high : x ≤ f.ideal q) : p ≤ q := by
  by_contra less
  have upper := f.ideal_strictMono (Nat.lt_of_not_le less)
  have closest := h.closest q
  rw [abs_of_nonneg (by linarith), abs_of_nonneg (by linarith)] at closest
  linarith

theorem half_le_of_ne {n a : Nat} {u : ℚ} (pos : 0 < u) (half : |a * u - x| ≤ u / 2)
    (other : n ≠ a) :
    u / 2 ≤ |n * u - x| := by
  have whole : (1 : Int) ≤ |(n : Int) - a| :=
    Int.one_le_abs (sub_ne_zero.mpr (by exact_mod_cast other))
  have step : (1 : ℚ) ≤ |(n : ℚ) - a| := by exact_mod_cast whole
  have apart : u ≤ |n * u - a * u| := by
    rw [← sub_mul, abs_mul, abs_of_pos pos]
    exact le_mul_of_one_le_left pos.le step
  have triangle := abs_sub_le (n * u) x (a * u)
  rw [abs_sub_comm x] at triangle
  linarith

theorem ideal_of_shift_le {k : Nat} (above : k ≤ f.shift q) :
    ∃ n : Nat, f.ideal q = n * 2 ^ (f.minExponent + k) := by
  obtain ⟨more, above⟩ := Nat.exists_eq_add_of_le above
  refine ⟨f.significand q * 2 ^ more, ?_⟩
  rw [ideal, above, Nat.cast_add, ← add_assoc, zpow_add₀ two_ne_zero, zpow_natCast]
  push_cast
  ring

theorem ideal_of_shift_lt {k : Nat} (below : f.shift q < k) :
    f.ideal q < (2 ^ f.fractionBits : Nat) * 2 ^ (f.minExponent + k) := by
  obtain ⟨parts, few, -⟩ := f.shift_significand q
  have before : q < k * 2 ^ f.fractionBits + 2 ^ f.fractionBits := by
    have rows := Nat.mul_le_mul_right (2 ^ f.fractionBits) below
    rw [Nat.succ_mul] at rows
    omega
  rw [← ideal_of_significand (.inr le_rfl) (by omega)]
  exact f.ideal_strictMono before

/-- A significand within half a unit of a number is the nearest to it, if the number has the
exponent of the unit, or the least exponent. -/
theorem nearest_of_significand (places : 0 < f.fractionBits) {k a : Nat} {u : ℚ}
    (unit : u = 2 ^ (f.minExponent + k))
    (lower : k = 0 ∨ 2 ^ f.fractionBits * u ≤ x) (upper : x ≤ 2 * 2 ^ f.fractionBits * u)
    (half : |a * u - x| ≤ u / 2)
    (tie : |a * u - x| = u / 2 → a % 2 = 0) : f.Nearest x (k * 2 ^ f.fractionBits + a) := by
  have pos : 0 < u := by rw [unit]; positivity
  have far : k ≠ 0 → 2 ^ f.fractionBits ≤ a := by
    intro some
    by_contra less
    have low := lower.resolve_left some
    have few : ((a + 1 : Nat) : ℚ) ≤ (2 ^ f.fractionBits : Nat) :=
      Nat.cast_le.mpr (Nat.lt_of_not_le less)
    push_cast at few
    have scaled := mul_le_mul_of_nonneg_right few pos.le
    have behind := neg_le_of_abs_le half
    linarith
  have near : a ≤ 2 * 2 ^ f.fractionBits := by
    by_contra more
    have many : ((2 * 2 ^ f.fractionBits + 1 : Nat) : ℚ) ≤ a :=
      Nat.cast_le.mpr (Nat.lt_of_not_le more)
    push_cast at many
    have scaled := mul_le_mul_of_nonneg_right many pos.le
    have ahead := le_of_abs_le half
    linarith
  have value : f.ideal (k * 2 ^ f.fractionBits + a) = a * u := by
    rw [unit, ideal_of_significand (or_iff_not_imp_left.mpr far) near]
  have parity : (k * 2 ^ f.fractionBits + a) % 2 = a % 2 := by
    obtain ⟨b, bits⟩ := Nat.exists_eq_succ_of_ne_zero places.ne'
    rw [bits, Nat.pow_succ, ← mul_assoc, Nat.mul_add_mod']
  -- Another pattern of these exponents is at least half a unit away, and one of a lower exponent is
  -- behind the first of them.
  have others (q : Nat) (other : q ≠ k * 2 ^ f.fractionBits + a) :
      u / 2 ≤ |f.ideal q - x| ∨ |a * u - x| < |f.ideal q - x| := by
    by_cases above : k ≤ f.shift q
    · obtain ⟨n, multiple⟩ := ideal_of_shift_le above
      rw [← unit] at multiple
      have apart : n ≠ a := by
        rintro rfl
        exact other (f.ideal_strictMono.injective (multiple.trans value.symm))
      rw [multiple]
      exact .inl (half_le_of_ne pos half apart)
    · have below := Nat.lt_of_not_le above
      have low := lower.resolve_left (Nat.ne_of_gt (Nat.zero_lt_of_lt below))
      have under := ideal_of_shift_lt below
      rw [← unit] at under
      have least : |a * u - x| ≤ |(2 ^ f.fractionBits : Nat) * u - x| := by
        by_cases first : 2 ^ f.fractionBits = a
        · rw [first]
        · exact half.trans (half_le_of_ne pos half first)
      push_cast at under least
      rw [abs_of_nonpos (by linarith : (2 : ℚ) ^ f.fractionBits * u - x ≤ 0)] at least
      rw [abs_of_nonpos (by linarith : f.ideal q - x ≤ 0)]
      exact .inr (by linarith)
  refine ⟨fun q => ?_, fun q other same => ?_⟩
  · rw [value]
    by_cases other : q = k * 2 ^ f.fractionBits + a
    · rw [other, value]
    · exact (others q other).elim half.trans le_of_lt
  · rw [value] at same
    rw [parity]
    obtain away | behind := others q other
    · exact tie (half.antisymm (away.trans_eq same))
    · exact absurd same behind.ne'

/-! ## Rounding -/

theorem roundShift_near (m k : Nat) :
    |(roundShift m k : ℚ) - m / 2 ^ k| ≤ 1 / 2 ∧
    (|(roundShift m k : ℚ) - m / 2 ^ k| = 1 / 2 → roundShift m k % 2 = 0) := by
  have pos : (0 : ℚ) < 2 ^ k := by positivity
  have parts : (m : ℚ) = (m / 2 ^ k : Nat) * 2 ^ k + (m % 2 ^ k : Nat) := by
    have whole := Nat.div_add_mod m (2 ^ k)
    rw [mul_comm] at whole
    exact_mod_cast whole.symm
  have quotient : (m : ℚ) / 2 ^ k = (m / 2 ^ k : Nat) + (m % 2 ^ k : Nat) / 2 ^ k := by
    rw [eq_comm, eq_div_iff pos.ne', add_mul, div_mul_cancel₀ _ pos.ne', ← parts]
  have rest : (m % 2 ^ k : Nat) < 2 ^ k := Nat.mod_lt m (Nat.two_pow_pos k)
  have nonneg : (0 : ℚ) ≤ (m % 2 ^ k : Nat) / 2 ^ k := by positivity
  rw [quotient]
  unfold roundShift
  dsimp only
  generalize m / 2 ^ k = whole
  generalize m % 2 ^ k = r at *
  by_cases low : 2 * r < 2 ^ k
  · have under : (r : ℚ) / 2 ^ k < 1 / 2 := by
      rw [div_lt_iff₀ pos]
      have scaled : (2 * r : ℚ) < 2 ^ k := by exact_mod_cast low
      linarith
    rw [if_pos low, abs_of_nonpos (by linarith)]
    exact ⟨by linarith, fun same => by linarith⟩
  · by_cases middle : 2 * r = 2 ^ k
    · have half : (r : ℚ) / 2 ^ k = 1 / 2 := by
        rw [div_eq_iff pos.ne']
        have scaled : (2 * r : ℚ) = 2 ^ k := by exact_mod_cast middle
        linarith
      rw [if_neg low, if_pos middle, half]
      rcases Nat.mod_two_eq_zero_or_one whole with even | odd
      · rw [even, Nat.add_zero, abs_of_nonpos (by linarith)]
        exact ⟨by linarith, fun _ => even⟩
      · rw [odd, Nat.cast_add_one, abs_of_nonneg (by linarith)]
        exact ⟨by linarith, fun _ => by omega⟩
    · have over_half : 1 / 2 < (r : ℚ) / 2 ^ k := by
        rw [lt_div_iff₀ pos]
        have scaled : (2 ^ k : ℚ) < 2 * r := by exact_mod_cast (show 2 ^ k < 2 * r by omega)
        linarith
      have under : (r : ℚ) / 2 ^ k < 1 := by
        rw [div_lt_one pos]
        exact_mod_cast rest
      rw [if_neg low, if_neg middle, Nat.cast_add_one, abs_of_nonneg (by linarith)]
      exact ⟨by linarith, fun same => by linarith⟩

/-- What a magnitude comes to in units of a place. -/
def units (m : Nat) (e place : Int) : Nat :=
  if place ≤ e then m * 2 ^ (e - place).toNat else roundShift m (place - e).toNat

theorem two_pow_mul_zpow (n : Nat) (i : Int) : (2 : ℚ) ^ n * 2 ^ i = 2 ^ (n + i) := by
  rw [zpow_add₀ two_ne_zero, zpow_natCast]

theorem units_near (m : Nat) (e place : Int) :
    |(units m e place : ℚ) * 2 ^ place - m * 2 ^ e| ≤ 2 ^ place / 2 ∧
    (|(units m e place : ℚ) * 2 ^ place - m * 2 ^ e| = 2 ^ place / 2 →
      units m e place % 2 = 0) := by
  have pos : (0 : ℚ) < 2 ^ place := by positivity
  unfold units
  by_cases up : place ≤ e
  · obtain ⟨i, steps⟩ := Int.eq_ofNat_of_zero_le (sub_nonneg.mpr up)
    have whole : ((m * 2 ^ i : Nat) : ℚ) * 2 ^ place = m * 2 ^ e := by
      have sum : e = i + place := by omega
      rw [sum, ← two_pow_mul_zpow]
      push_cast
      ring
    rw [if_pos up, steps, Int.toNat_natCast, whole, sub_self, abs_zero]
    exact ⟨by positivity, fun same => by linarith⟩
  · obtain ⟨i, steps⟩ := Int.eq_ofNat_of_zero_le (sub_nonneg.mpr (Int.le_of_not_le up))
    have scaled : (m : ℚ) * 2 ^ e = m / 2 ^ i * 2 ^ place := by
      have sum : place = i + e := by omega
      rw [sum, ← two_pow_mul_zpow]
      field_simp
    have half : (2 : ℚ) ^ place / 2 = 1 / 2 * 2 ^ place := by ring
    obtain ⟨near, even⟩ := roundShift_near m i
    rw [if_neg up, steps, Int.toNat_natCast, scaled, ← sub_mul, abs_mul, abs_of_pos pos, half]
    exact ⟨mul_le_mul_of_nonneg_right near pos.le,
      fun same => even (mul_right_cancel₀ pos.ne' same)⟩

/-- A magnitude is rounded to the nearest pattern, or to infinity if that one is not finite. -/
theorem nearest_roundMagnitude (places : 0 < f.fractionBits) (m : Nat) (e : Int) :
    ∃ p, f.Nearest (m * 2 ^ e) p ∧ f.roundMagnitude m e = min f.infinity p := by
  by_cases zero : m = 0
  · subst zero
    refine ⟨0, ?_, by rw [roundMagnitude, if_pos rfl, Nat.min_zero]⟩
    rw [Nat.cast_zero, zero_mul, ← f.ideal_zero]
    exact f.nearest_ideal 0
  · rw [roundMagnitude, if_neg zero]
    dsimp only
    have least : f.minExponent ≤ max f.minExponent (e + m.log2 - f.fractionBits) := le_max_left _ _
    have low : e + m.log2 - f.fractionBits ≤ max f.minExponent (e + m.log2 - f.fractionBits) :=
      le_max_right _ _
    have either := max_choice f.minExponent (e + m.log2 - f.fractionBits)
    generalize max f.minExponent (e + m.log2 - f.fractionBits) = place at least low either ⊢
    obtain ⟨k, steps⟩ := Int.eq_ofNat_of_zero_le (sub_nonneg.mpr least)
    have unit : (2 : ℚ) ^ place = 2 ^ (f.minExponent + k) := by rw [← steps, add_sub_cancel]
    have scale : (0 : ℚ) ≤ 2 ^ e := by positivity
    obtain ⟨half, tie⟩ := units_near m e place
    rw [steps, Int.toNat_natCast]
    refine ⟨_, nearest_of_significand places unit ?_ ?_ half tie, rfl⟩
    · refine or_iff_not_imp_left.mpr fun some => ?_
      have exactly : place = e + m.log2 - f.fractionBits := either.resolve_left (by omega)
      have sum : f.fractionBits + place = m.log2 + e := by omega
      have bits : ((2 ^ m.log2 : Nat) : ℚ) ≤ m := Nat.cast_le.mpr (Nat.log2_self_le zero)
      push_cast at bits
      rw [two_pow_mul_zpow, sum, ← two_pow_mul_zpow]
      exact mul_le_mul_of_nonneg_right bits scale
    · have bits : (m : ℚ) ≤ (2 ^ (m.log2 + 1) : Nat) := Nat.cast_le.mpr Nat.lt_log2_self.le
      push_cast at bits
      calc
        (m : ℚ) * 2 ^ e ≤ 2 ^ (m.log2 + 1) * 2 ^ e := mul_le_mul_of_nonneg_right bits scale
        _ = 2 ^ ((m.log2 + 1 : Nat) + e) := two_pow_mul_zpow _ _
        _ ≤ 2 ^ ((f.fractionBits + 1 : Nat) + place) := zpow_le_zpow_right₀ one_le_two (by omega)
        _ = 2 * 2 ^ f.fractionBits * 2 ^ place := by
          rw [← two_pow_mul_zpow, pow_succ, mul_comm (2 ^ f.fractionBits : ℚ) 2]

theorem roundMagnitude_of_ideal (places : 0 < f.fractionBits) {m : Nat} {e : Int}
    (small : p < f.infinity)
    (denotes : (m : ℚ) * 2 ^ e = f.ideal p) : f.roundMagnitude m e = p := by
  obtain ⟨q, nearest, rounded⟩ := nearest_roundMagnitude places m e
  rw [denotes] at nearest
  obtain rfl := nearest.unique (f.nearest_ideal p)
  rw [rounded, Nat.min_eq_right small.le]

end Format

end Ieee754

end WireCodec
