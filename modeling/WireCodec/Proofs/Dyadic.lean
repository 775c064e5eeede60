import Mathlib.Algebra.Order.Field.Power
import Mathlib.Data.Rat.Floor
import Mathlib.Data.Sign.Defs
import Mathlib.Tactic.Positivity
import Mathlib.Tactic.Ring
import WireCodec.Ieee754

/-!
# The numbers that patterns denote

The fields of a pattern are its sign, its exponent and its fraction, and a finite pattern denotes a
dyadic rational by them. What is decoded from a pattern is that number, in integers; what is rounded
toward zero is that number, and where it leaves the signed words of 64 bits, the nearest of them.
Rounding an integer of 64 bits to a pattern of as many keeps its sign.
-/

set_option autoImplicit false

namespace WireCodec

namespace Ieee754

/-! ## Fields -/

namespace Format

variable (f : Format) (p : Nat)

def fraction : Nat := p % 2 ^ f.fractionBits

def exponent : Nat := p / 2 ^ f.fractionBits % 2 ^ f.exponentBits

def negative : Bool := p / f.signBit % 2 == 1

def bias : Int := 2 ^ (f.exponentBits - 1) - 1

/-- The greatest exponent is left to infinities and to what is not a number. -/
def IsFinite : Prop := f.exponent p ≠ 2 ^ f.exponentBits - 1

def IsInfinite : Prop := f.exponent p = 2 ^ f.exponentBits - 1 ∧ f.fraction p = 0

def IsNan : Prop := f.exponent p = 2 ^ f.exponentBits - 1 ∧ f.fraction p ≠ 0

instance : Decidable (f.IsFinite p) := inferInstanceAs (Decidable (_ ≠ _))

instance : Decidable (f.IsInfinite p) := inferInstanceAs (Decidable (_ ∧ _))

instance : Decidable (f.IsNan p) := inferInstanceAs (Decidable (_ ∧ _))

/-- A one stands before the fraction, unless the exponent is the least. -/
def magnitude : ℚ :=
  if f.exponent p = 0 then f.fraction p / 2 ^ f.fractionBits * 2 ^ (1 - f.bias)
  else (1 + f.fraction p / 2 ^ f.fractionBits) * 2 ^ (f.exponent p - f.bias)

def number : ℚ := if f.negative p then -f.magnitude p else f.magnitude p

variable {f : Format} {p : Nat}

theorem decode_of_nan (nan : f.IsNan p) : f.decode p = .nan := by
  obtain ⟨last, payload⟩ := nan
  change (if f.exponent p = _ then if f.fraction p = 0 then _ else _ else _) = _
  rw [if_pos last, if_neg payload]

theorem decode_of_infinite (infinite : f.IsInfinite p) : f.decode p = .infinite (f.negative p) := by
  obtain ⟨last, payload⟩ := infinite
  change (if f.exponent p = _ then if f.fraction p = 0 then _ else _ else _) = _
  rw [if_pos last, if_pos payload]
  rfl

theorem minExponent_eq (f : Format) : f.minExponent = 1 - f.bias - f.fractionBits := by
  unfold minExponent bias
  ring

theorem decode_of_finite (finite : f.IsFinite p) :
    ∃ m e, f.decode p = .finite (f.negative p) m e ∧ (m : ℚ) * 2 ^ e = f.magnitude p := by
  change ∃ m e, (if f.exponent p = _ then _ else if f.exponent p = 0 then _ else _) = _ ∧ _
  rw [if_neg finite]
  unfold magnitude
  have split (e : Int) : (2 : ℚ) ^ (e - f.fractionBits) = 2 ^ e / 2 ^ f.fractionBits := by
    rw [zpow_sub₀ (by norm_num), zpow_natCast]
  by_cases least : f.exponent p = 0
  · rw [if_pos least]
    refine ⟨f.fraction p, f.minExponent, rfl, ?_⟩
    rw [if_pos least, minExponent_eq, split]
    ring
  · rw [if_neg least]
    refine ⟨2 ^ f.fractionBits + f.fraction p, f.minExponent + (f.exponent p - 1 : Nat), rfl, ?_⟩
    have place : f.minExponent + (f.exponent p - 1 : Nat) =
        f.exponent p - f.bias - f.fractionBits := by
      rw [minExponent_eq]
      omega
    have scale : (2 : ℚ) ^ f.fractionBits ≠ 0 := by positivity
    rw [if_neg least, place, split]
    push_cast
    field_simp

theorem magnitude_nonneg (f : Format) (p : Nat) : 0 ≤ f.magnitude p := by
  unfold magnitude
  split <;> positivity

end Format

/-! ## Truncation -/

def towardZero (x : ℚ) : Int := if 0 ≤ x then ⌊x⌋ else ⌈x⌉

theorem towardZero_of_nonneg {x : ℚ} (nonneg : 0 ≤ x) : towardZero x = ⌊x⌋ := if_pos nonneg

theorem towardZero_neg (x : ℚ) (nonneg : 0 ≤ x) : towardZero (-x) = -⌊x⌋ := by
  obtain rfl | pos := nonneg.eq_or_lt
  · rfl
  · rw [towardZero, if_neg (not_le.mpr (neg_lt_zero.mpr pos)), Int.ceil_neg]

/-- An integer of 64 bits is what a pattern comes to when it is rounded toward zero and held within
the range. -/
structure Truncates (f : Format) (p : Nat) (v : Int64) : Prop where
  nan : f.IsNan p → v = 0
  infinite : f.IsInfinite p → v = if f.negative p then Int64.minValue else Int64.maxValue
  below : f.IsFinite p → towardZero (f.number p) < -2 ^ 63 → v = Int64.minValue
  above : f.IsFinite p → 2 ^ 63 - 1 < towardZero (f.number p) → v = Int64.maxValue
  within : f.IsFinite p → -2 ^ 63 ≤ towardZero (f.number p) → towardZero (f.number p) ≤ 2 ^ 63 - 1 →
    v.toInt = towardZero (f.number p)

theorem mul_two_zpow_natCast (m k : Nat) : (m : ℚ) * 2 ^ (k : Int) = (m * 2 ^ k : Nat) := by
  rw [zpow_natCast]
  push_cast
  rfl

theorem mul_two_zpow_neg (m k : Nat) : (m : ℚ) * 2 ^ (-k : Int) = (m : ℚ) / (2 ^ k : Nat) := by
  rw [zpow_neg, zpow_natCast]
  push_cast
  rfl

theorem Datum.wholePart_eq (m : Nat) (e : Int) : (wholePart m e : Int) = ⌊(m : ℚ) * 2 ^ e⌋ := by
  unfold wholePart
  by_cases nonneg : 0 ≤ e
  · obtain ⟨k, rfl⟩ := Int.eq_ofNat_of_zero_le nonneg
    rw [if_pos nonneg, mul_two_zpow_natCast, Int.floor_natCast, Int.toNat_natCast]
  · obtain ⟨k, rfl⟩ : ∃ k : Nat, e = -k := ⟨(-e).toNat, by omega⟩
    rw [if_neg nonneg, mul_two_zpow_neg, Rat.floor_natCast_div_natCast, neg_neg, Int.toNat_natCast]
    rfl

theorem Datum.toInt64_of_finite {f : Format} {p m : Nat} {e : Int}
    (denotes : (m : ℚ) * 2 ^ e = f.magnitude p) :
    (Datum.finite (f.negative p) m e).toInt64 =
      Int64.ofInt
        (max Int64.minValue.toInt (min Int64.maxValue.toInt (towardZero (f.number p)))) := by
  have nonneg := f.magnitude_nonneg p
  rw [toInt64, wholePart_eq, denotes, Format.number]
  cases f.negative p with
  | false => rw [if_neg Bool.false_ne_true, if_neg Bool.false_ne_true, towardZero_of_nonneg nonneg]
  | true => rw [if_pos rfl, if_pos rfl, towardZero_neg _ nonneg]

theorem truncates_decode (f : Format) (p : Nat) : Truncates f p (f.decode p).toInt64 := by
  have least : Int64.minValue.toInt = -2 ^ 63 := rfl
  have greatest : Int64.maxValue.toInt = 2 ^ 63 - 1 := rfl
  have finite (h : f.IsFinite p) : (f.decode p).toInt64 =
      Int64.ofInt (max (-2 ^ 63) (min (2 ^ 63 - 1) (towardZero (f.number p)))) := by
    obtain ⟨m, e, decoded, denotes⟩ := Format.decode_of_finite h
    rw [decoded, Datum.toInt64_of_finite denotes, least, greatest]
  refine ⟨fun h => ?_, fun h => ?_, fun h low => ?_, fun h high => ?_, fun h low high => ?_⟩
  · rw [Format.decode_of_nan h]
    rfl
  · rw [Format.decode_of_infinite h]
    rfl
  · rw [finite h, min_eq_right (by omega), max_eq_left (by omega)]
    rfl
  · rw [finite h, min_eq_left (by omega), max_eq_right (by omega)]
    rfl
  · rw [finite h, min_eq_right high, max_eq_right low, Int64.toInt_ofInt_of_le low (by omega)]

theorem Truncates.unique {f : Format} {p : Nat} {v w : Int64} (h : Truncates f p v)
    (h' : Truncates f p w) : v = w := by
  by_cases finite : f.IsFinite p
  · by_cases below : towardZero (f.number p) < -2 ^ 63
    · rw [h.below finite below, h'.below finite below]
    · by_cases above : 2 ^ 63 - 1 < towardZero (f.number p)
      · rw [h.above finite above, h'.above finite above]
      · have low := Int.not_lt.mp below
        have high := Int.not_lt.mp above
        exact Int64.toInt_inj.mp ((h.within finite low high).trans (h'.within finite low high).symm)
  · have last := not_not.mp finite
    by_cases payload : f.fraction p = 0
    · rw [h.infinite ⟨last, payload⟩, h'.infinite ⟨last, payload⟩]
    · rw [h.nan ⟨last, payload⟩, h'.nan ⟨last, payload⟩]

theorem truncates_iff {f : Format} {p : Nat} {v : Int64} :
    Truncates f p v ↔ v = (f.decode p).toInt64 := by
  constructor
  · exact fun h => h.unique (truncates_decode f p)
  · rintro rfl
    exact truncates_decode f p

/-! ## Signs -/

namespace Format

variable {f : Format} {p g : Nat}

theorem signBit_eq (f : Format) : f.signBit = 2 ^ f.exponentBits * 2 ^ f.fractionBits :=
  pow_add 2 _ _

theorem infinity_lt_signBit (f : Format) : f.infinity < f.signBit := by
  rw [signBit_eq, infinity]
  exact Nat.mul_lt_mul_of_pos_right (Nat.sub_lt (by positivity) one_pos) (by positivity)

theorem fields_of_parts (s : Bool) (small : g < f.infinity) :
    let p := (if s then f.signBit else 0) + g
    f.negative p = s ∧ f.exponent p = g / 2 ^ f.fractionBits ∧
    f.fraction p = g % 2 ^ f.fractionBits := by
  intro p
  have below : g / 2 ^ f.fractionBits < 2 ^ f.exponentBits := by
    have under := small.trans f.infinity_lt_signBit
    rw [signBit_eq, mul_comm] at under
    exact Nat.div_lt_of_lt_mul under
  have unsigned : g / f.signBit = 0 := Nat.div_eq_of_lt (small.trans f.infinity_lt_signBit)
  cases s with
  | false =>
    have plain : p = g := Nat.zero_add g
    rw [plain]
    refine ⟨?_, Nat.mod_eq_of_lt below, rfl⟩
    rw [negative, unsigned]
    rfl
  | true =>
    have marked : p = f.signBit + g := rfl
    rw [marked]
    refine ⟨?_, ?_, ?_⟩
    · rw [negative, Nat.add_div_left _ (Nat.zero_lt_of_lt f.infinity_lt_signBit), unsigned]
      rfl
    · rw [exponent, signBit_eq, add_comm, Nat.add_mul_div_right _ _ (by positivity),
        Nat.add_mod_right, Nat.mod_eq_of_lt below]
    · rw [fraction, signBit_eq, Nat.mul_add_mod']

theorem isFinite_of_parts (s : Bool) (small : g < f.infinity) :
    f.IsFinite ((if s then f.signBit else 0) + g) := by
  obtain ⟨-, exponent, -⟩ := fields_of_parts s small
  rw [infinity, mul_comm] at small
  rw [IsFinite, exponent]
  exact (Nat.div_lt_of_lt_mul small).ne

theorem magnitude_pos (something : f.exponent p ≠ 0 ∨ f.fraction p ≠ 0) : 0 < f.magnitude p := by
  unfold magnitude
  split
  · next least =>
    have nonzero := something.resolve_left (absurd least)
    positivity
  · positivity

theorem magnitude_eq_zero (exponent : f.exponent p = 0) (fraction : f.fraction p = 0) :
    f.magnitude p = 0 := by
  rw [magnitude, if_pos exponent, fraction]
  simp

theorem sign_of_parts (s : Bool) (small : g < f.infinity) :
    SignType.sign (f.number ((if s then f.signBit else 0) + g)) =
      if g = 0 then 0 else if s then -1 else 1 := by
  obtain ⟨negative, exponent, fraction⟩ := fields_of_parts s small
  rw [number, negative]
  by_cases zero : g = 0
  · subst zero
    have nothing :=
      magnitude_eq_zero (exponent.trans (Nat.zero_div _)) (fraction.trans (Nat.zero_mod _))
    rw [nothing, neg_zero, ite_self, sign_zero, if_pos rfl]
  · have pos : 0 < f.magnitude ((if s then f.signBit else 0) + g) := by
      refine magnitude_pos ?_
      rw [exponent, fraction, ← not_and_or]
      rintro ⟨whole, rest⟩
      have parts := Nat.div_add_mod g (2 ^ f.fractionBits)
      rw [whole, rest] at parts
      exact zero parts.symm
    rw [if_neg zero]
    cases s with
    | false => exact sign_pos pos
    | true => exact sign_neg (neg_neg_of_pos pos)

theorem roundShift_le (m k : Nat) : roundShift m k ≤ m / 2 ^ k + 1 := by
  unfold roundShift
  dsimp only
  split
  · omega
  · split <;> omega

theorem places_le {m : Nat} {place : Int} (place_eq : place = m.log2 - 52) :
    (if place ≤ 0 then m * 2 ^ (0 - place).toNat else roundShift m (place - 0).toNat) ≤ 2 ^ 53 := by
  have upper := Nat.lt_log2_self (n := m)
  by_cases short : m.log2 ≤ 52
  · have up : (0 - place).toNat = 52 - m.log2 := by omega
    rw [if_pos (by omega), up]
    calc
      m * 2 ^ (52 - m.log2) ≤ 2 ^ (m.log2 + 1) * 2 ^ (52 - m.log2) :=
        Nat.mul_le_mul_right _ upper.le
      _ = 2 ^ 53 := by rw [← pow_add]; congr 1; omega
  · obtain ⟨k, long⟩ : ∃ k, m.log2 = 52 + k := ⟨m.log2 - 52, by omega⟩
    have down : (place - 0).toNat = k := by omega
    have scaled : m < 2 ^ k * 2 ^ 53 := by
      rw [← pow_add]
      refine upper.trans_eq (congrArg (2 ^ ·) ?_)
      omega
    rw [if_neg (by omega), down]
    exact (roundShift_le m k).trans (Nat.div_lt_of_lt_mul scaled)

theorem roundMagnitude_bounds {m : Nat} (nonzero : m ≠ 0) (small : m < 2 ^ 64) :
    0 < binary64.roundMagnitude m 0 ∧ binary64.roundMagnitude m 0 < binary64.infinity := by
  have log_lt : m.log2 < 64 := (Nat.log2_lt nonzero).mpr small
  have least : binary64.minExponent = -1074 := rfl
  have last : binary64.infinity = 2047 * 2 ^ 52 := rfl
  have bits : binary64.fractionBits = 52 := rfl
  have place_eq : max (-1074) (0 + (m.log2 : Int) - (52 : Nat)) = m.log2 - 52 := by omega
  have filled := places_le (m := m) rfl
  rw [roundMagnitude, if_neg nonzero, least, last, bits]
  dsimp only
  rw [place_eq]
  generalize (if (m.log2 : Int) - 52 ≤ 0 then _ else _) = places at filled ⊢
  omega

theorem sign_round_ofInt {v : Int} (small : v.natAbs < 2 ^ 64) :
    let p := binary64.round (.ofInt v)
    p < 2 ^ 64 ∧ binary64.IsFinite p ∧
    SignType.sign (binary64.number p) = SignType.sign (v : ℚ) := by
  intro p
  have parts : p =
      (if decide (v < 0) then binary64.signBit else 0) + binary64.roundMagnitude v.natAbs 0 := rfl
  by_cases zero : v = 0
  · subst zero
    have none_rounded : binary64.roundMagnitude (0 : Int).natAbs 0 < binary64.infinity := by decide
    rw [parts]
    refine ⟨by decide, isFinite_of_parts _ none_rounded, ?_⟩
    rw [sign_of_parts _ none_rounded]
    rfl
  · obtain ⟨pos, below⟩ := roundMagnitude_bounds (Int.natAbs_ne_zero.mpr zero) small
    have top : binary64.signBit = 2 ^ 63 := rfl
    have under := below.trans binary64.infinity_lt_signBit
    rw [parts]
    refine ⟨?_, isFinite_of_parts _ below, ?_⟩
    · rw [top] at under ⊢
      split <;> omega
    · rw [sign_of_parts _ below, if_neg pos.ne']
      rcases Int.lt_or_gt_of_ne zero with neg | pos
      · rw [decide_eq_true neg, if_pos rfl, sign_neg (Int.cast_lt_zero.mpr neg)]
      · rw [decide_eq_false (Int.not_lt.mpr pos.le), if_neg Bool.false_ne_true,
          sign_pos (Int.cast_pos.mpr pos)]

end Format

end Ieee754

end WireCodec
