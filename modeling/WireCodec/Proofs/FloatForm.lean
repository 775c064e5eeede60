import Mathlib.Algebra.Order.Floor.Semifield
import WireCodec.Proofs.Rounding
import WireCodec.Tape.Narrow

/-!
# The form of a float

How a float is stored is decided by its magnitude: it is stored as an integer if it is near one, in
32 bits if a thousand times the float is, rounded to the nearest pattern, and else in full. Whether
the float itself is at most a limit is asked as well, but it plays no part: beyond the limit a
thousand times a float has so few places behind the point that none comes near enough to a whole. A
float that is an integer of 64 bits is stored as that integer, and the integer is rounded back to
it.
-/

set_option autoImplicit false

namespace WireCodec

open Ieee754 (BinaryFraction Datum binary32 binary64)

namespace Ieee754

/-! ## Fractions -/

def BinaryFraction.toRat (d : BinaryFraction) : ℚ := d.num / 2 ^ d.scale

theorem BinaryFraction.lt_iff {a b : BinaryFraction} : a.lt b = true ↔ a.toRat < b.toRat := by
  have pos (k : Nat) : (0 : ℚ) < 2 ^ k := by positivity
  rw [lt, decide_eq_true_iff, toRat, toRat, div_lt_div_iff₀ (pos _) (pos _)]
  exact_mod_cast Iff.rfl

theorem Datum.fraction?_finite (negative : Bool) (m : Nat) (e : Int) :
    ∃ d, (Datum.finite negative m e).fraction? = some d ∧
      d.toRat = Int.fract ((m : ℚ) * 2 ^ e) := by
  refine ⟨_, rfl, ?_⟩
  by_cases nonneg : 0 ≤ e
  · obtain ⟨k, rfl⟩ := Int.eq_ofNat_of_zero_le nonneg
    rw [if_pos nonneg, mul_two_zpow_natCast, Int.fract_natCast, BinaryFraction.toRat,
      Nat.cast_zero, zero_div]
  · obtain ⟨k, rfl⟩ : ∃ k : Nat, e = -k := ⟨(-e).toNat, by omega⟩
    rw [if_neg nonneg, mul_two_zpow_neg, Int.fract_div_natCast_eq_div_natCast_mod, neg_neg,
      Int.toNat_natCast, BinaryFraction.toRat]
    push_cast
    rfl

namespace Format

variable {f : Format} {p : Nat}

theorem fraction?_of_finite (finite : f.IsFinite p) :
    ∃ d, (f.decode p).fraction? = some d ∧ d.toRat = Int.fract (f.magnitude p) := by
  obtain ⟨m, e, decoded, denotes⟩ := decode_of_finite finite
  rw [decoded, ← denotes]
  exact Datum.fraction?_finite _ _ _

theorem fraction?_of_not_finite (endless : ¬ f.IsFinite p) : (f.decode p).fraction? = none := by
  have last := not_not.mp endless
  by_cases payload : f.fraction p = 0
  · rw [decode_of_infinite ⟨last, payload⟩]
    rfl
  · rw [decode_of_nan ⟨last, payload⟩]
    rfl

theorem round_scale (places : 0 < f.fractionBits) (finite : f.IsFinite p) (k : Nat) :
    ∃ g, f.Nearest (k * f.magnitude p) g ∧
      f.round ((f.decode p).scale k) =
        (if f.negative p then f.signBit else 0) + min f.infinity g := by
  obtain ⟨m, e, decoded, denotes⟩ := decode_of_finite finite
  obtain ⟨g, nearest, rounded⟩ := nearest_roundMagnitude places (m * k) e
  have product : ((m * k : Nat) : ℚ) * 2 ^ e = k * f.magnitude p := by
    rw [← denotes]
    push_cast
    ring
  rw [product] at nearest
  exact ⟨g, nearest, by rw [decoded, Datum.scale, round, rounded]⟩

theorem magnitude_of_parts {g : Nat} (s : Bool) (small : g < f.infinity) :
    f.magnitude ((if s then f.signBit else 0) + g) = f.ideal g := by
  obtain ⟨-, exponent, fraction⟩ := fields_of_parts s small
  obtain ⟨-, exponent', fraction'⟩ := fields_of_parts false small
  rw [if_neg Bool.false_ne_true, zero_add] at exponent' fraction'
  rw [← magnitude_eq_ideal small, magnitude, magnitude, exponent, fraction, exponent', fraction']

theorem atMost_of_le (finite : f.IsFinite p) {bound : Nat} (low : f.magnitude p ≤ bound) :
    (f.decode p).atMost bound = true := by
  obtain ⟨m, e, decoded, denotes⟩ := decode_of_finite finite
  rw [← denotes] at low
  rw [decoded, Datum.atMost, Bool.or_eq_true]
  refine .inr ?_
  by_cases nonneg : 0 ≤ e
  · obtain ⟨k, rfl⟩ := Int.eq_ofNat_of_zero_le nonneg
    rw [zpow_natCast] at low
    rw [if_pos nonneg, decide_eq_true_iff, Int.toNat_natCast]
    exact_mod_cast low
  · obtain ⟨k, rfl⟩ : ∃ k : Nat, e = -k := ⟨(-e).toNat, by omega⟩
    rw [zpow_neg, zpow_natCast, ← div_eq_mul_inv, div_le_iff₀ (by positivity)] at low
    rw [if_neg nonneg, decide_eq_true_iff, neg_neg, Int.toNat_natCast]
    exact_mod_cast low

/-! ## Signs of patterns -/

theorem abs_number (f : Format) (p : Nat) : |f.number p| = f.magnitude p := by
  have nonneg := f.magnitude_nonneg p
  rw [number]
  split
  · rw [abs_neg, abs_of_nonneg nonneg]
  · exact abs_of_nonneg nonneg

theorem parts_of_word (p : UInt64) :
    p.toNat =
      (if binary64.negative p.toNat then binary64.signBit else 0) + p.toNat % binary64.signBit := by
  have bound := p.toNat_lt
  have top : binary64.signBit = 2 ^ 63 := rfl
  have parts := Nat.div_add_mod p.toNat (2 ^ 63)
  rw [negative, top]
  obtain clear | set : p.toNat / 2 ^ 63 = 0 ∨ p.toNat / 2 ^ 63 = 1 := by omega
  · rw [clear] at parts ⊢
    exact parts.symm
  · rw [set] at parts ⊢
    exact parts.symm

theorem round_ofInt_of_number {p : UInt64} (finite : binary64.IsFinite p.toNat) {n : Int}
    (integral : binary64.number p.toNat = n) :
    UInt64.ofNat (binary64.round (.ofInt n)) = if p = 0x8000000000000000 then 0 else p := by
  have small := mod_signBit_lt_infinity finite
  have value := magnitude_of_finite finite
  have size : ((n.natAbs : Nat) : ℚ) * 2 ^ (0 : Int) =
      binary64.ideal (p.toNat % binary64.signBit) := by
    rw [zpow_zero, mul_one, ← value, ← abs_number, integral, Nat.cast_natAbs, Int.cast_abs]
  have parts := parts_of_word p
  have rounded : binary64.round (.ofInt n) =
      (if decide (n < 0) then binary64.signBit else 0) + p.toNat % binary64.signBit := by
    rw [← roundMagnitude_of_ideal (by decide) small size]
    rfl
  by_cases zero : p.toNat % binary64.signBit = 0
  · -- Both zeros denote the integer zero, which is rounded to the one without a sign.
    have nothing : n = 0 := by
      rw [zero, ideal_zero, mul_eq_zero_iff_right (by positivity), Nat.cast_eq_zero] at size
      exact Int.natAbs_eq_zero.mp size
    rw [rounded, zero, nothing]
    cases negative : binary64.negative p.toNat with
    | false =>
      rw [zero, negative] at parts
      obtain rfl : p = 0 := UInt64.toNat_inj.mp parts
      rfl
    | true =>
      rw [zero, negative] at parts
      rw [if_pos (UInt64.toNat_inj.mp parts)]
      rfl
  · have pos : 0 < binary64.magnitude p.toNat := by
      rw [value, ← ideal_zero binary64]
      exact binary64.ideal_strictMono (Nat.pos_of_ne_zero zero)
    have sign : decide (n < 0) = binary64.negative p.toNat := by
      rw [number] at integral
      cases negative : binary64.negative p.toNat with
      | false =>
        rw [negative, if_neg Bool.false_ne_true] at integral
        rw [integral] at pos
        exact decide_eq_false (Int.not_lt.mpr (Int.cast_pos.mp pos).le)
      | true =>
        rw [negative, if_pos rfl] at integral
        have below := neg_neg_of_pos pos
        rw [integral] at below
        exact decide_eq_true (Int.cast_lt_zero.mp below)
    have signed : p ≠ 0x8000000000000000 := by
      rintro rfl
      exact zero rfl
    rw [rounded, sign, ← parts, UInt64.ofNat_toNat, if_neg signed]

end Format

end Ieee754

namespace FloatForm

open Ieee754 (Format)

/-- Whether a magnitude is so near to a whole number that it counts as one. -/
def NearWhole (x : ℚ) : Prop := Int.fract x < tolerance.toRat ∨ nearlyOne.toRat < Int.fract x

theorem nearWhole_of_fract (x : ℚ) (whole : Int.fract x = 0) : NearWhole x := by
  refine .inl ?_
  rw [whole, tolerance, BinaryFraction.toRat]
  positivity

section Finite

variable {p : Nat}

theorem fractionVanishes_iff (finite : binary64.IsFinite p) :
    fractionVanishes (binary64.decode p) = true ↔
      Int.fract (binary64.magnitude p) < tolerance.toRat := by
  obtain ⟨d, found, value⟩ := Format.fraction?_of_finite finite
  rw [fractionVanishes, found, ← value]
  exact BinaryFraction.lt_iff

theorem fractionFills_iff (finite : binary64.IsFinite p) :
    fractionFills (binary64.decode p) = true ↔
      nearlyOne.toRat < Int.fract (binary64.magnitude p) := by
  obtain ⟨d, found, value⟩ := Format.fraction?_of_finite finite
  rw [fractionFills, found, ← value]
  exact BinaryFraction.lt_iff

theorem fract_ideal_le {g : Nat} (great : 1056 * 2 ^ 52 ≤ g) :
    Int.fract (binary64.ideal g) ≤ 1 - 1 / 2 ^ 19 := by
  obtain ⟨k, shift⟩ : ∃ k, binary64.shift g = 1055 + k := by
    have whole : 1056 ≤ g / 2 ^ 52 := (Nat.le_div_iff_mul_le (by positivity)).mpr great
    refine Nat.exists_eq_add_of_le (?_ : 1055 ≤ g / 2 ^ 52 - 1)
    omega
  have least : binary64.minExponent = -1074 := rfl
  have place : binary64.minExponent + (1055 + k : Nat) = k + -(19 : Nat) := by
    rw [least]
    push_cast
    ring
  have quotient : binary64.ideal g =
      ((binary64.significand g * 2 ^ k : Nat) : ℚ) / (2 ^ 19 : Nat) := by
    rw [Format.ideal, shift, place, zpow_add₀ two_ne_zero, zpow_neg, zpow_natCast, zpow_natCast]
    push_cast
    ring
  have rest : binary64.significand g * 2 ^ k % 2 ^ 19 < 2 ^ 19 := Nat.mod_lt _ (by positivity)
  rw [quotient, Int.fract_div_natCast_eq_div_natCast_mod]
  generalize binary64.significand g * 2 ^ k % 2 ^ 19 = r at rest
  have numerator : (r : ℚ) + 1 ≤ 2 ^ 19 := by exact_mod_cast rest
  calc
    (r : ℚ) / (2 ^ 19 : Nat) ≤ (2 ^ 19 - 1) / (2 ^ 19 : Nat) := by gcongr; linarith
    _ = 1 - 1 / 2 ^ 19 := by norm_num

theorem ideal_of_exponent (k : Nat) :
    binary64.ideal ((k + 1) * 2 ^ 52) = 2 ^ ((k : Int) - 1022) := by
  have row : (k + 1) * 2 ^ 52 = k * 2 ^ binary64.fractionBits + 2 ^ binary64.fractionBits :=
    Nat.succ_mul k (2 ^ 52)
  have least : binary64.minExponent = -1074 := rfl
  have bits : binary64.fractionBits = 52 := rfl
  rw [row, Format.ideal_of_significand (.inr le_rfl) (by omega), least, bits, Nat.cast_pow,
    Nat.cast_ofNat, Format.two_pow_mul_zpow]
  congr 1
  push_cast
  ring

/-- Beyond the limit, a thousand times a magnitude is not near to a whole number from below. -/
theorem fract_ideal_of_limit {x : ℚ} {g : Nat} (nearest : binary64.Nearest (1000 * x) g)
    (beyond : (singleLimit : ℚ) < x) :
    Int.fract (binary64.ideal g) ≤ 1 - 1 / 2 ^ 19 := by
  have power : binary64.ideal (1056 * 2 ^ 52) = 2 ^ (33 : Int) := ideal_of_exponent 1055
  refine fract_ideal_le (nearest.le_of_ideal_le ?_)
  have limit : (singleLimit : ℚ) = 16777215 := by rw [singleLimit]; norm_num
  rw [power]
  rw [limit] at beyond
  calc
    (2 : ℚ) ^ (33 : Int) ≤ 1000 * 16777215 := by norm_num
    _ ≤ 1000 * x := by linarith

theorem nearlyOne_gt : (1 : ℚ) - 1 / 2 ^ 19 < nearlyOne.toRat := by
  rw [nearlyOne, BinaryFraction.toRat]
  norm_num

theorem lt_of_not_nearWhole (finite : binary64.IsFinite p)
    (apart : ¬ NearWhole (binary64.magnitude p)) :
    binary64.magnitude p < 2 ^ (52 : Int) := by
  by_contra great
  have power : binary64.ideal (1075 * 2 ^ 52) = 2 ^ (52 : Int) := ideal_of_exponent 1074
  have value := Format.magnitude_of_finite finite
  rw [value, ← power, not_lt, (binary64.ideal_strictMono).le_iff_le] at great
  generalize p % binary64.signBit = g at value great
  obtain ⟨k, shift⟩ : ∃ k, binary64.shift g = 1074 + k := by
    have whole : 1075 ≤ g / 2 ^ 52 := (Nat.le_div_iff_mul_le (by positivity)).mpr great
    refine Nat.exists_eq_add_of_le (?_ : 1074 ≤ g / 2 ^ 52 - 1)
    omega
  have least : binary64.minExponent = -1074 := rfl
  have whole : binary64.ideal g = (binary64.significand g * 2 ^ k : Nat) := by
    rw [Format.ideal, shift, least, Nat.cast_add, Nat.cast_ofNat, neg_add_cancel_left, zpow_natCast]
    push_cast
    rfl
  refine apart (nearWhole_of_fract _ ?_)
  rw [value, whole, Int.fract_natCast]

end Finite

/-! ## The choice -/

/-- How a form is chosen, of which only the magnitude decides. -/
inductive Chosen (p : UInt64) : FloatForm → Prop
  | endless (endless : ¬ binary64.IsFinite p.toNat) : Chosen p (.double p)
  | whole (finite : binary64.IsFinite p.toNat) (near : NearWhole (binary64.magnitude p.toNat)) :
      Chosen p (.integer (binary64.decode p.toNat).toInt64)
  | few {g : Nat} (finite : binary64.IsFinite p.toNat)
    (nearest : binary64.Nearest (1000 * binary64.magnitude p.toNat) g)
      (apart : ¬ NearWhole (binary64.magnitude p.toNat)) (near : NearWhole (binary64.ideal g)) :
      Chosen p (.single (UInt32.ofNat (Ieee754.convert binary64 binary32 p.toNat)))
  | full {g : Nat} (finite : binary64.IsFinite p.toNat)
    (nearest : binary64.Nearest (1000 * binary64.magnitude p.toNat) g)
      (apart : ¬ NearWhole (binary64.magnitude p.toNat)) (apart' : ¬ NearWhole (binary64.ideal g)) :
        Chosen p (.double p)

theorem nearWhole_iff {p : Nat} (finite : binary64.IsFinite p) :
    (fractionVanishes (binary64.decode p) || fractionFills (binary64.decode p)) = true ↔
      NearWhole (binary64.magnitude p) := by
  rw [Bool.or_eq_true, fractionVanishes_iff finite, fractionFills_iff finite, NearWhole]

theorem product_finite {p : Nat} (finite : binary64.IsFinite p)
    (apart : ¬ NearWhole (binary64.magnitude p)) :
    let q := binary64.round ((binary64.decode p).scale 1000)
    ∃ g, binary64.Nearest (1000 * binary64.magnitude p) g ∧ binary64.IsFinite q ∧
      binary64.magnitude q = binary64.ideal g := by
  intro q
  obtain ⟨g, nearest, rounded⟩ := Format.round_scale (f := binary64) (by decide) finite 1000
  have power : binary64.ideal (1085 * 2 ^ 52) = 2 ^ (62 : Int) := ideal_of_exponent 1084
  -- What is not near to a whole number is so small that its product is far below the infinity.
  have little := lt_of_not_nearWhole finite apart
  have bound : g ≤ 1085 * 2 ^ 52 := by
    refine nearest.le_of_le_ideal ?_
    rw [power]
    calc
      (1000 : Nat) * binary64.magnitude p ≤ (1000 : Nat) * 2 ^ (52 : Int) := by gcongr
      _ ≤ 2 ^ (62 : Int) := by norm_num
  have small : g < binary64.infinity := bound.trans_lt (by decide)
  rw [min_eq_right small.le] at rounded
  refine ⟨g, nearest, ?_, ?_⟩
  · rw [show q = _ from rounded]
    exact Format.isFinite_of_parts _ small
  · rw [show q = _ from rounded]
    exact Format.magnitude_of_parts _ small

theorem atMost_of_fills {p g : Nat} (finite : binary64.IsFinite p)
    (nearest : binary64.Nearest (1000 * binary64.magnitude p) g)
    (fills : nearlyOne.toRat < Int.fract (binary64.ideal g)) :
    (binary64.decode p).atMost singleLimit = true := by
  refine Format.atMost_of_le finite ?_
  by_contra beyond
  have short := fract_ideal_of_limit nearest (not_le.mp beyond)
  exact (fills.trans_le short).not_gt nearlyOne_gt

theorem fraction?_product {x : Datum} (endless : x.fraction? = none) :
    (binary64.decode (binary64.round (x.scale 1000))).fraction? = none := by
  cases x with
  | nan => rfl
  | infinite negative => cases negative <;> rfl
  | finite _ _ _ => cases endless

theorem chosen_narrowest (p : UInt64) : Chosen p (narrowest p) := by
  unfold narrowest
  dsimp only
  generalize product_eq :
    binary64.decode (binary64.round ((binary64.decode p.toNat).scale 1000)) = y
  by_cases finite : binary64.IsFinite p.toNat
  · by_cases near : NearWhole (binary64.magnitude p.toNat)
    · rw [if_pos ((nearWhole_iff finite).mpr near)]
      exact .whole finite near
    · obtain ⟨g, nearest, finite', value⟩ := product_finite finite near
      have near_iff :
          (fractionVanishes y ||
            (fractionFills y && (binary64.decode p.toNat).atMost singleLimit)) = true ↔
          NearWhole (binary64.ideal g) := by
        rw [← product_eq, Bool.or_eq_true, Bool.and_eq_true, fractionVanishes_iff finite',
          fractionFills_iff finite', value,
          and_iff_left_of_imp (atMost_of_fills finite nearest), NearWhole]
      rw [if_neg (near ∘ (nearWhole_iff finite).mp)]
      by_cases near' : NearWhole (binary64.ideal g)
      · rw [if_pos (near_iff.mpr near')]
        exact .few finite nearest near near'
      · rw [if_neg (near' ∘ near_iff.mp)]
        exact .full finite nearest near near'
  · have nothing := Format.fraction?_of_not_finite finite
    have nothing' : y.fraction? = none := by rw [← product_eq, fraction?_product nothing]
    have plain (x : Datum) (h : x.fraction? = none) :
        fractionVanishes x = false ∧ fractionFills x = false := by
      rw [fractionVanishes, fractionFills, h]
      exact ⟨rfl, rfl⟩
    obtain ⟨vanishes, fills⟩ := plain _ nothing
    obtain ⟨vanishes', fills'⟩ := plain _ nothing'
    rw [vanishes, fills, vanishes', fills']
    exact .endless finite

/-! ## Whole floats -/

section Whole

variable {p : UInt64} (finite : binary64.IsFinite p.toNat)
include finite

theorem narrowest_of_near (near : NearWhole (binary64.magnitude p.toNat)) :
    narrowest p = .integer (binary64.decode p.toNat).toInt64 := by
  have chosen := chosen_narrowest p
  generalize narrowest p = form at chosen ⊢
  cases chosen with
  | endless endless => exact absurd finite endless
  | whole _ _ => rfl
  | few _ _ apart _ | full _ _ apart _ => exact absurd near apart

theorem narrowest_of_number {n : Int} (integral : binary64.number p.toNat = n) (low : -2 ^ 63 ≤ n)
    (high : n < 2 ^ 63) :
    narrowest p = .integer (Int64.ofInt n) := by
  have near : NearWhole (binary64.magnitude p.toNat) := by
    refine nearWhole_of_fract _ ?_
    rw [← Format.abs_number, integral, ← Int.cast_abs, Int.fract_intCast]
  have whole : Ieee754.towardZero (binary64.number p.toNat) = n := by
    rw [integral, Ieee754.towardZero]
    split
    · exact Int.floor_intCast n
    · exact Int.ceil_intCast n
  have truncates := Ieee754.truncates_decode binary64 p.toNat
  have value := truncates.within finite (by rw [whole]; exact low) (by rw [whole]; omega)
  rw [narrowest_of_near finite near, ← Int64.ofInt_toInt (binary64.decode p.toNat).toInt64,
    value, whole]

theorem narrowest_of_great (great : 2 ^ 63 ≤ |binary64.number p.toNat|) :
    narrowest p =
      .integer (if binary64.negative p.toNat then Int64.minValue else Int64.maxValue) := by
  rw [Format.abs_number] at great
  have near : NearWhole (binary64.magnitude p.toNat) := by
    by_contra apart
    have little := lt_of_not_nearWhole finite apart
    have less : (2 : ℚ) ^ (52 : Int) < 2 ^ 63 := by norm_num
    linarith
  have truncates := Ieee754.truncates_decode binary64 p.toNat
  have nonneg := binary64.magnitude_nonneg p.toNat
  have whole : (2 : Int) ^ 63 ≤ ⌊binary64.magnitude p.toNat⌋ :=
    Int.le_floor.mpr (by exact_mod_cast great)
  rw [narrowest_of_near finite near]
  congr 1
  cases negative : binary64.negative p.toNat with
  | false =>
    have value : Ieee754.towardZero (binary64.number p.toNat) = ⌊binary64.magnitude p.toNat⌋ := by
      rw [Format.number, negative, if_neg Bool.false_ne_true, Ieee754.towardZero_of_nonneg nonneg]
    exact truncates.above finite (by rw [value]; omega)
  | true =>
    have value : Ieee754.towardZero (binary64.number p.toNat) = -⌊binary64.magnitude p.toNat⌋ := by
      rw [Format.number, negative, if_pos rfl, Ieee754.towardZero_neg _ nonneg]
    obtain less | least := whole.lt_or_eq
    · exact truncates.below finite (by rw [value]; omega)
    · rw [← least] at value
      exact Int64.toInt_inj.mp
        ((truncates.within finite (by rw [value]) (by rw [value]; decide)).trans value)

end Whole

/-! ## Opposite floats -/

def opposite (p : UInt64) : UInt64 := p ^^^ 0x8000000000000000

theorem toNat_opposite (p : UInt64) : (opposite p).toNat = p.toNat ^^^ 2 ^ 63 :=
  UInt64.toNat_xor p _

theorem opposite_mod (p : UInt64) :
    (opposite p).toNat % binary64.signBit = p.toNat % binary64.signBit := by
  have top : binary64.signBit = 2 ^ 63 := rfl
  rw [toNat_opposite, top, Nat.xor_mod_two_pow, Nat.mod_self, Nat.xor_zero]

theorem negative_opposite (p : UInt64) :
    binary64.negative (opposite p).toNat = !binary64.negative p.toNat := by
  have top : binary64.signBit = 2 ^ 63 := rfl
  have bound := p.toNat_lt
  rw [Format.negative, Format.negative, toNat_opposite, top, Nat.xor_div_two_pow]
  obtain clear | set : p.toNat / 2 ^ 63 = 0 ∨ p.toNat / 2 ^ 63 = 1 := by omega
  · rw [clear]
    rfl
  · rw [set]
    rfl

theorem magnitude_opposite (p : UInt64) :
    binary64.magnitude (opposite p).toNat = binary64.magnitude p.toNat := by
  rw [← Format.magnitude_mod, opposite_mod, Format.magnitude_mod]

theorem isFinite_opposite (p : UInt64) :
    binary64.IsFinite (opposite p).toNat ↔ binary64.IsFinite p.toNat := by
  rw [← Format.isFinite_mod, opposite_mod, Format.isFinite_mod]

theorem number_opposite (p : UInt64) :
    binary64.number (opposite p).toNat = -binary64.number p.toNat := by
  rw [Format.number, Format.number, negative_opposite, magnitude_opposite]
  cases binary64.negative p.toNat with
  | false => rfl
  | true => exact (neg_neg _).symm

end FloatForm

end WireCodec
