import Mathlib.Tactic.Ring
import WireCodec.Leb128

/-!
# Reading numbers in base 128

The digits of a number, fed one by one, add up to it. Each digit finds its place as long as the
whole stays within 64 bits, which also keeps it within ten bytes. The zigzag numbering loses
nothing.
-/

set_option autoImplicit false

namespace WireCodec

namespace Leb128

/-- Whatever has its place above nine digits is the top bit, so that a number of two or more is not
the tenth. -/
theorem count_ne_of_two_le {n count : Nat} (h : n * 128 ^ count < 2 ^ 64) (hn : 2 ≤ n) :
    count + 1 ≠ maxBytes := by
  intro tenth
  have nine : count = 9 := by unfold maxBytes at tenth; omega
  subst nine
  omega

namespace Accumulator

theorem feed_last (value : Nat) {count n : Nat} (hn : n < 128) (h : n * 128 ^ count < 2 ^ 64) :
    feed ⟨value, count⟩ (UInt8.ofNat n) = .done (value + n * 128 ^ count) := by
  have byte : (UInt8.ofNat n).toNat = n := by rw [UInt8.toNat_ofNat']; omega
  have fits : ¬ (count + 1 = maxBytes ∧ 1 < n) := fun ⟨tenth, big⟩ => count_ne_of_two_le h big tenth
  simp only [feed, byte, fits, hn, ite_false, ite_true, Nat.mod_eq_of_lt hn]

theorem feed_digit (value : Nat) {count n : Nat} (hn : 128 ≤ n) (h : n * 128 ^ count < 2 ^ 64) :
    feed ⟨value, count⟩ (UInt8.ofNat (n % 128 + 128)) =
      .more ⟨value + n % 128 * 128 ^ count, count + 1⟩ := by
  have byte : (UInt8.ofNat (n % 128 + 128)).toNat = n % 128 + 128 := by
    rw [UInt8.toNat_ofNat']; omega
  have fits : ¬ (count + 1 = maxBytes ∧ 1 < n % 128 + 128) :=
    fun ⟨tenth, _⟩ => count_ne_of_two_le h (by omega) tenth
  have high : ¬ n % 128 + 128 < 128 := by omega
  have low : (n % 128 + 128) % 128 = n % 128 := by omega
  simp only [feed, byte, fits, high, low, ite_false]

end Accumulator

theorem length_encode_le {n width : Nat} (h : n < 128 ^ width) (pos : 0 < width) :
    (encode n).length ≤ width := by
  induction width generalizing n with
  | zero => exact absurd pos (Nat.lt_irrefl 0)
  | succ width ih =>
    rw [encode]
    by_cases last : n < 128
    · rw [if_pos last]
      exact Nat.succ_le_succ (Nat.zero_le width)
    · rw [if_neg last, List.length_cons]
      rw [pow_succ] at h
      have more : 0 < width := by
        rcases Nat.eq_zero_or_pos width with rfl | more
        · omega
        · exact more
      exact Nat.succ_le_succ (ih (Nat.div_lt_of_lt_mul (by omega)) more)

theorem length_encode_toNat (v : UInt64) : (encode v.toNat).length ≤ maxBytes := by
  have small := v.toNat_lt
  have power : 2 ^ 64 ≤ 128 ^ maxBytes := by decide
  exact length_encode_le (by omega) (by decide)

theorem div_mul_pow (n count : Nat) :
    n % 128 * 128 ^ count + n / 128 * 128 ^ (count + 1) = n * 128 ^ count := by
  have h := Nat.mod_add_div n 128
  calc
    n % 128 * 128 ^ count + n / 128 * 128 ^ (count + 1) =
      (n % 128 + 128 * (n / 128)) * 128 ^ count := by ring
    _ = n * 128 ^ count := by rw [h]

end Leb128

theorem Zigzag.toSigned_toUnsigned (v : Int64) : toSigned (toUnsigned v) = v := by
  have low := v.le_toInt
  have high := v.toInt_lt
  apply Int64.toInt_inj.mp
  unfold toUnsigned
  by_cases sign : 0 ≤ v.toInt
  · have number : (UInt64.ofNat (2 * v.toInt.natAbs)).toNat = 2 * v.toInt.natAbs := by
      rw [UInt64.toNat_ofNat']; omega
    have even : 2 * v.toInt.natAbs % 2 = 0 := by omega
    have half : 2 * v.toInt.natAbs / 2 = v.toInt.natAbs := by omega
    rw [if_pos sign, toSigned, number, if_pos even, half, Int64.toInt_ofNat_of_lt (by omega)]
    omega
  · have number : (UInt64.ofNat (2 * v.toInt.natAbs - 1)).toNat = 2 * v.toInt.natAbs - 1 := by
      rw [UInt64.toNat_ofNat']; omega
    have odd : ¬ (2 * v.toInt.natAbs - 1) % 2 = 0 := by omega
    rw [if_neg sign, toSigned, number, if_neg odd, Int64.toInt_ofInt_of_le (by omega) (by omega)]
    omega

end WireCodec
