import Mathlib.Tactic.Ring
import WireCodec.Order

/-!
# Digits and the numbers they stand for

The two byte orders are read by functions of their own. Reading what was written gives the number
modulo the power of 256 that the width allows, in either order.
-/

set_option autoImplicit false

namespace WireCodec

theorem toNat_ofNat_mod (n : Nat) : (UInt8.ofNat (n % 256)).toNat = n % 256 := by
  rw [UInt8.toNat_ofNat']
  exact Nat.mod_mod n 256

theorem littleValue_littleDigits (width n : Nat) :
    littleValue (littleDigits width n) = n % 256 ^ width := by
  induction width generalizing n with
  | zero => rw [pow_zero, Nat.mod_one]; rfl
  | succ width ih => rw [littleDigits, littleValue, ih, toNat_ofNat_mod, pow_succ', Nat.mod_mul]

theorem littleValue_lt (b : Bytes) : littleValue b < 256 ^ b.length := by
  induction b with
  | nil => decide
  | cons x b ih =>
    have digit := x.toNat_lt
    rw [littleValue, List.length_cons, pow_succ']
    omega

theorem littleDigits_littleValue (b : Bytes) : littleDigits b.length (littleValue b) = b := by
  induction b with
  | nil => rfl
  | cons x b ih =>
    have digit := x.toNat_lt
    have first : (x.toNat + 256 * littleValue b) % 256 = x.toNat := by omega
    have others : (x.toNat + 256 * littleValue b) / 256 = littleValue b := by omega
    rw [littleValue, List.length_cons, littleDigits, first, others, ih, UInt8.ofNat_toNat]

theorem foldl_bigDigit (acc : Nat) (bs : Bytes) :
    bs.foldl (fun n b => 256 * n + b.toNat) acc = acc * 256 ^ bs.length + bigValue bs := by
  induction bs generalizing acc with
  | nil => rw [List.foldl_nil, List.length_nil, pow_zero, Nat.mul_one]; rfl
  | cons b bs ih =>
    rw [bigValue, List.foldl_cons, List.foldl_cons, ih, ih, List.length_cons, pow_succ]
    ring

theorem bigValue_cons (b : UInt8) (bs : Bytes) :
    bigValue (b :: bs) = b.toNat * 256 ^ bs.length + bigValue bs := by
  rw [bigValue, List.foldl_cons, foldl_bigDigit, Nat.mul_zero, Nat.zero_add]

theorem bigValue_lt (b : Bytes) : bigValue b < 256 ^ b.length := by
  induction b with
  | nil => decide
  | cons x b ih =>
    have digit := x.toNat_lt
    calc
      bigValue (x :: b) = x.toNat * 256 ^ b.length + bigValue b := bigValue_cons x b
      _ < x.toNat * 256 ^ b.length + 256 ^ b.length := Nat.add_lt_add_left ih _
      _ = (x.toNat + 1) * 256 ^ b.length := (Nat.succ_mul _ _).symm
      _ ≤ 256 * 256 ^ b.length := Nat.mul_le_mul_right _ digit
      _ = 256 ^ (x :: b).length := (pow_succ' 256 b.length).symm

theorem bigValue_bigDigits (width n : Nat) : bigValue (bigDigits width n) = n % 256 ^ width := by
  induction width with
  | zero => rw [pow_zero, Nat.mod_one]; rfl
  | succ width ih =>
    rw [bigDigits, bigValue_cons, length_bigDigits, ih, toNat_ofNat_mod, pow_succ, Nat.mod_mul]
    ring

theorem Order.value_digits (o : Order) (width n : Nat) :
    o.value (o.digits width n) = n % 256 ^ width := by
  unfold Order.value Order.digits
  cases o.endianness with
  | little => exact littleValue_littleDigits width n
  | big => exact bigValue_bigDigits width n

theorem Order.value_lt (o : Order) (b : Bytes) : o.value b < 256 ^ b.length := by
  unfold Order.value
  cases o.endianness with
  | little => exact littleValue_lt b
  | big => exact bigValue_lt b

theorem Order.toNat_value (o : Order) {b : Bytes} (short : b.length ≤ 8) :
    (UInt64.ofNat (o.value b)).toNat = o.value b := by
  have bound : o.value b < 2 ^ 64 :=
    (o.value_lt b).trans_le (Nat.pow_le_pow_right (by decide) short)
  exact UInt64.toNat_ofNat_of_lt' bound

theorem Order.value_one (o : Order) (b : UInt8) : o.value [b] = b.toNat := by
  unfold Order.value
  cases o.endianness with
  | little => rfl
  | big => exact (bigValue_cons b []).trans (Nat.mul_one _)

theorem littleDigits_add (low high n : Nat) :
    littleDigits (low + high) n = littleDigits low n ++ littleDigits high (n / 256 ^ low) := by
  induction low generalizing n with
  | zero => simp [littleDigits]
  | succ low ih =>
    have h : low + 1 + high = low + high + 1 := by omega
    rw [h, littleDigits, ih, littleDigits, List.cons_append, Nat.div_div_eq_div_mul, pow_succ']

theorem littleDigits_mod (width n : Nat) :
    littleDigits width (n % 256 ^ width) = littleDigits width n := by
  induction width generalizing n with
  | zero => rfl
  | succ width ih =>
    have first : n % 256 ^ (width + 1) % 256 = n % 256 :=
      Nat.mod_mod_of_dvd n (dvd_pow_self 256 (Nat.succ_ne_zero width))
    have others : n % 256 ^ (width + 1) / 256 = n / 256 % 256 ^ width := by
      rw [pow_succ', Nat.mod_mul_right_div_self]
    rw [littleDigits, littleDigits, first, others, ih]

theorem bigDigits_congr {width n m : Nat} (h : n % 256 ^ width = m % 256 ^ width) :
    bigDigits width n = bigDigits width m := by
  induction width with
  | zero => rfl
  | succ width ih =>
    have first : n / 256 ^ width % 256 = m / 256 ^ width % 256 := by
      rw [← Nat.mod_mul_right_div_self, ← Nat.mod_mul_right_div_self, ← pow_succ, h]
    have others : n % 256 ^ width = m % 256 ^ width := by
      have dvd : 256 ^ width ∣ 256 ^ (width + 1) := pow_dvd_pow 256 (Nat.le_succ width)
      rw [← Nat.mod_mod_of_dvd n dvd, h, Nat.mod_mod_of_dvd m dvd]
    rw [bigDigits, bigDigits, first, ih others]

theorem Order.digits_congr (o : Order) {width n m : Nat} (h : n % 256 ^ width = m % 256 ^ width) :
    o.digits width n = o.digits width m := by
  unfold Order.digits
  cases o.endianness with
  | little =>
    exact (littleDigits_mod width n).symm.trans ((congrArg _ h).trans (littleDigits_mod width m))
  | big => exact bigDigits_congr h

theorem bigDigits_bigValue (b : Bytes) : bigDigits b.length (bigValue b) = b := by
  induction b with
  | nil => rfl
  | cons x b ih =>
    have digit := x.toNat_lt
    have below := bigValue_lt b
    have first : (x.toNat * 256 ^ b.length + bigValue b) / 256 ^ b.length = x.toNat := by
      rw [Nat.mul_comm, Nat.mul_add_div (Nat.pow_pos (by decide)), Nat.div_eq_of_lt below,
        Nat.add_zero]
    have others : bigDigits b.length (x.toNat * 256 ^ b.length + bigValue b) =
        bigDigits b.length (bigValue b) :=
      bigDigits_congr (Nat.mul_add_mod_self_right _ _ _)
    rw [bigValue_cons, List.length_cons, bigDigits, first, others, ih, Nat.mod_eq_of_lt digit,
      UInt8.ofNat_toNat]

theorem Order.digits_value (o : Order) (b : Bytes) : o.digits b.length (o.value b) = b := by
  unfold Order.digits Order.value
  cases o.endianness with
  | little => exact littleDigits_littleValue b
  | big => exact bigDigits_bigValue b

theorem Order.digits_one (o : Order) (n : Nat) : o.digits 1 n = [UInt8.ofNat (n % 256)] := by
  unfold Order.digits
  cases o.endianness with
  | little => rfl
  | big => simp only [Endianness.digits, bigDigits, pow_zero, Nat.div_one]

end WireCodec
