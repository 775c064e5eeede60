import Mathlib.Algebra.BigOperators.Intervals
import Mathlib.Algebra.BigOperators.Ring.Finset
import WireCodec.Proofs.Accesses

/-!
# Positional notation

A byte order gives each byte of a number its place, and the number is the sum of its digits, each
times the power of 256 of its place. The two orders are mirror images. The accesses of an order
store the digits of a number at their places and nothing else, and give the number that the digits
at the places denote, at every width and by whatever access is asked.
-/

set_option autoImplicit false

namespace WireCodec

/-- The base-256 digit of `n` at a place, counted from the least significant one. -/
def digitAt (n place : Nat) : UInt8 := UInt8.ofNat (n / 256 ^ place % 256)

def Endianness.place (e : Endianness) (width i : Nat) : Nat :=
  match e with
  | .little => i
  | .big => width - 1 - i

def Order.place (o : Order) : Nat → Nat → Nat := o.endianness.place

namespace Accesses

inductive Gets (a : Accesses) : Nat → (Bytes → Except Misuse UInt64) → Prop where
  | u16 : Gets a 2 fun b => (a.getU16 b).map UInt16.toUInt64
  | u24 : Gets a 3 fun b => (a.getU24 b).map UInt32.toUInt64
  | u32 : Gets a 4 fun b => (a.getU32 b).map UInt32.toUInt64
  | u40 : Gets a 5 a.getU40
  | u48 : Gets a 6 a.getU48
  | u56 : Gets a 7 a.getU56
  | u64 : Gets a 8 a.getU64

/-- The accesses of one width that store, each with the number that it is given. -/
inductive Puts (a : Accesses) : Nat → UInt64 → (Bytes → Except Misuse Bytes) → Prop where
  | u16 (v : UInt16) : Puts a 2 v.toUInt64 fun b => a.putU16 b v
  | u24 (v : UInt32) : Puts a 3 v.toUInt64 fun b => a.putU24 b v
  | u32 (v : UInt32) : Puts a 4 v.toUInt64 fun b => a.putU32 b v
  | u40 (v : UInt64) : Puts a 5 v fun b => a.putU40 b v
  | u48 (v : UInt64) : Puts a 6 v fun b => a.putU48 b v
  | u56 (v : UInt64) : Puts a 7 v fun b => a.putU56 b v
  | u64 (v : UInt64) : Puts a 8 v fun b => a.putU64 b v

end Accesses

/-! ## Places -/

theorem littleDigits_getElem? {width i : Nat} (inside : i < width) (n : Nat) :
    (littleDigits width n)[i]? = some (digitAt n i) := by
  induction width generalizing n i with
  | zero => omega
  | succ width ih =>
    cases i with
    | zero => simp [littleDigits, digitAt]
    | succ i =>
      rw [littleDigits, List.getElem?_cons_succ, ih (Nat.lt_of_succ_lt_succ inside),
        digitAt, digitAt, Nat.div_div_eq_div_mul, pow_succ']

theorem bigDigits_eq_reverse (width n : Nat) :
    bigDigits width n = (littleDigits width n).reverse := by
  induction width with
  | zero => rfl
  | succ width ih =>
    -- The recursions run from opposite ends, so the last digit has to be split off the
    -- little-endian list.
    rw [littleDigits_add, List.reverse_append, ← ih]
    rfl

theorem Order.digits_getElem? (o : Order) {width i : Nat} (inside : i < width) (n : Nat) :
    (o.digits width n)[i]? = some (digitAt n (o.place width i)) := by
  unfold Order.digits Order.place
  cases o.endianness with
  | little => exact littleDigits_getElem? inside n
  | big =>
    change (bigDigits width n)[i]? = _
    have size := length_littleDigits width n
    rw [bigDigits_eq_reverse, List.getElem?_reverse (size.symm ▸ inside), size]
    exact littleDigits_getElem? (by omega) n

theorem bigValue_reverse (b : Bytes) : bigValue b.reverse = littleValue b := by
  have mirrored : b.reverse = bigDigits b.length (littleValue b) := by
    rw [bigDigits_eq_reverse, littleDigits_littleValue]
  rw [mirrored, bigValue_bigDigits, Nat.mod_eq_of_lt (littleValue_lt b)]

theorem littleValue_eq_sum (b : Bytes) :
    littleValue b = ∑ i ∈ Finset.range b.length, (b.getD i 0).toNat * 256 ^ i := by
  induction b with
  | nil => rfl
  | cons x b ih =>
    rw [List.length_cons, Finset.sum_range_succ', littleValue, ih, Finset.mul_sum, Nat.add_comm]
    have shifted (i : Nat) : 256 * ((b.getD i 0).toNat * 256 ^ i) =
        ((x :: b).getD (i + 1) 0).toNat * 256 ^ (i + 1) := by
      rw [List.getD_cons_succ, pow_succ]
      ring
    simp only [shifted, List.getD_cons_zero, pow_zero, Nat.mul_one]

theorem Order.value_eq_sum (o : Order) (b : Bytes) :
    o.value b = ∑ i ∈ Finset.range b.length, (b.getD i 0).toNat * 256 ^ o.place b.length i := by
  unfold Order.value Order.place
  cases o.endianness with
  | little => exact littleValue_eq_sum b
  | big =>
    have mirrored := littleValue_eq_sum b.reverse
    rw [← bigValue_reverse, List.reverse_reverse, List.length_reverse,
      ← Finset.sum_range_reflect] at mirrored
    refine mirrored.trans (Finset.sum_congr rfl fun i inside => ?_)
    have below := Finset.mem_range.mp inside
    have back : b.length - 1 - (b.length - 1 - i) = i := by omega
    simp only [List.getD_eq_getElem?_getD, Endianness.place]
    rw [List.getElem?_reverse (by omega), back]

/-! ## Slices -/

namespace Order

variable (o : Order) (w : Width) {b : Bytes}

theorem getUInt_of_fits (fits : w.bytes ≤ b.length) :
    o.getUInt b w.bytes = .ok (UInt64.ofNat (o.value (b.take w.bytes))) := by
  rw [Accesses.getUInt_bytes, Bytes.leading, if_pos fits]
  rfl

theorem putUInt_of_fits (fits : w.bytes ≤ b.length) (v : UInt64) :
    o.putUInt b w.bytes v = .ok (o.digits w.bytes v.toNat ++ b.drop w.bytes) := by
  have size := o.length_digits w.bytes v.toNat
  rw [Accesses.putUInt_bytes, Bytes.stamp, if_pos (size.trans_le fits), Bytes.overlay_zero, size]

theorem getUInt_of_short (short : b.length < w.bytes) :
    o.getUInt b w.bytes = .error .shortSlice := by
  rw [Accesses.getUInt_bytes, Bytes.leading, if_neg (Nat.not_le.mpr short)]
  rfl

theorem putUInt_of_short (short : b.length < w.bytes) (v : UInt64) :
    o.putUInt b w.bytes v = .error .shortSlice := by
  have size := o.length_digits w.bytes v.toNat
  rw [Accesses.putUInt_bytes, Bytes.stamp, if_neg (size.symm ▸ Nat.not_le.mpr short)]

theorem putUInt_places (fits : w.bytes ≤ b.length) (v : UInt64) :
    ∃ stored, o.putUInt b w.bytes v = .ok stored ∧ stored.length = b.length ∧
      (∀ i < w.bytes, stored[i]? = some (digitAt (v.toNat % 256 ^ w.bytes) (o.place w.bytes i))) ∧
      (∀ i, w.bytes ≤ i → stored[i]? = b[i]?) ∧
      (o.getUInt stored w.bytes).map UInt64.toNat = .ok (v.toNat % 256 ^ w.bytes) := by
  have size := o.length_digits w.bytes v.toNat
  have whole : (o.digits w.bytes v.toNat ++ b.drop w.bytes).length = b.length := by
    rw [List.length_append, List.length_drop, size]
    omega
  refine ⟨_, o.putUInt_of_fits w fits v, whole, fun i inside => ?_, fun i outside => ?_, ?_⟩
  · rw [List.getElem?_append_left (size.symm ▸ inside),
      ← o.digits_congr (Nat.mod_mod v.toNat (256 ^ w.bytes))]
    exact o.digits_getElem? inside _
  · rw [List.getElem?_append_right (size.symm ▸ outside), size, List.getElem?_drop,
      Nat.add_sub_cancel' outside]
  · have front : (o.digits w.bytes v.toNat ++ b.drop w.bytes).take w.bytes =
        o.digits w.bytes v.toNat :=
      List.take_left' size
    rw [o.getUInt_of_fits w (whole.symm ▸ fits), front]
    refine congrArg Except.ok ?_
    rw [o.toNat_value (size.trans_le w.bytes_le), o.value_digits]

theorem getUInt_places (fits : w.bytes ≤ b.length) :
    ∃ n, o.getUInt b w.bytes = .ok n ∧
      n.toNat = ∑ i ∈ Finset.range w.bytes, (b.getD i 0).toNat * 256 ^ o.place w.bytes i ∧
      o.putUInt b w.bytes n = .ok b := by
  have size : (b.take w.bytes).length = w.bytes := List.length_take_of_le fits
  have number := o.toNat_value (size.trans_le w.bytes_le)
  refine ⟨_, o.getUInt_of_fits w fits, ?_, ?_⟩
  · rw [number, o.value_eq_sum, size]
    refine Finset.sum_congr rfl fun i inside => ?_
    rw [List.getD_eq_getElem?_getD, List.getElem?_take_of_lt (Finset.mem_range.mp inside),
      List.getD_eq_getElem?_getD]
  · have again := o.digits_value (b.take w.bytes)
    rw [size] at again
    rw [o.putUInt_of_fits w fits, number, again, List.take_append_drop]

theorem putUInt_mirrored (fits : w.bytes ≤ b.length) (v : UInt64) :
    ∃ low high, (fixed .little).putUInt b w.bytes v = .ok low ∧
      (fixed .big).putUInt b w.bytes v = .ok high ∧
      high.take w.bytes = (low.take w.bytes).reverse := by
  refine ⟨_, _, putUInt_of_fits _ w fits v, putUInt_of_fits _ w fits v, ?_⟩
  rw [List.take_left' (length_digits _ _ _), List.take_left' (length_digits _ _ _)]
  exact bigDigits_eq_reverse w.bytes v.toNat

end Order

/-! ## One width, asked for in two ways -/

namespace Accesses

theorem Gets.eq_getUInt {a : Accesses} {width : Nat} {read : Bytes → Except Misuse UInt64}
    (gets : a.Gets width read) (b : Bytes) : read b = a.getUInt b width := by
  cases gets <;> rfl

theorem Puts.eq_putUInt {a : Accesses} {width : Nat} {v : UInt64}
    {store : Bytes → Except Misuse Bytes}
    (puts : a.Puts width v store) (b : Bytes) : store b = a.putUInt b width v := by
  cases puts with
  | u16 v => rw [putUInt, UInt16.toUInt16_toUInt64]
  | u24 v => rw [putUInt, UInt32.toUInt32_toUInt64]
  | u32 v => rw [putUInt, UInt32.toUInt32_toUInt64]
  | u40 | u48 | u56 | u64 => rfl

end Accesses

namespace Order

theorem getUInt_of_width (o : Order) {width : Nat} (misfit : ¬ (1 ≤ width ∧ width ≤ 8))
    (b : Bytes) :
    o.getUInt b width = .error (.width width) := by
  rw [getUInt, Width.ofBytes_of_misfit misfit]
  rfl

theorem putUInt_of_width (o : Order) {width : Nat} (misfit : ¬ (1 ≤ width ∧ width ≤ 8)) (b : Bytes)
    (v : UInt64) :
    o.putUInt b width v = .error (.width width) := by
  rw [putUInt, Width.ofBytes_of_misfit misfit]
  rfl

/-- The accesses of an order are positional notation at every width that there is, and answer
nothing else. -/
theorem accesses_positional (o : Order) :
    o.accesses = .of o ∧ (picked o.endianness).accesses = (fixed o.endianness).accesses ∧
    (∀ (width : Nat) (b : Bytes), o.accesses.getUInt b width = o.getUInt b width ∧
      ∀ v, o.accesses.putUInt b width v = o.putUInt b width v) ∧
    (∀ (width : Nat) (b : Bytes), 1 ≤ width → width ≤ 8 → width ≤ b.length →
      (∀ v, ∃ stored, o.putUInt b width v = .ok stored ∧ stored.length = b.length ∧
        (∀ i < width, stored[i]? = some (digitAt (v.toNat % 256 ^ width) (o.place width i))) ∧
        (∀ i, width ≤ i → stored[i]? = b[i]?) ∧
        (o.getUInt stored width).map UInt64.toNat = .ok (v.toNat % 256 ^ width)) ∧
      (∃ n, o.getUInt b width = .ok n ∧
        n.toNat = ∑ i ∈ Finset.range width, (b.getD i 0).toNat * 256 ^ o.place width i ∧
        o.putUInt b width n = .ok b) ∧
      (∀ v, ∃ low high, (fixed .little).putUInt b width v = .ok low ∧
        (fixed .big).putUInt b width v = .ok high ∧
        high.take width = (low.take width).reverse)) ∧
    (∀ width read, o.accesses.Gets width read → ∀ b, read b = o.getUInt b width) ∧
    (∀ width v store, o.accesses.Puts width v store → ∀ b, store b = o.putUInt b width v) ∧
    (∀ (width : Nat) (b : Bytes), 1 ≤ width → width ≤ 8 → b.length < width →
      o.getUInt b width = .error .shortSlice ∧ ∀ v, o.putUInt b width v = .error .shortSlice) ∧
    (∀ (width : Nat) (b : Bytes), width = 0 ∨ 8 < width →
      o.getUInt b width = .error (.width width) ∧ ∀ v,
        o.putUInt b width v = .error (.width width)) := by
  have gets (width : Nat) (b : Bytes) : o.accesses.getUInt b width = o.getUInt b width :=
    o.accesses_eq ▸ Accesses.getUInt_of o b width
  have puts (width : Nat) (b : Bytes) (v : UInt64) :
      o.accesses.putUInt b width v = o.putUInt b width v :=
    o.accesses_eq ▸ Accesses.putUInt_of o b width v
  refine ⟨o.accesses_eq, Accesses.dispatched_eq o.endianness,
    fun width b => ⟨gets width b, puts width b⟩, ?_, ?_, ?_, ?_, ?_⟩
  · intro width b pos le fits
    obtain ⟨w, rfl⟩ := Width.exists_bytes ⟨pos, le⟩
    exact ⟨o.putUInt_places w fits, o.getUInt_places w fits, putUInt_mirrored w fits⟩
  · exact fun width read dedicated b => (dedicated.eq_getUInt b).trans (gets width b)
  · exact fun width v store dedicated b => (dedicated.eq_putUInt b).trans (puts width b v)
  · intro width b pos le short
    obtain ⟨w, rfl⟩ := Width.exists_bytes ⟨pos, le⟩
    exact ⟨o.getUInt_of_short w short, o.putUInt_of_short w short⟩
  · intro width b beyond
    have misfit : ¬ (1 ≤ width ∧ width ≤ 8) := by omega
    exact ⟨o.getUInt_of_width misfit b, o.putUInt_of_width misfit b⟩

theorem accesses_positional_three :
    (picked .big).putUInt [9, 9, 9, 7] 3 0x01020304 = .ok [2, 3, 4, 7] ∧
      ((picked .big).getUInt [2, 3, 4, 7] 3).map UInt64.toNat = .ok 0x020304 ∧
      (picked .big).putUInt [9, 9, 9, 7] 3 9 = (picked .big).accesses.putU24 [9, 9, 9, 7] 9 ∧
      (picked .big).getUInt [9, 9] 3 = .error .shortSlice ∧
      (picked .big).getUInt [9, 9] 9 = .error (.width 9) := by
  obtain ⟨-, -, -, places, -, puts, short, beyond⟩ := accesses_positional (picked .big)
  obtain ⟨stored, put, -, -, -, got⟩ :=
    (places 3 [9, 9, 9, 7] (by decide) (by decide) (by decide)).1 0x01020304
  obtain rfl : [2, 3, 4, 7] = stored := Except.ok.inj put
  have dedicated := puts 3 9 _ (.u24 9) [9, 9, 9, 7]
  exact ⟨put, got, dedicated.symm, (short 3 [9, 9] (by decide) (by decide) (by decide)).1,
    (beyond 9 [9, 9] (.inr (by decide))).1⟩

end Order

end WireCodec
