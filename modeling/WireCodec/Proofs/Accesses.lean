import WireCodec.Proofs.Words
import WireCodec.Slice

/-!
# Accesses of a byte order

A machine gets at an integer in a slice by way of a word that holds it. It widens the bytes with
zeros on the side of the high digits, and stores those bytes of the word that count. A byte order
that is picked while the program runs looks at what was picked in every single access, and passes it
on to the order that is meant. All the accesses are those of the digits: no widening adds to a
number, no narrowing takes a digit that counts, and no access is passed on to another.
-/

set_option autoImplicit false

namespace WireCodec

/-- What a byte order gives to its users: integers out of the front of a slice, and into it. -/
@[ext]
structure Accesses where
  getU16 : Bytes → Except Misuse UInt16
  getU24 : Bytes → Except Misuse UInt32
  getU32 : Bytes → Except Misuse UInt32
  getU40 : Bytes → Except Misuse UInt64
  getU48 : Bytes → Except Misuse UInt64
  getU56 : Bytes → Except Misuse UInt64
  getU64 : Bytes → Except Misuse UInt64
  putU16 : Bytes → UInt16 → Except Misuse Bytes
  putU24 : Bytes → UInt32 → Except Misuse Bytes
  putU32 : Bytes → UInt32 → Except Misuse Bytes
  putU40 : Bytes → UInt64 → Except Misuse Bytes
  putU48 : Bytes → UInt64 → Except Misuse Bytes
  putU56 : Bytes → UInt64 → Except Misuse Bytes
  putU64 : Bytes → UInt64 → Except Misuse Bytes
  name : String

namespace Accesses

/-- The first bytes of a slice at the low end of a little-endian word. -/
def widenLittle (size width : Nat) (b : Bytes) : Except Misuse Bytes :=
  (b.leading width).map fun d => Bytes.overlay (List.replicate size 0) 0 d

def widenBig (size width : Nat) (b : Bytes) : Except Misuse Bytes :=
  (b.leading width).map fun d => Bytes.overlay (List.replicate size 0) (size - width) d

def little : Accesses where
  getU16 b := (widenLittle 2 2 b).map fun w => UInt16.ofNat (littleValue w)
  getU24 b := (widenLittle 4 3 b).map fun w => UInt32.ofNat (littleValue w)
  getU32 b := (widenLittle 4 4 b).map fun w => UInt32.ofNat (littleValue w)
  getU40 b := (widenLittle 8 5 b).map fun w => UInt64.ofNat (littleValue w)
  getU48 b := (widenLittle 8 6 b).map fun w => UInt64.ofNat (littleValue w)
  getU56 b := (widenLittle 8 7 b).map fun w => UInt64.ofNat (littleValue w)
  getU64 b := (widenLittle 8 8 b).map fun w => UInt64.ofNat (littleValue w)
  putU16 b v := b.stamp (littleDigits 2 v.toNat)
  putU24 b v := b.stamp ((littleDigits 4 v.toNat).take 3)
  putU32 b v := b.stamp (littleDigits 4 v.toNat)
  putU40 b v := b.stamp ((littleDigits 8 v.toNat).take 5)
  putU48 b v := b.stamp ((littleDigits 8 v.toNat).take 6)
  putU56 b v := b.stamp ((littleDigits 8 v.toNat).take 7)
  putU64 b v := b.stamp (littleDigits 8 v.toNat)
  name := "LittleEndian"

def big : Accesses where
  getU16 b := (widenBig 2 2 b).map fun w => UInt16.ofNat (bigValue w)
  getU24 b := (widenBig 4 3 b).map fun w => UInt32.ofNat (bigValue w)
  getU32 b := (widenBig 4 4 b).map fun w => UInt32.ofNat (bigValue w)
  getU40 b := (widenBig 8 5 b).map fun w => UInt64.ofNat (bigValue w)
  getU48 b := (widenBig 8 6 b).map fun w => UInt64.ofNat (bigValue w)
  getU56 b := (widenBig 8 7 b).map fun w => UInt64.ofNat (bigValue w)
  getU64 b := (widenBig 8 8 b).map fun w => UInt64.ofNat (bigValue w)
  putU16 b v := b.stamp (bigDigits 2 v.toNat)
  putU24 b v := b.stamp ((bigDigits 4 v.toNat).drop 1)
  putU32 b v := b.stamp (bigDigits 4 v.toNat)
  putU40 b v := b.stamp ((bigDigits 8 v.toNat).drop 3)
  putU48 b v := b.stamp ((bigDigits 8 v.toNat).drop 2)
  putU56 b v := b.stamp ((bigDigits 8 v.toNat).drop 1)
  putU64 b v := b.stamp (bigDigits 8 v.toNat)
  name := "BigEndian"

def direct : Endianness → Accesses
  | .little => little
  | .big => big

def dispatch {α : Type} (e : Endianness) (access : Accesses → α) : α :=
  match e with
  | .little => access little
  | .big => access big

def dispatched (e : Endianness) : Accesses where
  getU16 b := dispatch e fun a => a.getU16 b
  getU24 b := dispatch e fun a => a.getU24 b
  getU32 b := dispatch e fun a => a.getU32 b
  getU40 b := dispatch e fun a => a.getU40 b
  getU48 b := dispatch e fun a => a.getU48 b
  getU56 b := dispatch e fun a => a.getU56 b
  getU64 b := dispatch e fun a => a.getU64 b
  putU16 b v := dispatch e fun a => a.putU16 b v
  putU24 b v := dispatch e fun a => a.putU24 b v
  putU32 b v := dispatch e fun a => a.putU32 b v
  putU40 b v := dispatch e fun a => a.putU40 b v
  putU48 b v := dispatch e fun a => a.putU48 b v
  putU56 b v := dispatch e fun a => a.putU56 b v
  putU64 b v := dispatch e fun a => a.putU64 b v
  name := dispatch e fun a => a.name

def getUInt (a : Accesses) (b : Bytes) : Nat → Except Misuse UInt64
  | 1 => (b.leading 1).map fun d => (d.headD 0).toUInt64
  | 2 => (a.getU16 b).map UInt16.toUInt64
  | 3 => (a.getU24 b).map UInt32.toUInt64
  | 4 => (a.getU32 b).map UInt32.toUInt64
  | 5 => a.getU40 b
  | 6 => a.getU48 b
  | 7 => a.getU56 b
  | 8 => a.getU64 b
  | width => .error (.width width)

def putUInt (a : Accesses) (b : Bytes) (width : Nat) (v : UInt64) : Except Misuse Bytes :=
  match width with
  | 1 => b.stamp [v.toUInt8]
  | 2 => a.putU16 b v.toUInt16
  | 3 => a.putU24 b v.toUInt32
  | 4 => a.putU32 b v.toUInt32
  | 5 => a.putU40 b v
  | 6 => a.putU48 b v
  | 7 => a.putU56 b v
  | 8 => a.putU64 b v
  | width => .error (.width width)

def of (o : Order) : Accesses where
  getU16 := o.getU16
  getU24 := o.getU24
  getU32 := o.getU32
  getU40 := o.getU40
  getU48 := o.getU48
  getU56 := o.getU56
  getU64 := o.getU64
  putU16 := o.putU16
  putU24 := o.putU24
  putU32 := o.putU32
  putU40 := o.putU40
  putU48 := o.putU48
  putU56 := o.putU56
  putU64 := o.putU64
  name := o.name

end Accesses

/-- The accesses of a machine for an order: straight to those of a fixed one, by way of `dispatch`
to a picked one. -/
def Order.accesses (o : Order) : Accesses :=
  if o.dynamic then .dispatched o.endianness else .direct o.endianness

/-! ## Widening and narrowing -/

theorem littleValue_append_zeros (d : Bytes) (n : Nat) :
    littleValue (d ++ List.replicate n 0) = littleValue d := by
  induction d with
  | nil =>
    induction n with
    | zero => rfl
    | succ n ih =>
      change 0 + 256 * littleValue ([] ++ List.replicate n 0) = 0
      rw [ih]
      rfl
  | cons x d ih => rw [List.cons_append, littleValue, littleValue, ih]

theorem bigValue_zeros_append (d : Bytes) (n : Nat) :
    bigValue (List.replicate n 0 ++ d) = bigValue d := by
  induction n with
  | zero => rfl
  | succ n ih =>
    rw [List.replicate_succ, List.cons_append, bigValue_cons, ih]
    change 0 * _ + _ = _
    rw [Nat.zero_mul, Nat.zero_add]

theorem take_littleDigits {size width : Nat} (fits : width ≤ size) (n : Nat) :
    (littleDigits size n).take width = littleDigits width n := by
  obtain ⟨more, rfl⟩ := Nat.exists_eq_add_of_le fits
  have front := length_littleDigits width n
  rw [littleDigits_add]
  nth_rewrite 1 [← front]
  exact List.take_left

theorem drop_bigDigits (more width n : Nat) :
    (bigDigits (more + width) n).drop more = bigDigits width n := by
  induction more with
  | zero => rw [Nat.zero_add, List.drop_zero]
  | succ more ih =>
    have size : more + 1 + width = more + width + 1 := by omega
    rw [size, bigDigits, List.drop_succ_cons, ih]

namespace Bytes

theorem leading_eq_ok {b d : Bytes} {n : Nat} (led : b.leading n = .ok d) : d.length = n := by
  unfold leading at led
  split at led
  · next fits =>
    cases led
    exact List.length_take_of_le fits
  · cases led

theorem map_leading_congr {α : Type} {b : Bytes} {n : Nat} {g h : Bytes → α}
    (same : ∀ d : Bytes, d.length = n → g d = h d) :
    (b.leading n).map g = (b.leading n).map h := by
  cases led : b.leading n with
  | error m => rfl
  | ok d => exact congrArg Except.ok (same d (leading_eq_ok led))

end Bytes

namespace Accesses

theorem map_widenLittle {α : Type} (size width : Nat) (b : Bytes) (g : Nat → α) :
    (widenLittle size width b).map (fun w => g (littleValue w)) =
      (b.leading width).map fun d => g (littleValue d) := by
  have mapped : (widenLittle size width b).map (fun w => g (littleValue w)) =
      (b.leading width).map fun d =>
        g (littleValue (Bytes.overlay (List.replicate size 0) 0 d)) := by
    unfold widenLittle
    cases b.leading width <;> rfl
  rw [mapped]
  refine Bytes.map_leading_congr fun d _ => ?_
  rw [Bytes.overlay_zero, List.drop_replicate, littleValue_append_zeros]

theorem map_widenBig {α : Type} {size width : Nat} (fits : width ≤ size) (b : Bytes) (g : Nat → α) :
    (widenBig size width b).map (fun w => g (bigValue w)) =
      (b.leading width).map fun d => g (bigValue d) := by
  have mapped : (widenBig size width b).map (fun w => g (bigValue w)) =
      (b.leading width).map fun d =>
        g (bigValue (Bytes.overlay (List.replicate size 0) (size - width) d)) := by
    unfold widenBig
    cases b.leading width <;> rfl
  rw [mapped]
  refine Bytes.map_leading_congr fun d full => ?_
  have all : size - width + d.length = size := by omega
  rw [Bytes.overlay, all, List.drop_of_length_le (List.length_replicate ▸ Nat.le_refl size),
    List.append_nil, List.take_replicate, bigValue_zeros_append]

theorem little_eq : little = of (.fixed .little) := by
  have get {α : Type} (size width : Nat) (g : Nat → α) :
      (fun b => (widenLittle size width b).map fun w => g (littleValue w)) =
        fun b => (b.leading width).map fun d => g ((Order.fixed .little).value d) :=
    funext fun b => map_widenLittle size width b g
  have put {size width : Nat} (fits : width ≤ size) (b : Bytes) (n : Nat) :
      b.stamp ((littleDigits size n).take width) = b.stamp ((Order.fixed .little).digits width n) :=
    congrArg b.stamp (take_littleDigits fits n)
  apply Accesses.ext
  case getU16 => exact get 2 2 UInt16.ofNat
  case getU24 => exact get 4 3 UInt32.ofNat
  case getU32 => exact get 4 4 UInt32.ofNat
  case getU40 => exact get 8 5 UInt64.ofNat
  case getU48 => exact get 8 6 UInt64.ofNat
  case getU56 => exact get 8 7 UInt64.ofNat
  case getU64 => exact get 8 8 UInt64.ofNat
  case putU24 => exact funext₂ fun b v => put (by decide) b v.toNat
  case putU40 | putU48 | putU56 => exact funext₂ fun b v => put (by decide) b v.toNat
  case putU16 | putU32 | putU64 | name => rfl

theorem big_eq : big = of (.fixed .big) := by
  have get {α : Type} {size width : Nat} (fits : width ≤ size) (g : Nat → α) :
      (fun b => (widenBig size width b).map fun w => g (bigValue w)) =
        fun b => (b.leading width).map fun d => g ((Order.fixed .big).value d) :=
    funext fun b => map_widenBig fits b g
  have put (more width : Nat) (b : Bytes) (n : Nat) :
      b.stamp ((bigDigits (more + width) n).drop more) =
        b.stamp ((Order.fixed .big).digits width n) :=
    congrArg b.stamp (drop_bigDigits more width n)
  apply Accesses.ext
  case getU16 => exact get (by decide) UInt16.ofNat
  case getU24 | getU32 => exact get (by decide) UInt32.ofNat
  case getU40 | getU48 | getU56 | getU64 => exact get (by decide) UInt64.ofNat
  case putU24 => exact funext₂ fun b v => put 1 3 b v.toNat
  case putU40 => exact funext₂ fun b v => put 3 5 b v.toNat
  case putU48 => exact funext₂ fun b v => put 2 6 b v.toNat
  case putU56 => exact funext₂ fun b v => put 1 7 b v.toNat
  case putU16 | putU32 | putU64 | name => rfl

theorem direct_eq (e : Endianness) : direct e = of (.fixed e) := by
  cases e with
  | little => exact little_eq
  | big => exact big_eq

theorem dispatched_eq (e : Endianness) : dispatched e = direct e := by cases e <;> rfl

/-! ## Widths given as numbers -/

theorem getUInt_bytes (o : Order) (b : Bytes) (w : Width) :
    o.getUInt b w.bytes = (b.leading w.bytes).map fun d => UInt64.ofNat (o.value d) := by
  rw [Order.getUInt, Width.ofBytes, w.ofBytes?_bytes]
  rfl

theorem putUInt_bytes (o : Order) (b : Bytes) (w : Width) (v : UInt64) :
    o.putUInt b w.bytes v = b.stamp (o.digits w.bytes v.toNat) := by
  rw [Order.putUInt, Width.ofBytes, w.ofBytes?_bytes]
  rfl

theorem widened_eq {α : Type} (o : Order) (b : Bytes) (w : Width) (read : Nat → α)
    (widen : α → UInt64) (whole : ∀ n, n < 256 ^ w.bytes → widen (read n) = UInt64.ofNat n) :
    ((b.leading w.bytes).map fun d => read (o.value d)).map widen = o.getUInt b w.bytes := by
  rw [getUInt_bytes]
  cases led : b.leading w.bytes with
  | error m => rfl
  | ok d =>
    have small := o.value_lt d
    rw [Bytes.leading_eq_ok led] at small
    exact congrArg Except.ok (whole _ small)

theorem stamp_narrowed (o : Order) (b : Bytes) (w : Width) {n : Nat} {v : UInt64}
    (same : n % 256 ^ w.bytes = v.toNat % 256 ^ w.bytes) :
    b.stamp (o.digits w.bytes n) = o.putUInt b w.bytes v := by
  rw [putUInt_bytes, o.digits_congr same]

theorem toUInt64_ofNat16 {n : Nat} (small : n < 2 ^ 16) :
    (UInt16.ofNat n).toUInt64 = UInt64.ofNat n := by
  apply UInt64.toNat_inj.mp
  rw [UInt16.toNat_toUInt64, UInt16.toNat_ofNat', UInt64.toNat_ofNat']
  omega

theorem toUInt64_ofNat32 {n : Nat} (small : n < 2 ^ 32) :
    (UInt32.ofNat n).toUInt64 = UInt64.ofNat n := by
  apply UInt64.toNat_inj.mp
  rw [UInt32.toNat_toUInt64, UInt32.toNat_ofNat', UInt64.toNat_ofNat']
  omega

theorem getUInt_of (o : Order) (b : Bytes) (width : Nat) :
    (of o).getUInt b width = o.getUInt b width := by
  match width with
  | 0 => rfl
  | 1 =>
    refine Eq.trans ?_ (getUInt_bytes o b .b8).symm
    refine Bytes.map_leading_congr fun d single => ?_
    obtain ⟨x, rfl⟩ := List.length_eq_one_iff.mp single
    rw [o.value_one]
    exact (UInt64.ofNat_uInt8ToNat x).symm
  | 2 =>
    exact widened_eq o b .b16 UInt16.ofNat UInt16.toUInt64 fun _ small => toUInt64_ofNat16 small
  | 3 =>
    exact widened_eq o b .b24 UInt32.ofNat UInt32.toUInt64
      fun _ small => toUInt64_ofNat32 (small.trans_le (by decide))
  | 4 =>
    exact widened_eq o b .b32 UInt32.ofNat UInt32.toUInt64 fun _ small => toUInt64_ofNat32 small
  | 5 => exact (getUInt_bytes o b .b40).symm
  | 6 => exact (getUInt_bytes o b .b48).symm
  | 7 => exact (getUInt_bytes o b .b56).symm
  | 8 => exact (getUInt_bytes o b .b64).symm
  | n + 9 =>
    rw [Order.getUInt, Width.ofBytes_of_misfit (by omega)]
    rfl

theorem putUInt_of (o : Order) (b : Bytes) (width : Nat) (v : UInt64) :
    (of o).putUInt b width v = o.putUInt b width v := by
  match width with
  | 0 => rfl
  | 1 =>
    refine Eq.trans ?_ (putUInt_bytes o b .b8 v).symm
    have digit : [v.toUInt8] = o.digits 1 v.toNat := by
      rw [o.digits_one]
      exact congrArg (fun x => [x]) (UInt8.toNat_inj.mp (by simp))
    exact congrArg b.stamp digit
  | 2 => exact stamp_narrowed o b .b16 (by simp [Width.bytes])
  | 3 => exact stamp_narrowed o b .b24 (by simp [Width.bytes])
  | 4 => exact stamp_narrowed o b .b32 (by simp [Width.bytes])
  | 5 => exact (putUInt_bytes o b .b40 v).symm
  | 6 => exact (putUInt_bytes o b .b48 v).symm
  | 7 => exact (putUInt_bytes o b .b56 v).symm
  | 8 => exact (putUInt_bytes o b .b64 v).symm
  | n + 9 =>
    rw [Order.putUInt, Width.ofBytes_of_misfit (by omega)]
    rfl

end Accesses

theorem Order.accesses_eq (o : Order) : o.accesses = .of o := by
  obtain ⟨e, dynamic⟩ := o
  cases dynamic with
  | false => exact Accesses.direct_eq e
  | true => exact (Accesses.dispatched_eq e).trans (Accesses.direct_eq e)

end WireCodec
