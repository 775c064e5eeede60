import WireCodec.Bytes

/-!
# Byte orders

A number of `width` bytes is written as that many base-256 digits, least or most significant first.
The two orders are defined apart from each other, each by the digit it writes first.
-/

set_option autoImplicit false

namespace WireCodec

-- Powers are those of the core library, also where a file sees others.
attribute [local instance(high)] instPowNat

inductive Endianness where
  | little
  | big
  deriving DecidableEq

/-- The low `width` digits of a number, least significant first. -/
def littleDigits : Nat → Nat → Bytes
  | 0, _ => []
  | width + 1, n => UInt8.ofNat (n % 256) :: littleDigits width (n / 256)

/-- The low `width` digits of a number, most significant first. -/
def bigDigits : Nat → Nat → Bytes
  | 0, _ => []
  | width + 1, n => UInt8.ofNat (n / 256 ^ width % 256) :: bigDigits width n

def littleValue : Bytes → Nat
  | [] => 0
  | b :: bs => b.toNat + 256 * littleValue bs

def bigValue (bs : Bytes) : Nat := bs.foldl (fun n b => 256 * n + b.toNat) 0

namespace Endianness

def digits : Endianness → Nat → Nat → Bytes
  | .little => littleDigits
  | .big => bigDigits

def value : Endianness → Bytes → Nat
  | .little => littleValue
  | .big => bigValue

def name : Endianness → String
  | .little => "LittleEndian"
  | .big => "BigEndian"

end Endianness

/-- A byte order as a caller names it, fixed or picked while the program runs; the two differ in
diagnostics alone. -/
structure Order where
  endianness : Endianness
  dynamic : Bool
  deriving DecidableEq

namespace Order

def fixed (e : Endianness) : Order := ⟨e, false⟩

def picked (e : Endianness) : Order := ⟨e, true⟩

def standard : Order := picked .little

def toPicked (o : Order) : Order := picked o.endianness

def digits (o : Order) : Nat → Nat → Bytes := o.endianness.digits

def value (o : Order) : Bytes → Nat := o.endianness.value

def name (o : Order) : String := o.endianness.name

def debugText (o : Order) : String :=
  match o.dynamic, o.endianness with
  | false, e => e.name
  | true, .little => "Little"
  | true, .big => "Big"

end Order

theorem length_littleDigits (width n : Nat) : (littleDigits width n).length = width := by
  induction width generalizing n with
  | zero => rfl
  | succ width ih => simp only [littleDigits, List.length_cons, ih]

theorem length_bigDigits (width n : Nat) : (bigDigits width n).length = width := by
  induction width with
  | zero => rfl
  | succ width ih => simp only [bigDigits, List.length_cons, ih]

theorem Order.length_digits (o : Order) (width n : Nat) : (o.digits width n).length = width := by
  unfold Order.digits
  cases o.endianness with
  | little => exact length_littleDigits width n
  | big => exact length_bigDigits width n

end WireCodec
