import WireCodec.Bytes

/-!
# Numbers in base 128

A number is written least significant digit first, seven bits to a byte, and every byte but the last
has its top bit set. Writing uses the fewest bytes. Reading goes one byte at a time and takes any
number of leading zero digits, as long as the whole stays within ten bytes and 64 bits. The zigzag
mapping numbers the signed integers 0, -1, 1, -2, … so that those near zero stay short.
-/

set_option autoImplicit false

namespace WireCodec

-- Powers are those of the core library, also where a file sees others.
attribute [local instance(high)] instPowNat

namespace Leb128

def encode (n : Nat) : Bytes :=
  if n < 128 then [UInt8.ofNat n] else UInt8.ofNat (n % 128 + 128) :: encode (n / 128)
termination_by n
decreasing_by omega

def maxBytes : Nat := 10

/-- Writes a number into the front of a buffer and returns how many bytes it took. -/
def put (buffer : Bytes) (v : UInt64) : Nat × Bytes :=
  let digits := encode v.toNat
  (digits.length, buffer.overlay 0 digits)

/-- The digits read so far, as a number, and how many they are. -/
structure Accumulator where
  value : Nat
  count : Nat
  deriving DecidableEq

def Accumulator.start : Accumulator := ⟨0, 0⟩

inductive Progress where
  | done (value : Nat)
  | more (read : Accumulator)
  | overflow
  deriving DecidableEq

/-- Takes one byte; the tenth may contribute the top bit alone, and so has to be 0 or 1. -/
def Accumulator.feed (a : Accumulator) (b : UInt8) : Progress :=
  if a.count + 1 = maxBytes ∧ 1 < b.toNat then .overflow
  else
    let value := a.value + b.toNat % 128 * 128 ^ a.count
    if b.toNat < 128 then .done value else .more ⟨value, a.count + 1⟩

end Leb128

namespace Zigzag

/-- The number of a signed integer: twice its magnitude, less one if it is negative. -/
def toUnsigned (v : Int64) : UInt64 :=
  if 0 ≤ v.toInt then UInt64.ofNat (2 * v.toInt.natAbs) else UInt64.ofNat (2 * v.toInt.natAbs - 1)

def toSigned (u : UInt64) : Int64 :=
  if u.toNat % 2 = 0 then Int64.ofNat (u.toNat / 2) else Int64.ofInt (-(u.toNat / 2 : Nat) - 1)

end Zigzag

end WireCodec
