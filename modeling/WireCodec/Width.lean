import WireCodec.Misuse

/-!
# Integer widths

Integers on the wire are one to eight bytes wide. A width fixes the range of the unsigned and of the
two's complement integers it holds, and how a stored number reads as a signed one.
-/

set_option autoImplicit false

namespace WireCodec

-- Powers are those of the core library, also where a file sees others.
attribute [local instance(high)] instPowNat

inductive Width where
  | b8 | b16 | b24 | b32 | b40 | b48 | b56 | b64
  deriving DecidableEq

namespace Width

def all : List Width := [.b8, .b16, .b24, .b32, .b40, .b48, .b56, .b64]

def bytes : Width → Nat
  | .b8 => 1
  | .b16 => 2
  | .b24 => 3
  | .b32 => 4
  | .b40 => 5
  | .b48 => 6
  | .b56 => 7
  | .b64 => 8

def bits (w : Width) : Nat := 8 * w.bytes

def ofBytes? (n : Nat) : Option Width := all.find? (fun w => w.bytes == n)

/-- The width of `n` bytes; any other number of bytes is the caller's fault. -/
def ofBytes (n : Nat) : Except Misuse Width :=
  match ofBytes? n with
  | some w => .ok w
  | none => .error (.width n)

def modulus (w : Width) : Nat := 256 ^ w.bytes

def maxUnsigned (w : Width) : Nat := w.modulus - 1

def maxSigned (w : Width) : Int := 2 ^ (w.bits - 1) - 1

def minSigned (w : Width) : Int := -2 ^ (w.bits - 1)

/-- The two's complement reading of a stored number: the integer of the signed range in its residue
class. -/
def toSigned (w : Width) (n : Nat) : Int := Int.bmod n w.modulus

theorem bytes_pos (w : Width) : 0 < w.bytes := by cases w <;> decide

theorem bytes_le (w : Width) : w.bytes ≤ 8 := by cases w <;> decide

theorem mem_all (w : Width) : w ∈ all := by cases w <;> decide

theorem ofBytes?_bytes (w : Width) : ofBytes? w.bytes = some w := by cases w <;> rfl

end Width

end WireCodec
