import WireCodec.Word

/-!
# Type tags

Every self-describing value starts with one byte that names its form: an integer of a given width
and reading, a blob or a string whose length field has a given width, a float or a complex number.
The codes 1 to 28 are taken, in the order of `Tag.all`.
-/

set_option autoImplicit false

namespace WireCodec

/-- The width of the length field in front of a tagged blob or string. -/
inductive LengthClass where
  | b8 | b16 | b24 | b32
  deriving DecidableEq

namespace LengthClass

def all : List LengthClass := [.b8, .b16, .b24, .b32]

def width : LengthClass → Width
  | .b8 => .b8
  | .b16 => .b16
  | .b24 => .b24
  | .b32 => .b32

def bytes (c : LengthClass) : Nat := c.width.bytes

def maxLength (c : LengthClass) : Nat := c.width.maxUnsigned

/-- The narrowest class for a payload of `n` bytes; the widest one if none is wide enough. -/
def ofLength (n : Nat) : LengthClass :=
  if n ≤ maxLength .b8 then .b8
  else if n ≤ maxLength .b16 then .b16
  else if n ≤ maxLength .b24 then .b24
  else .b32

end LengthClass

inductive Tag where
  | integer (f : IntFormat)
  | blob (c : LengthClass)
  | string (c : LengthClass)
  | float32
  | float64
  | complex64
  | complex128
  deriving DecidableEq

/-- What follows a tag: a payload of a set size, or a length field and as many bytes as it says. -/
inductive Layout where
  | fixed (size : Nat)
  | counted (c : LengthClass)
  deriving DecidableEq

namespace Tag

def all : List Tag :=
  Width.all.map (fun w => integer (.unsigned w)) ++
    Width.all.map (fun w => integer (.twosComplement w)) ++
    LengthClass.all.map blob ++ LengthClass.all.map string ++
      [float32, float64, complex64, complex128]

def code : Tag → UInt8
  | integer ⟨false, w⟩ => UInt8.ofNat w.bytes
  | integer ⟨true, w⟩ => UInt8.ofNat (8 + w.bytes)
  | blob c => UInt8.ofNat (16 + c.bytes)
  | string c => UInt8.ofNat (20 + c.bytes)
  | float32 => 25
  | float64 => 26
  | complex64 => 27
  | complex128 => 28

def ofCode? (code : UInt8) : Option Tag := all.find? (fun t => t.code == code)

theorem ofCode?_code (t : Tag) : ofCode? t.code = some t := by
  cases t with
  | integer f =>
    obtain ⟨signed, w⟩ := f
    cases signed <;> cases w <;> rfl
  | blob c => cases c <;> rfl
  | string c => cases c <;> rfl
  | float32 | float64 | complex64 | complex128 => rfl

def name : Tag → String
  | integer ⟨false, w⟩ => "uint" ++ toString w.bits
  | integer ⟨true, w⟩ => "int" ++ toString w.bits
  | blob c => "blob" ++ toString c.width.bits
  | string c => "string" ++ toString c.width.bits
  | float32 => "float32"
  | float64 => "float64"
  | complex64 => "complex64"
  | complex128 => "complex128"

def ofName? (s : String) : Option Tag := all.find? (fun t => t.name == s)

def debugText (t : Tag) : String := t.name.capitalize

def isInteger : Tag → Bool
  | integer _ => true
  | _ => false

def isSigned : Tag → Bool
  | integer f => f.signed
  | _ => false

def isNumber : Tag → Bool
  | integer _ => true
  | float32 => true
  | float64 => true
  | _ => false

def isBlob : Tag → Bool
  | blob _ => true
  | _ => false

def isString : Tag → Bool
  | string _ => true
  | _ => false

def layout : Tag → Layout
  | integer f => .fixed f.width.bytes
  | blob c => .counted c
  | string c => .counted c
  | float32 => .fixed 4
  | float64 => .fixed 8
  | complex64 => .fixed 8
  | complex128 => .fixed 16

def intWidth? : Tag → Option Width
  | integer f => some f.width
  | _ => none

def lengthWidth? (t : Tag) : Option Width :=
  match t.layout with
  | .fixed _ => none
  | .counted c => some c.width

def fixedSize? (t : Tag) : Option Nat :=
  match t.layout with
  | .fixed n => some n
  | .counted _ => none

end Tag

end WireCodec
