import WireCodec.Leb128
import WireCodec.Order
import WireCodec.Width

/-!
# Length fields

A payload of variable size is preceded by its length, in a field of fixed width or in base 128. The
field sets the greatest length it can announce.
-/

set_option autoImplicit false

namespace WireCodec

/-- How a length is written: in that many bytes, or in base 128. -/
inductive LengthField where
  | one
  | two
  | three
  | four
  | five
  | eight
  | variable
  deriving DecidableEq

namespace LengthField

def all : List LengthField := [.one, .two, .three, .four, .five, .eight, .variable]

def width? : LengthField → Option Width
  | .one => some .b8
  | .two => some .b16
  | .three => some .b24
  | .four => some .b32
  | .five => some .b40
  | .eight => some .b64
  | .variable => none

def maxLength (f : LengthField) : Nat := (f.width?.getD .b64).maxUnsigned

def name : LengthField → String
  | .one => "W1"
  | .two => "W2"
  | .three => "W3"
  | .four => "W4"
  | .five => "W5"
  | .eight => "W8"
  | .variable => "Var"

def encode (f : LengthField) (o : Order) (n : Nat) : Bytes :=
  match f.width? with
  | some w => o.digits w.bytes n
  | none => Leb128.encode n

end LengthField

end WireCodec
