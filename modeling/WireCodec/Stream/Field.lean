import WireCodec.LengthField
import WireCodec.Word

/-!
# Fields of a stream

A field says what is to be read next; a value is what was read. Integers of every width come back as
integers, floats as their bit patterns.
-/

set_option autoImplicit false

namespace WireCodec

/-- What to read. The type `ω` stands for the byte orders, as it does for items. -/
inductive Field (ω : Type) where
  | bytes (n : Nat)
  /-- Bytes into a destination, as many as it holds. -/
  | fill (dst : Bytes)
  | word (o : ω) (f : IntFormat)
  | bool
  | uint (o : ω) (w : Width)
  | int (o : ω) (w : Width)
  | uvarint
  | varint
  | float32 (o : ω)
  | float64 (o : ω)
  | complex64 (o : ω)
  | complex128 (o : ω)
  | blob (o : ω) (f : LengthField)
  /-- A text; none if its bytes are not well-formed. -/
  | text (o : ω) (f : LengthField)
  /-- A text, with what is not well-formed replaced. -/
  | lossyText (o : ω) (f : LengthField)

def Field.mapOrder {ω ω' : Type} (g : ω → ω') : Field ω → Field ω'
  | bytes n => bytes n
  | fill dst => fill dst
  | word o f => word (g o) f
  | bool => bool
  | uint o w => uint (g o) w
  | int o w => int (g o) w
  | uvarint => uvarint
  | varint => varint
  | float32 o => float32 (g o)
  | float64 o => float64 (g o)
  | complex64 o => complex64 (g o)
  | complex128 o => complex128 (g o)
  | blob o f => blob (g o) f
  | text o f => text (g o) f
  | lossyText o f => lossyText (g o) f

inductive Value where
  | bytes (b : Bytes)
  /-- How many bytes arrived, and the destination with them in front. -/
  | filled (count : Nat) (dst : Bytes)
  | int (v : Int)
  | bool (v : Bool)
  | float32 (pattern : UInt32)
  | float64 (pattern : UInt64)
  | complex64 (re im : UInt32)
  | complex128 (re im : UInt64)
  | text (s : String)
  deriving DecidableEq

end WireCodec
