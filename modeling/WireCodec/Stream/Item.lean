import WireCodec.Failure
import WireCodec.LengthField
import WireCodec.Utf8

/-!
# Items of a stream

An item is a value with all that its encoding needs to know. `Item.buffers` is the encoding, cut
into the buffers that are handed to a sink one after another: one for a primitive value, the two
halves of a complex number, a length field and its payload. Floats are carried as their bit
patterns.
-/

set_option autoImplicit false

namespace WireCodec

/-- A value to be written. An item over `Order` names its byte orders; one over `Unit` leaves them
to the stream. -/
inductive Item (ω : Type) where
  | bytes (b : Bytes)
  | word (o : ω) (w : Word)
  | bool (v : Bool)
  /-- The low bytes of `v`, as many as the width has. -/
  | uint (o : ω) (w : Width) (v : UInt64)
  | int (o : ω) (w : Width) (v : Int64)
  | uvarint (v : UInt64)
  | varint (v : Int64)
  | float32 (o : ω) (pattern : UInt32)
  | float64 (o : ω) (pattern : UInt64)
  | complex64 (o : ω) (re im : UInt32)
  | complex128 (o : ω) (re im : UInt64)
  | blob (o : ω) (f : LengthField) (b : Bytes)
  | text (o : ω) (f : LengthField) (s : String)

namespace Item

def mapOrder {ω ω' : Type} (g : ω → ω') : Item ω → Item ω'
  | bytes b => bytes b
  | word o w => word (g o) w
  | bool v => bool v
  | uint o w v => uint (g o) w v
  | int o w v => int (g o) w v
  | uvarint v => uvarint v
  | varint v => varint v
  | float32 o p => float32 (g o) p
  | float64 o p => float64 (g o) p
  | complex64 o re im => complex64 (g o) re im
  | complex128 o re im => complex128 (g o) re im
  | blob o f b => blob (g o) f b
  | text o f s => text (g o) f s

/-- A length field and the payload it announces, or the failure of a field that is too narrow. -/
def counted (o : Order) (f : LengthField) (payload : Bytes) : Except Failure (List Bytes) :=
  if f.maxLength < payload.length then .error (.integerOverflow payload.length f.maxLength)
  else .ok [f.encode o payload.length, payload]

def buffers : Item Order → Except Failure (List Bytes)
  | bytes b => .ok [b]
  | word o w => .ok [w.encode o]
  | bool v => .ok [[if v then 1 else 0]]
  | uint o w v => .ok [o.digits w.bytes v.toNat]
  | int o w v => .ok [o.digits w.bytes v.toUInt64.toNat]
  | uvarint v => .ok [Leb128.encode v.toNat]
  | varint v => .ok [Leb128.encode (Zigzag.toUnsigned v).toNat]
  | float32 o p => .ok [o.digits 4 p.toNat]
  | float64 o p => .ok [o.digits 8 p.toNat]
  | complex64 o re im => .ok [o.digits 4 re.toNat, o.digits 4 im.toNat]
  | complex128 o re im => .ok [o.digits 8 re.toNat, o.digits 8 im.toNat]
  | blob o f b => counted o f b
  | text o f s => counted o f (Utf8.encode s)

end Item

end WireCodec
