import WireCodec.Order
import WireCodec.Width

/-!
# Machine words

The integers of fixed width as a program holds them: each width above one byte sits in the smallest
machine word that holds it, so a 24 bit integer travels in a 32 bit word and only its low three
bytes are written.
-/

set_option autoImplicit false

namespace WireCodec

/-- A width together with a reading, unsigned or two's complement. -/
structure IntFormat where
  signed : Bool
  width : Width
  deriving DecidableEq

namespace IntFormat

def unsigned (w : Width) : IntFormat := ⟨false, w⟩

def twosComplement (w : Width) : IntFormat := ⟨true, w⟩

def read (f : IntFormat) (n : Nat) : Int :=
  if f.signed then f.width.toSigned n else n

end IntFormat

/-- A machine word that is written at one of the fixed widths. -/
inductive Word where
  | u8 (v : UInt8)
  | u16 (v : UInt16)
  | u24 (v : UInt32)
  | u32 (v : UInt32)
  | u40 (v : UInt64)
  | u48 (v : UInt64)
  | u56 (v : UInt64)
  | u64 (v : UInt64)
  | i8 (v : Int8)
  | i16 (v : Int16)
  | i24 (v : Int32)
  | i32 (v : Int32)
  | i40 (v : Int64)
  | i48 (v : Int64)
  | i56 (v : Int64)
  | i64 (v : Int64)
  deriving DecidableEq

namespace Word

def format : Word → IntFormat
  | .u8 _ => .unsigned .b8
  | .u16 _ => .unsigned .b16
  | .u24 _ => .unsigned .b24
  | .u32 _ => .unsigned .b32
  | .u40 _ => .unsigned .b40
  | .u48 _ => .unsigned .b48
  | .u56 _ => .unsigned .b56
  | .u64 _ => .unsigned .b64
  | .i8 _ => .twosComplement .b8
  | .i16 _ => .twosComplement .b16
  | .i24 _ => .twosComplement .b24
  | .i32 _ => .twosComplement .b32
  | .i40 _ => .twosComplement .b40
  | .i48 _ => .twosComplement .b48
  | .i56 _ => .twosComplement .b56
  | .i64 _ => .twosComplement .b64

/-- The integer that the whole machine word holds, bits beyond the written width included. -/
def toInt : Word → Int
  | .u8 v => v.toNat
  | .u16 v => v.toNat
  | .u24 v => v.toNat
  | .u32 v => v.toNat
  | .u40 v => v.toNat
  | .u48 v => v.toNat
  | .u56 v => v.toNat
  | .u64 v => v.toNat
  | .i8 v => v.toInt
  | .i16 v => v.toInt
  | .i24 v => v.toInt
  | .i32 v => v.toInt
  | .i40 v => v.toInt
  | .i48 v => v.toInt
  | .i56 v => v.toInt
  | .i64 v => v.toInt

/-- The word extended to 64 bits: with zeros if it is unsigned, with its sign otherwise. -/
def bits : Word → UInt64
  | .u8 v => v.toUInt64
  | .u16 v => v.toUInt64
  | .u24 v => v.toUInt64
  | .u32 v => v.toUInt64
  | .u40 v => v
  | .u48 v => v
  | .u56 v => v
  | .u64 v => v
  | .i8 v => v.toInt64.toUInt64
  | .i16 v => v.toInt64.toUInt64
  | .i24 v => v.toInt64.toUInt64
  | .i32 v => v.toInt64.toUInt64
  | .i40 v => v.toUInt64
  | .i48 v => v.toUInt64
  | .i56 v => v.toUInt64
  | .i64 v => v.toUInt64

/-- The bytes of a word: the low digits of its own two's complement, without widening it first. -/
def encode (o : Order) : Word → Bytes
  | .u8 v => [v]
  | .u16 v => o.digits 2 v.toNat
  | .u24 v => o.digits 3 v.toNat
  | .u32 v => o.digits 4 v.toNat
  | .u40 v => o.digits 5 v.toNat
  | .u48 v => o.digits 6 v.toNat
  | .u56 v => o.digits 7 v.toNat
  | .u64 v => o.digits 8 v.toNat
  | .i8 v => [v.toUInt8]
  | .i16 v => o.digits 2 v.toUInt16.toNat
  | .i24 v => o.digits 3 v.toUInt32.toNat
  | .i32 v => o.digits 4 v.toUInt32.toNat
  | .i40 v => o.digits 5 v.toUInt64.toNat
  | .i48 v => o.digits 6 v.toUInt64.toNat
  | .i56 v => o.digits 7 v.toUInt64.toNat
  | .i64 v => o.digits 8 v.toUInt64.toNat

end Word

/-- The machine word of a format that a stored number fills; narrow two's complement numbers are
extended by their sign. -/
def IntFormat.word (f : IntFormat) (n : Nat) : Word :=
  match f.signed, f.width with
  | false, .b8 => .u8 (UInt8.ofNat n)
  | false, .b16 => .u16 (UInt16.ofNat n)
  | false, .b24 => .u24 (UInt32.ofNat n)
  | false, .b32 => .u32 (UInt32.ofNat n)
  | false, .b40 => .u40 (UInt64.ofNat n)
  | false, .b48 => .u48 (UInt64.ofNat n)
  | false, .b56 => .u56 (UInt64.ofNat n)
  | false, .b64 => .u64 (UInt64.ofNat n)
  | true, .b8 => .i8 (UInt8.ofNat n).toInt8
  | true, .b16 => .i16 (UInt16.ofNat n).toInt16
  | true, .b24 => .i24 (Int32.ofInt (Width.b24.toSigned n))
  | true, .b32 => .i32 (UInt32.ofNat n).toInt32
  | true, .b40 => .i40 (Int64.ofInt (Width.b40.toSigned n))
  | true, .b48 => .i48 (Int64.ofInt (Width.b48.toSigned n))
  | true, .b56 => .i56 (Int64.ofInt (Width.b56.toSigned n))
  | true, .b64 => .i64 (UInt64.ofNat n).toInt64

end WireCodec
