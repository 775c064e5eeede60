import WireCodec.Failure
import WireCodec.Tape.Narrow
import WireCodec.Utf8

/-!
# Entries

An entry is a value to be stored in an array, plain or behind its tag. Its encoding stands on its
own: where it is stored, and whether there is room, plays no part in it. Integers are little-endian.
-/

set_option autoImplicit false

namespace WireCodec

-- Powers are those of the core library, also where a file sees others.
attribute [local instance(high)] instPowNat

inductive Entry where
  | bytes (b : Bytes)
  | word (w : Word)
  | uint (w : Width) (v : UInt64)
  | float32 (pattern : UInt32)
  | float64 (pattern : UInt64)
  | blob (c : LengthClass) (b : Bytes)
  | tag (t : Tag)
  | taggedWord (w : Word)
  | taggedFloat32 (pattern : UInt32)
  | taggedFloat64 (pattern : UInt64)
  | complex64 (re im : UInt32)
  | complex128 (re im : UInt64)
  | taggedBlob (c : LengthClass) (b : Bytes)
  /-- An integer in its narrowest form. -/
  | integer (v : Int64)
  /-- A float in its narrowest form. -/
  | float (pattern : UInt64)
  | anyBlob (b : Bytes)
  | text (s : String)

namespace Entry

/-- A payload behind its length, or the failure of a length that is too great for the class. -/
def counted (c : LengthClass) (payload : Bytes) : Except Failure Bytes :=
  if c.maxLength < payload.length then .error (.integerOverflow payload.length c.maxLength)
  else .ok (littleDigits c.bytes payload.length ++ payload)

def tagged (t : Tag) (width : Nat) (n : Nat) : Bytes := t.code :: littleDigits width n

def taggedInteger (v : Int64) : Bytes :=
  let f := IntFormat.narrowest v.toInt
  tagged (.integer f) f.width.bytes v.toUInt64.toNat

def encode : Entry → Except Failure Bytes
  | bytes b => .ok b
  | word w => .ok (w.encode (.fixed .little))
  | uint w v => .ok (littleDigits w.bytes v.toNat)
  | float32 p => .ok (littleDigits 4 p.toNat)
  | float64 p => .ok (littleDigits 8 p.toNat)
  | blob c b => counted c b
  | tag t => .ok [t.code]
  | taggedWord w => .ok (tagged (.integer w.format) w.format.width.bytes w.bits.toNat)
  | taggedFloat32 p => .ok (tagged .float32 4 p.toNat)
  | taggedFloat64 p => .ok (tagged .float64 8 p.toNat)
  | complex64 re im => .ok (tagged .complex64 8 (re.toNat + im.toNat * 2 ^ (32 : Nat)))
  | complex128 re im =>
    .ok (Tag.complex128.code :: (littleDigits 8 re.toNat ++ littleDigits 8 im.toNat))
  | taggedBlob c b => (counted c b).map ((Tag.blob c).code :: ·)
  | integer v => .ok (taggedInteger v)
  | float p =>
    match FloatForm.narrowest p with
    | .integer v => .ok (taggedInteger v)
    | .single q => .ok (tagged .float32 4 q.toNat)
    | .double q => .ok (tagged .float64 8 q.toNat)
  | anyBlob b =>
    let c := LengthClass.ofLength b.length
    (counted c b).map ((Tag.blob c).code :: ·)
  | text s =>
    let b := Utf8.encode s
    let c := LengthClass.ofLength b.length
    (counted c b).map ((Tag.string c).code :: ·)

end Entry

end WireCodec
