import WireCodec.Tape.Basic

/-!
# Commands to a tape

Everything that a tape can be told to do, as data, with the answers. A request reads a value; a load
reads a payload into a destination; the other commands move the head or store an entry.
-/

set_option autoImplicit false

namespace WireCodec

namespace Tape

inductive Answer where
  | done
  | int (v : Int)
  | count (n : Nat)
  | float32 (pattern : UInt32)
  | float64 (pattern : UInt64)
  | complex64 (re im : UInt32)
  | complex128 (re im : UInt64)
  | bytes (b : Bytes)
  | text (s : String)
  | tag (t : Tag)
  deriving DecidableEq

inductive Request where
  | word (w : Width)
  | float32
  | float64
  | bytes (n : Nat)
  | taggedWord (f : IntFormat)
  | taggedFloat32
  | taggedFloat64
  | complex64
  | complex128
  /-- Any number, as an integer. -/
  | integer
  /-- Any number, as a float. -/
  | float
  | peek
  | expect (t : Tag)
  /-- The payload of a value whose tag has been read. -/
  | drain (t : Tag)
  | skip
  | advance (n : Nat)

def Request.scan : Request → Scan Answer
  | word w => do
    let v ← Scan.word (.unsigned w)
    pure (.int v.toInt)
  | float32 => do
    let p ← Scan.pattern32
    pure (.float32 p)
  | float64 => do
    let p ← Scan.pattern64
    pure (.float64 p)
  | bytes n => do
    let b ← Scan.bytes n
    pure (.bytes b)
  | taggedWord f => do
    let v ← Scan.taggedWord f
    pure (.int v.toInt)
  | taggedFloat32 => do
    let p ← Scan.taggedFloat32
    pure (.float32 p)
  | taggedFloat64 => do
    let p ← Scan.taggedFloat64
    pure (.float64 p)
  | complex64 => do
    let (re, im) ← Scan.complex64
    pure (.complex64 re im)
  | complex128 => do
    let (re, im) ← Scan.complex128
    pure (.complex128 re im)
  | integer => do
    let v ← Scan.integer
    pure (.int v.toInt)
  | float => do
    let p ← Scan.float
    pure (.float64 p)
  | peek => do
    let t ← Scan.peek
    pure (.tag t)
  | expect t => do
    Scan.expect t
    pure .done
  | drain t => do
    let n ← Scan.drain t
    pure (.count n)
  | skip => do
    let t ← Scan.skip
    pure (.tag t)
  | advance n => do
    Scan.advance n
    pure .done

inductive Load where
  /-- As many bytes as the destination holds. -/
  | slice
  | blob (c : LengthClass)
  | taggedBlob (c : LengthClass)
  | anyBlob
  | stringBytes
  | text
  deriving DecidableEq

def Load.scan (capacity : Nat) : Load → Scan Bytes
  | slice => Scan.bytes capacity
  | blob c => Scan.counted c capacity
  | taggedBlob c => Scan.taggedBlob c capacity
  | anyBlob => Scan.anyBlob capacity
  | stringBytes => Scan.anyString capacity
  | text => Scan.anyString capacity

/-- What a load returns for its payload: a length, the bytes, or the text if they are
well-formed. -/
def Load.answer (payload : Bytes) : Load → Except Failure Answer
  | slice => .ok .done
  | blob _ => .ok (.count payload.length)
  | taggedBlob _ => .ok (.count payload.length)
  | anyBlob => .ok (.count payload.length)
  | stringBytes => .ok (.bytes payload)
  | text =>
    match Utf8.decode? payload with
    | some s => .ok (.text s)
    | none => .error .invalidUtf8

def load (l : Load) (dst : Bytes) : Action Tape (Except Failure Answer × Bytes) := do
  let outcome ← scan (l.scan dst.length)
  match outcome with
  | .error f => pure (.error f, dst)
  | .ok payload => pure (l.answer payload, dst.overlay 0 payload)

inductive Command where
  | read (r : Request)
  | readTag
  | readUInt (width : Nat)
  | load (l : Load) (dst : Bytes)
  | put (e : Entry)
  | writeUInt (width : Nat) (v : UInt64)
  | seek (pos : Nat)
  | rewind

inductive Reply where
  | plain (outcome : Except Failure Answer)
  | loaded (outcome : Except Failure Answer) (dst : Bytes)

def Reply.ofUnit (outcome : Except Failure Unit) : Reply := .plain (outcome.map fun _ => .done)

/-- Carries out a command. The caller's only fault can be a width given as a number. -/
def step : Command → Tape → Except Misuse (Logged (Reply × Tape))
  | .read r, t => .ok ((Reply.plain <$> scan r.scan).run t)
  | .readTag, t => .ok (((fun o => Reply.plain (o.map Answer.tag)) <$> readTag).run t)
  | .readUInt width, t =>
    (readUInt width t).map fun l =>
      (fun (o, t') => (Reply.plain (o.map fun n => Answer.int n), t')) <$> l
  | .load l dst, t => .ok (((fun (o, d) => Reply.loaded o d) <$> load l dst).run t)
  | .put e, t => .ok ((Reply.ofUnit <$> put e).run t)
  | .writeUInt width v, t =>
    (writeUInt width v t).map fun l => (fun (o, t') => (Reply.ofUnit o, t')) <$> l
  | .seek pos, t => .ok ((Reply.ofUnit <$> seek pos).run t)
  | .rewind, t => .ok (((fun _ => Reply.plain (.ok .done)) <$> rewind).run t)

end Tape

end WireCodec
