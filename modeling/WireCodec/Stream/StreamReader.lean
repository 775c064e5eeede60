import WireCodec.Logged
import WireCodec.Stream.ErrorSlot
import WireCodec.Stream.Field
import WireCodec.Stream.Source
import WireCodec.Utf8

/-!
# Reading from a stream

A stream reader takes from its source exactly the bytes of the value it is asked for. Where they
cannot be had, it keeps the cause as the stream's failure and answers with zero, false or nothing.
-/

set_option autoImplicit false

namespace WireCodec

structure StreamReader where
  slot : ErrorSlot
  source : Source

def StreamReader.over (source : Source) (strict : Bool) : StreamReader := ⟨.empty strict, source⟩

namespace StreamReader

def note (f : Failure) : Action StreamReader Unit := do
  let r ← get
  let slot ← r.slot.note .reader f
  set { r with slot }

/-- Bytes that arrived, and whether they are all that was asked for. -/
structure Drawn where
  bytes : Bytes
  complete : Bool

/-- Pulls `n` bytes from the source, unless the reader is blocked. -/
def draw (n : Nat) : Action StreamReader Drawn := do
  let r ← get
  if r.slot.blocked then pure ⟨[], false⟩
  else
    let p := r.source.pull n
    set { r with source := ⟨p.rest⟩ }
    match p.stop with
    | .full => pure ⟨p.bytes, true⟩
    | .ended =>
      note (.shortRead p.bytes.length n)
      pure ⟨p.bytes, false⟩
    | .failed e =>
      note (.io e)
      pure ⟨p.bytes, false⟩

def exactly? (n : Nat) : Action StreamReader (Option Bytes) := do
  let d ← draw n
  pure (if d.complete then some d.bytes else none)

def number? (o : Order) (w : Width) : Action StreamReader (Option Nat) := do
  let b ← exactly? w.bytes
  pure (b.map o.value)

/-- The number in base 128 that goes on from the digits read so far, in at most `fuel` more
bytes. -/
def base128From? : Nat → Leb128.Accumulator → Action StreamReader (Option Nat)
  | 0, _ => pure none
  | fuel + 1, a => do
    match ← exactly? 1 with
    | some [b] =>
      match a.feed b with
      | .done v => pure (some v)
      | .more a' => base128From? fuel a'
      | .overflow =>
        note .varintOverflow
        pure none
    | _ => pure none

def base128? : Action StreamReader (Option Nat) := base128From? Leb128.maxBytes .start

def length? (o : Order) (f : LengthField) : Action StreamReader (Option Nat) :=
  match f.width? with
  | some w => number? o w
  | none => base128?

def payload? (o : Order) (f : LengthField) : Action StreamReader (Option Bytes) := do
  match ← length? o f with
  | none => pure none
  | some n =>
    if maxLength < n then
      note (.lengthTooLarge n maxLength)
      pure none
    else exactly? n

def word (o : Order) (f : IntFormat) : Action StreamReader Word := do
  let n ← number? o f.width
  pure (f.word (n.getD 0))

def pattern32 (o : Order) : Action StreamReader UInt32 := do
  let n ← number? o .b32
  pure (UInt32.ofNat (n.getD 0))

def pattern64 (o : Order) : Action StreamReader UInt64 := do
  let n ← number? o .b64
  pure (UInt64.ofNat (n.getD 0))

def fetch : Field Order → Action StreamReader Value
  | .bytes n => do
    let d ← draw n
    pure (.bytes d.bytes)
  | .fill dst => do
    let d ← draw dst.length
    pure (.filled d.bytes.length (dst.overlay 0 d.bytes))
  | .word o f => do
    let w ← word o f
    pure (.int w.toInt)
  | .bool => do
    let n ← number? .standard .b8
    pure (.bool (n.getD 0 != 0))
  | .uint o w => do
    let n ← number? o w
    pure (.int (n.getD 0))
  | .int o w => do
    let n ← number? o w
    pure (.int (w.toSigned (n.getD 0)))
  | .uvarint => do
    let n ← base128?
    pure (.int (n.getD 0))
  | .varint => do
    let n ← base128?
    pure (.int (Zigzag.toSigned (UInt64.ofNat (n.getD 0))).toInt)
  | .float32 o => do
    let p ← pattern32 o
    pure (.float32 p)
  | .float64 o => do
    let p ← pattern64 o
    pure (.float64 p)
  | .complex64 o => do
    let re ← pattern32 o
    let im ← pattern32 o
    pure (.complex64 re im)
  | .complex128 o => do
    let re ← pattern64 o
    let im ← pattern64 o
    pure (.complex128 re im)
  | .blob o f => do
    let b ← payload? o f
    pure (.bytes (b.getD []))
  | .text o f => do
    match ← payload? o f with
    | none => pure (.text "")
    | some b =>
      match Utf8.decode? b with
      | some s => pure (.text s)
      | none =>
        note .invalidUtf8
        pure (.text "")
  | .lossyText o f => do
    let b ← payload? o f
    pure (.text (Utf8.decodeLossy (b.getD [])))

/-- Reads into a destination once, as the source itself does, and returns the count and the
destination. -/
def transfer (dst : Bytes) : Action StreamReader (Except IoError (Nat × Bytes)) := do
  let r ← get
  match r.slot.obstacle? with
  | some f => pure (.error f.toIoError)
  | none =>
    let (outcome, source) := r.source.read dst.length
    set { r with source }
    match outcome with
    | .error e =>
      note (.io e)
      pure (.error e)
    | .ok b => pure (.ok (b.length, dst.overlay 0 b))

def reset : Action StreamReader Unit := modify fun r => { r with slot := r.slot.clear }

def takeError : Action StreamReader (Option Failure) := do
  let r ← get
  reset
  pure r.slot.first

def debugText (r : StreamReader) : String := r.slot.debugText "Decoder"

inductive Command where
  | fetch (f : Field Order)
  | transfer (dst : Bytes)
  | reset
  | takeError
  | error
  | debug
  /-- Adds to the source behind the reader's back. -/
  | push (segments : List Segment)

inductive Reply where
  | done
  | value (v : Value)
  | failure (f : Option Failure)
  | transferred (outcome : Except IoError (Nat × Bytes))
  | text (s : String)

def perform : Command → Action StreamReader Reply
  | .fetch f => do
    let v ← fetch f
    pure (.value v)
  | .transfer dst => do
    let r ← transfer dst
    pure (.transferred r)
  | .reset => do
    reset
    pure .done
  | .takeError => do
    let f ← takeError
    pure (.failure f)
  | .error => do
    let r ← get
    pure (.failure r.slot.first)
  | .debug => do
    let r ← get
    pure (.text r.debugText)
  | .push segments => do
    modify fun r => { r with source := r.source.push segments }
    pure .done

/-- The caller's fault in a command. A number of bytes is looked at as soon as a buffer is made for
them, which a blocked reader does not do. -/
def misuse? (r : StreamReader) : Command → Option Misuse
  | .fetch (.bytes n) => if r.slot.blocked then none else Misuse.ofLength? n
  | _ => none

def step (c : Command) (r : StreamReader) : Except Misuse (Logged (Reply × StreamReader)) :=
  match r.misuse? c with
  | some m => .error m
  | none => .ok ((perform c).run r)

end StreamReader

end WireCodec
