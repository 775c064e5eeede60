import WireCodec.Stream.ErrorSlot
import WireCodec.Stream.Item
import WireCodec.Stream.Sink

/-!
# Writing to a stream

A stream writer hands the buffers of an item to its sink, each in a single call. A call that fails,
or takes fewer bytes than it was offered, is kept as the stream's failure; so is a length that its
field cannot announce.
-/

set_option autoImplicit false

namespace WireCodec

structure StreamWriter where
  slot : ErrorSlot
  sink : Sink

def StreamWriter.over (sink : Sink) (strict : Bool) : StreamWriter := ⟨.empty strict, sink⟩

namespace StreamWriter

def note (f : Failure) : Action StreamWriter Unit := do
  let w ← get
  let slot ← w.slot.note .writer f
  set { w with slot }

/-- Offers one buffer to the sink, unless the writer is blocked, and returns how many bytes it
took. -/
def offer (b : Bytes) : Action StreamWriter Nat := do
  let w ← get
  if w.slot.blocked then pure 0
  else
    let (outcome, sink) := w.sink.write b
    set { w with sink }
    match outcome with
    | .error e =>
      note (.io e)
      pure 0
    | .ok n =>
      if n ≠ b.length then note (.shortWrite n b.length)
      pure n

def offerAll : List Bytes → Action StreamWriter Nat
  | [] => pure 0
  | b :: bs => do
    let n ← offer b
    let m ← offerAll bs
    pure (n + m)

/-- Writes an item and returns how many bytes the sink took. A blocked writer does not look at the
item. -/
def put (i : Item Order) : Action StreamWriter Nat := do
  let w ← get
  if w.slot.blocked then pure 0
  else
    match i.buffers with
    | .error f =>
      note f
      pure 0
    | .ok bs => offerAll bs

/-- Hands a buffer to the sink as it is. The answer is the sink's own; a short one is no failure
here. -/
def transfer (b : Bytes) : Action StreamWriter (Except IoError Nat) := do
  let w ← get
  match w.slot.obstacle? with
  | some f => pure (.error f.toIoError)
  | none =>
    let (outcome, sink) := w.sink.write b
    set { w with sink }
    match outcome with
    | .error e => note (.io e)
    | .ok _ => pure ()
    pure outcome

def flush : Action StreamWriter (Except IoError Unit) := do
  let w ← get
  match w.slot.obstacle? with
  | some f => pure (.error f.toIoError)
  | none =>
    let (outcome, sink) := w.sink.flush
    set { w with sink }
    match outcome with
    | .error e => note (.io e)
    | .ok _ => pure ()
    pure outcome

def reset : Action StreamWriter Unit := modify fun w => { w with slot := w.slot.clear }

def takeError : Action StreamWriter (Option Failure) := do
  let w ← get
  reset
  pure w.slot.first

def debugText (w : StreamWriter) : String := w.slot.debugText "Encoder"

inductive Command where
  | put (i : Item Order)
  | transfer (b : Bytes)
  | flush
  | reset
  | takeError
  | error
  | debug
  /-- Puts bytes into the sink behind the writer's back. -/
  | push (b : Bytes)

inductive Reply where
  | done
  | count (n : Nat)
  | failure (f : Option Failure)
  | transferred (outcome : Except IoError Nat)
  | flushed (outcome : Except IoError Unit)
  | text (s : String)

/-- Only raw output is answered by the number of bytes that were taken. -/
def putReply {ω : Type} (i : Item ω) (taken : Nat) : Reply :=
  match i with
  | .bytes _ => .count taken
  | _ => .done

def perform : Command → Action StreamWriter Reply
  | .put i => do
    let n ← put i
    pure (putReply i n)
  | .transfer b => do
    let r ← transfer b
    pure (.transferred r)
  | .flush => do
    let r ← flush
    pure (.flushed r)
  | .reset => do
    reset
    pure .done
  | .takeError => do
    let f ← takeError
    pure (.failure f)
  | .error => do
    let w ← get
    pure (.failure w.slot.first)
  | .debug => do
    let w ← get
    pure (.text w.debugText)
  | .push b => do
    modify fun w => { w with sink := w.sink.push b }
    pure .done

end StreamWriter

end WireCodec
