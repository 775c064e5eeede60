import WireCodec.Bytes
import WireCodec.Failure

/-!
# Sinks

A sink is offered buffers, one at a time, and takes a part of each from its front or fails and takes
nothing. What it does may depend on all the calls it has had. It keeps the history of its calls and
the bytes it took.
-/

set_option autoImplicit false

namespace WireCodec

inductive SinkCall where
  | write (offered : Bytes)
  | flush
  deriving DecidableEq

/-- A sink: how it answers after a history of calls, that history, and the bytes it holds. -/
structure Sink where
  accept : List SinkCall → Bytes → Except IoError Nat
  flushFault : List SinkCall → Option IoError
  calls : List SinkCall
  data : Bytes

namespace Sink

/-- Offers a buffer; the answer is the number of bytes taken, at most all of them. -/
def write (s : Sink) (buffer : Bytes) : Except IoError Nat × Sink :=
  let called := { s with calls := s.calls ++ [.write buffer] }
  match s.accept s.calls buffer with
  | .error e => (.error e, called)
  | .ok n =>
    let taken := buffer.take n
    (.ok taken.length, { called with data := s.data ++ taken })

def flush (s : Sink) : Except IoError Unit × Sink :=
  let called := { s with calls := s.calls ++ [.flush] }
  match s.flushFault s.calls with
  | some e => (.error e, called)
  | none => (.ok (), called)

/-- Puts bytes into the sink without a call. -/
def push (s : Sink) (b : Bytes) : Sink := { s with data := s.data ++ b }

def buffersOf (calls : List SinkCall) : List Bytes :=
  calls.filterMap fun
    | .write b => some b
    | .flush => none

def flushesOf (calls : List SinkCall) : Nat := calls.count .flush

def offered (s : Sink) : List Bytes := buffersOf s.calls

def writeCount (s : Sink) : Nat := s.offered.length

def flushCount (s : Sink) : Nat := flushesOf s.calls

def accepting : Sink := ⟨fun _ b => .ok b.length, fun _ => none, [], []⟩

/-- What a scripted sink does at one of its calls, which are numbered from 1, writes and flushes
apart. -/
inductive Rule where
  | refuse (write : Nat) (e : IoError)
  | limit (write : Nat) (atMost : Nat)
  | failFlush (flush : Nat) (e : IoError)

def Rule.onWrite? (n : Nat) : Rule → Option (Except IoError Nat)
  | .refuse k e => if k = n then some (.error e) else none
  | .limit k m => if k = n then some (.ok m) else none
  | .failFlush _ _ => none

def Rule.onFlush? (n : Nat) : Rule → Option IoError
  | .failFlush k e => if k = n then some e else none
  | _ => none

/-- A sink that takes at most `limit` bytes of any buffer and follows the first rule that speaks of
a call. -/
def scripted (limit : Option Nat) (rules : List Rule) : Sink where
  accept calls buffer :=
    let most := limit.getD buffer.length
    match rules.findSome? (Rule.onWrite? ((buffersOf calls).length + 1)) with
    | none => .ok most
    | some (.ok m) => .ok (min m most)
    | some (.error e) => .error e
  flushFault calls := rules.findSome? (Rule.onFlush? (flushesOf calls + 1))
  calls := []
  data := []

end Sink

end WireCodec
