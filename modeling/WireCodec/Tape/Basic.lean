import WireCodec.Tape.Entry
import WireCodec.Tape.Tagged

/-!
# Tapes

A tape is an array of bytes that never changes its length, with a head that stands somewhere in it
or at its end. Every operation reports its own failure and then leaves the tape, and the destination
of a payload, as they were. There are two exceptions: reading a tag moves over a byte that stands
for none, and reading a text that is not well-formed moves over it and fills the destination.
-/

set_option autoImplicit false

namespace WireCodec

structure Tape where
  bytes : Bytes
  pos : Nat
  deriving DecidableEq

namespace Tape

def ofBytes (b : Bytes) : Tape := ⟨b, 0⟩

def length (t : Tape) : Nat := t.bytes.length

def isEmpty (t : Tape) : Bool := t.bytes.isEmpty

def remaining (t : Tape) : Nat := t.length - t.pos

def written (t : Tape) : Bytes := t.bytes.take t.pos

/-- The bytes from a position to the head. -/
def since (t : Tape) (start : Nat) : Bytes := (t.bytes.drop start).take (t.pos - start)

def debugText (t : Tape) : String :=
  let bytes := "[" ++ ", ".intercalate (t.bytes.map fun b => toString b.toNat) ++ "]"
  recordText "TypedBuffer" [("bytes", bytes), ("pos", toString t.pos)]

/-- Runs a scan from the head, which moves behind what was scanned or stays where it was. -/
def scan {α : Type} (s : Scan α) : Action Tape (Except Failure α) := do
  let t ← get
  let outcome ← (s.runFrom t.bytes t.pos : Logged (Except Failure (α × Nat)))
  match outcome with
  | .ok (a, pos) =>
    set { t with pos }
    pure (.ok a)
  | .error f => pure (.error f)

/-- Reads a tag. The head moves over a byte that stands for none. -/
def readTag : Action Tape (Except Failure Tag) := do
  let r ← scan Scan.tag
  match r with
  | .error (.corruptTag _) => modify fun t => { t with pos := t.pos + 1 }
  | _ => pure ()
  pure r

/-- Stores bytes at the head, all of them or none. -/
def store (b : Bytes) : Action Tape (Except Failure Unit) := do
  let t ← get
  if t.remaining < b.length then pure (.error (.outOfBounds t.pos b.length t.length))
  else
    set { t with bytes := t.bytes.overlay t.pos b, pos := t.pos + b.length }
    pure (.ok ())

/-- Stores an entry. A length that is too great for its class is found before a lack of room. -/
def put (e : Entry) : Action Tape (Except Failure Unit) :=
  match e.encode with
  | .error f => pure (.error f)
  | .ok b => store b

/-- Moves the head to a position, at most to the end. -/
def seek (pos : Nat) : Action Tape (Except Failure Unit) := do
  let t ← get
  if t.length < pos then pure (.error (.outOfBounds pos 0 t.length))
  else
    set { t with pos }
    pure (.ok ())

def rewind : Action Tape Unit := modify fun t => { t with pos := 0 }

/-- Runs an action on an integer of `width` bytes. Another width than 1 to 8 is the caller's fault,
unless the tape ends before it. -/
def withWidth {α : Type} (width : Nat) (a : Width → Action Tape (Except Failure α)) (t : Tape) :
    Except Misuse (Logged (Except Failure α × Tape)) :=
  match Width.ofBytes width with
  | .ok w => .ok ((a w).run t)
  | .error m =>
    if t.remaining < width then .ok (pure (.error (.outOfBounds t.pos width t.length), t))
    else .error m

def readUInt (width : Nat) : Tape → Except Misuse (Logged (Except Failure Nat × Tape)) :=
  withWidth width fun w => scan (Scan.number w)

def writeUInt (width : Nat) (v : UInt64) :
    Tape → Except Misuse (Logged (Except Failure Unit × Tape)) :=
  withWidth width fun w => put (.uint w v)

end Tape

end WireCodec
