import WireCodec.Logged
import WireCodec.Word

/-!
# Scanning an array

A scan reads on from a position in an array of bytes. It returns a value and the position behind it,
or it fails; a scan that fails has no position, so whoever runs it stays where they were. Integers
are little-endian.
-/

set_option autoImplicit false

namespace WireCodec

/-- A reader of arrays: the array, then the position, and failures, under a log. -/
abbrev Scan (α : Type) := ReaderT Bytes (StateT Nat (ExceptT Failure Logged)) α

namespace Scan

def runFrom {α : Type} (s : Scan α) (array : Bytes) (pos : Nat) :
    Logged (Except Failure (α × Nat)) :=
  ExceptT.run (StateT.run (ReaderT.run s array) pos)

def report (e : Event) : Scan Unit := fun _ => StateT.lift (ExceptT.lift (Logged.report e))

def advance (n : Nat) : Scan Unit := do
  let array ← read
  let pos ← get
  if array.length - pos < n then throw (.outOfBounds pos n array.length)
  else set (pos + n)

def bytes (n : Nat) : Scan Bytes := do
  let array ← read
  let pos ← get
  advance n
  pure ((array.drop pos).take n)

def byte : Scan UInt8 := do
  let b ← bytes 1
  pure (b.headD 0)

def number (w : Width) : Scan Nat := do
  let b ← bytes w.bytes
  pure (littleValue b)

def word (f : IntFormat) : Scan Word := do
  let n ← number f.width
  pure (f.word n)

def pattern32 : Scan UInt32 := do
  let n ← number .b32
  pure (UInt32.ofNat n)

def pattern64 : Scan UInt64 := do
  let n ← number .b64
  pure (UInt64.ofNat n)

/-- A payload behind its length field, for a destination of `capacity` bytes. -/
def counted (c : LengthClass) (capacity : Nat) : Scan Bytes := do
  let n ← number c.width
  if capacity < n then throw (.destinationTooSmall n capacity)
  else bytes n

/-- The tag at the position. A byte that stands for none is reported to the log with its
position. -/
def tag : Scan Tag := do
  let pos ← get
  let code ← byte
  match Tag.ofCode? code with
  | some t => pure t
  | none =>
    report (.corruptTag code pos)
    throw (.corruptTag code)

def peek : Scan Tag := do
  let pos ← get
  let t ← tag
  set pos
  pure t

def expect (t : Tag) : Scan Unit := do
  let found ← tag
  if found = t then pure () else throw (.unexpectedTag (.tag t) found)

end Scan

end WireCodec
