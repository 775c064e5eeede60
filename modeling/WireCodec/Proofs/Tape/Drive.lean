import WireCodec.Slice
import WireCodec.Tape.Command

/-!
# Driving a tape

A drive carries out commands as a machine has to. Its head moves with every piece that is read or
claimed, so it has to be put back where an operation fails half-way. Payloads are copied into a
destination. The machine traps at a slice that leaves its array, at a copy between slices of
different lengths, and at a position that leaves 64 bits.
-/

set_option autoImplicit false

namespace WireCodec

/-- What stops a machine for good. -/
inductive Trap where
  | slice
  | copy
  | arithmetic
  | misuse (m : Misuse)
  deriving DecidableEq

namespace Tape

def Command.destination : Command → Bytes
  | .load _ dst => dst
  | _ => []

def Command.reply (c : Command) (outcome : Except Failure Answer) (dst : Bytes) : Reply :=
  match c with
  | .load .. => .loaded outcome dst
  | _ => .plain outcome

end Tape

structure Drive where
  tape : Tape
  destination : Bytes

namespace Drive

open Tape (Answer Command Load Reply Request)

/-- An operation that fails leaves the drive as it is at that moment. -/
abbrev Op (α : Type) := ExceptT Failure (StateT Drive (ExceptT Trap Logged)) α

def movedTo (d : Drive) (pos : Nat) : Drive := { d with tape := { d.tape with pos } }

def runOn {α : Type} (a : Op α) (d : Drive) : Logged (Except Trap (Except Failure α × Drive)) :=
  ExceptT.run (StateT.run (ExceptT.run a) d)

def trap {α : Type} (x : Trap) : Op α := ExceptT.lift (StateT.lift (throw x))

def report (e : Event) : Op Unit := ExceptT.lift (StateT.lift (ExceptT.lift (Logged.report e)))

def ofMisuse {α : Type} : Except Misuse α → Op α
  | .ok a => pure a
  | .error m => trap (.misuse m)

/-! ## The head -/

def head : Op Nat := do
  let d ← get
  pure d.tape.pos

def moveTo (pos : Nat) : Op Unit := modify fun d => d.movedTo pos

def sum (a b : Nat) : Op Nat := if a + b < UInt64.size then pure (a + b) else trap .arithmetic

def difference (a b : Nat) : Op Nat := if b ≤ a then pure (a - b) else trap .arithmetic

def slice (b : Bytes) (start stop : Nat) : Op Bytes :=
  if start ≤ stop ∧ stop ≤ b.length then pure ((b.drop start).take (stop - start)) else trap .slice

def ensure (n : Nat) : Op Unit := do
  let d ← get
  let left ← difference d.tape.length d.tape.pos
  if left < n then throw (.outOfBounds d.tape.pos n d.tape.length) else pure ()

def restoring {α : Type} (a : Op α) : Op α := do
  let start ← head
  tryCatch a fun f => do
    moveTo start
    throw f

/-! ## Reading -/

def advance (n : Nat) : Op Unit := do
  ensure n
  let start ← head
  let stop ← sum start n
  moveTo stop

def bytes (n : Nat) : Op Bytes := do
  ensure n
  let start ← head
  let stop ← sum start n
  moveTo stop
  let d ← get
  slice d.tape.bytes start stop

def fill (n : Nat) : Op Unit := do
  let d ← get
  let window ← slice d.destination 0 n
  let b ← bytes n
  if b.length = window.length then
    modify fun d => { d with destination := d.destination.overlay 0 b }
  else trap .copy

def byte : Op UInt8 := do
  match ← bytes 1 with
  | [] => trap .slice
  | b :: _ => pure b

def number (width : Nat) : Op Nat := do
  let b ← bytes width
  let v ← ofMisuse ((Order.fixed .little).getUInt b width)
  pure v.toNat

def plainNumber : Width → Op Nat
  | .b8 => do
    let b ← byte
    pure b.toNat
  | w => number w.bytes

def pattern32 : Op UInt32 := do
  let n ← number 4
  pure (UInt32.ofNat n)

def pattern64 : Op UInt64 := do
  let n ← number 8
  pure (UInt64.ofNat n)

def counted (c : LengthClass) : Op Nat := restoring do
  let n ← number c.bytes
  let d ← get
  if d.destination.length < n then throw (.destinationTooSmall n d.destination.length)
  else
    fill n
    pure n

/-- A byte that stands for no tag is moved over all the same. -/
def tag : Op Tag := do
  let pos ← head
  let code ← byte
  match Tag.ofCode? code with
  | some g => pure g
  | none =>
    report (.corruptTag code pos)
    throw (.corruptTag code)

def peek : Op Tag := restoring do
  let start ← head
  let g ← tag
  moveTo start
  pure g

def expect (g : Tag) : Op Unit := restoring do
  let found ← tag
  if found = g then pure () else throw (.unexpectedTag (.tag g) found)

def taggedNumber (g : Tag) (width : Nat) : Op Nat := restoring do
  expect g
  number width

def taggedPair {α : Type} (g : Tag) (part : Op α) : Op (α × α) := restoring do
  expect g
  let re ← part
  let im ← part
  pure (re, im)

def integer : Op Int64 := restoring do
  match ← tag with
  | .integer f =>
    let n ← number f.width.bytes
    pure (Int64.ofInt (f.read n))
  | .float32 =>
    let p ← pattern32
    pure (Ieee754.binary32.decode p.toNat).toInt64
  | .float64 =>
    let p ← pattern64
    pure (Ieee754.binary64.decode p.toNat).toInt64
  | found => throw (.unexpectedTag .number found)

def float : Op UInt64 := restoring do
  match ← tag with
  | .integer f =>
    let n ← number f.width.bytes
    pure (UInt64.ofNat (Ieee754.binary64.round (.ofInt (f.read n))))
  | .float32 =>
    let p ← pattern32
    pure (UInt64.ofNat (Ieee754.convert Ieee754.binary32 Ieee754.binary64 p.toNat))
  | .float64 => pattern64
  | found => throw (.unexpectedTag .number found)

def taggedBlob (c : LengthClass) : Op Nat := restoring do
  expect (.blob c)
  counted c

def anyBlob : Op Nat := restoring do
  match ← tag with
  | .blob c => counted c
  | found => throw (.unexpectedTag .blob found)

def fillString : Op Nat := restoring do
  match ← tag with
  | .string c => counted c
  | found => throw (.unexpectedTag .string found)

/-- The bytes of a string, as they stand in the destination. -/
def anyString : Op Bytes := do
  let n ← fillString
  let d ← get
  slice d.destination 0 n

def drain (g : Tag) : Op Nat := do
  let start ← head
  restoring do
    match g.layout with
    | .fixed n => advance n
    | .counted c =>
      let n ← number c.bytes
      advance n
  let pos ← head
  difference pos start

def skip : Op Tag := restoring do
  let g ← tag
  let _ ← drain g
  pure g

def request : Request → Op Answer
  | .word w => do
    let n ← plainNumber w
    pure (.int ((IntFormat.unsigned w).word n).toInt)
  | .float32 => do
    let p ← pattern32
    pure (.float32 p)
  | .float64 => do
    let p ← pattern64
    pure (.float64 p)
  | .bytes n => do
    let b ← bytes n
    pure (.bytes b)
  | .taggedWord f => do
    let n ← taggedNumber (.integer f) f.width.bytes
    pure (.int (f.word n).toInt)
  | .taggedFloat32 => do
    let n ← taggedNumber .float32 4
    pure (.float32 (UInt32.ofNat n))
  | .taggedFloat64 => do
    let n ← taggedNumber .float64 8
    pure (.float64 (UInt64.ofNat n))
  | .complex64 => do
    let (re, im) ← taggedPair .complex64 pattern32
    pure (.complex64 re im)
  | .complex128 => do
    let (re, im) ← taggedPair .complex128 pattern64
    pure (.complex128 re im)
  | .integer => do
    let v ← integer
    pure (.int v.toInt)
  | .float => do
    let p ← float
    pure (.float64 p)
  | .peek => do
    let g ← peek
    pure (.tag g)
  | .expect g => do
    expect g
    pure .done
  | .drain g => do
    let n ← drain g
    pure (.count n)
  | .skip => do
    let g ← skip
    pure (.tag g)
  | .advance n => do
    advance n
    pure .done

def load : Load → Op Answer
  | .slice => do
    let d ← get
    fill d.destination.length
    pure .done
  | .blob c => do
    let n ← counted c
    pure (.count n)
  | .taggedBlob c => do
    let n ← taggedBlob c
    pure (.count n)
  | .anyBlob => do
    let n ← anyBlob
    pure (.count n)
  | .stringBytes => do
    let b ← anyString
    pure (.bytes b)
  | .text => do
    let b ← anyString
    match Utf8.decode? b with
    | some s => pure (.text s)
    | none => throw .invalidUtf8

/-! ## Writing -/

def claim (n : Nat) : Op (Nat × Bytes) := do
  ensure n
  let start ← head
  let stop ← sum start n
  moveTo stop
  let d ← get
  let window ← slice d.tape.bytes start stop
  pure (start, window)

def replace (start : Nat) (b : Bytes) : Op Unit :=
  modify fun d => { d with tape := { d.tape with bytes := d.tape.bytes.overlay start b } }

def writeSlice (b : Bytes) : Op Unit := do
  let (start, window) ← claim b.length
  if b.length = window.length then replace start b else trap .copy

def writeByte (b : UInt8) : Op Unit := do
  let (start, window) ← claim 1
  match window with
  | [] => trap .slice
  | _ :: rest => replace start (b :: rest)

def writeNumber (width : Nat) (v : UInt64) : Op Unit := do
  let (start, window) ← claim width
  let b ← ofMisuse ((Order.fixed .little).putUInt window width v)
  replace start b

def writeWord : Word → Op Unit
  | .u8 v => writeByte v
  | w => writeNumber w.format.width.bytes w.bits

def writeCounted (c : LengthClass) (b : Bytes) : Op Unit := do
  if c.maxLength < b.length then throw (.integerOverflow b.length c.maxLength)
  else
    let size ← sum c.bytes b.length
    ensure size
    writeNumber c.bytes (UInt64.ofNat b.length)
    writeSlice b

/-- There is no way back once the tag is written, so there has to be room for all of it. -/
def writeTagged (g : Tag) (width : Nat) (bits : UInt64) : Op Unit := do
  let size ← sum 1 width
  ensure size
  writeByte g.code
  writeNumber width bits

def writeTaggedCounted (g : Tag) (c : LengthClass) (b : Bytes) : Op Unit := do
  if c.maxLength < b.length then throw (.integerOverflow b.length c.maxLength)
  else
    let front ← sum 1 c.bytes
    let size ← sum front b.length
    ensure size
    writeByte g.code
    writeCounted c b

def writeInteger (v : Int64) : Op Unit :=
  let f := IntFormat.narrowest v.toInt
  writeTagged (.integer f) f.width.bytes v.toUInt64

def write : Entry → Op Unit
  | .bytes b => writeSlice b
  | .word w => writeWord w
  | .uint w v => writeNumber w.bytes v
  | .float32 p => writeNumber 4 p.toUInt64
  | .float64 p => writeNumber 8 p
  | .blob c b => writeCounted c b
  | .tag g => writeByte g.code
  | .taggedWord w => writeTagged (.integer w.format) w.format.width.bytes w.bits
  | .taggedFloat32 p => writeTagged .float32 4 p.toUInt64
  | .taggedFloat64 p => writeTagged .float64 8 p
  | .complex64 re im => writeTagged .complex64 8 (re.toUInt64 ||| im.toUInt64 <<< 32)
  | .complex128 re im => do
    ensure 17
    writeByte Tag.complex128.code
    writeNumber 8 re
    writeNumber 8 im
  | .taggedBlob c b => writeTaggedCounted (.blob c) c b
  | .integer v => writeInteger v
  | .float p =>
    match FloatForm.narrowest p with
    | .integer v => writeInteger v
    | .single q => writeTagged .float32 4 q.toUInt64
    | .double q => writeTagged .float64 8 q
  | .anyBlob b => writeTaggedCounted (.blob (.ofLength b.length)) (.ofLength b.length) b
  | .text s =>
    let b := Utf8.encode s
    writeTaggedCounted (.string (.ofLength b.length)) (.ofLength b.length) b

/-! ## Commands -/

def seek (pos : Nat) : Op Unit := do
  let d ← get
  if d.tape.length < pos then throw (.outOfBounds pos 0 d.tape.length) else moveTo pos

def perform : Command → Op Answer
  | .read r => request r
  | .readTag => do
    let g ← tag
    pure (.tag g)
  | .readUInt width => do
    let n ← number width
    pure (.int n)
  | .load l _ => load l
  | .put e => do
    write e
    pure .done
  | .writeUInt width v => do
    writeNumber width v
    pure .done
  | .seek pos => do
    seek pos
    pure .done
  | .rewind => do
    moveTo 0
    pure .done

def step (c : Command) (t : Tape) : Except Trap (Logged (Reply × Tape)) :=
  let ran := runOn (perform c) ⟨t, c.destination⟩
  ran.value.map fun (outcome, d) => ⟨(c.reply outcome d.destination, d.tape), ran.events⟩

end Drive

end WireCodec
