import WireCodec.Ieee754
import WireCodec.Tape.Scan

/-!
# Scanning tagged values

The strict scans want one tag. The generic ones take every tag of a class: numbers as integers or as
floats, blobs and strings of every length class. Draining moves over a value by the layout of its
tag alone.
-/

set_option autoImplicit false

namespace WireCodec

namespace Scan

def taggedWord (f : IntFormat) : Scan Word := do
  expect (.integer f)
  word f

def taggedFloat32 : Scan UInt32 := do
  expect .float32
  pattern32

def taggedFloat64 : Scan UInt64 := do
  expect .float64
  pattern64

def complex64 : Scan (UInt32 × UInt32) := do
  expect .complex64
  let re ← pattern32
  let im ← pattern32
  pure (re, im)

def complex128 : Scan (UInt64 × UInt64) := do
  expect .complex128
  let re ← pattern64
  let im ← pattern64
  pure (re, im)

def taggedBlob (c : LengthClass) (capacity : Nat) : Scan Bytes := do
  expect (.blob c)
  counted c capacity

/-- Any number as an integer of 64 bits. Floats are rounded toward zero and held within the range; a
greater unsigned number wraps. -/
def integer : Scan Int64 := do
  match ← tag with
  | .integer f =>
    let n ← number f.width
    pure (Int64.ofInt (f.read n))
  | .float32 =>
    let p ← pattern32
    pure (Ieee754.binary32.decode p.toNat).toInt64
  | .float64 =>
    let p ← pattern64
    pure (Ieee754.binary64.decode p.toNat).toInt64
  | found => throw (.unexpectedTag .number found)

/-- Any number as a float of 64 bits, integers rounded to the nearest one. -/
def float : Scan UInt64 := do
  match ← tag with
  | .integer f =>
    let n ← number f.width
    pure (UInt64.ofNat (Ieee754.binary64.round (.ofInt (f.read n))))
  | .float32 =>
    let p ← pattern32
    pure (UInt64.ofNat (Ieee754.convert Ieee754.binary32 Ieee754.binary64 p.toNat))
  | .float64 => pattern64
  | found => throw (.unexpectedTag .number found)

def anyBlob (capacity : Nat) : Scan Bytes := do
  match ← tag with
  | .blob c => counted c capacity
  | found => throw (.unexpectedTag .blob found)

def anyString (capacity : Nat) : Scan Bytes := do
  match ← tag with
  | .string c => counted c capacity
  | found => throw (.unexpectedTag .string found)

/-- Moves over the payload of a value whose tag has been read, and returns its size, length field
included. -/
def drain (t : Tag) : Scan Nat := do
  let start ← get
  match t.layout with
  | .fixed n => advance n
  | .counted c =>
    let n ← number c.width
    advance n
  let pos ← get
  pure (pos - start)

def skip : Scan Tag := do
  let t ← tag
  let _ ← drain t
  pure t

end Scan

end WireCodec
