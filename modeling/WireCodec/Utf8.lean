import WireCodec.Bytes

/-!
# UTF-8

The bytes of a text, the text of well-formed bytes, and the text of any bytes with every maximal
ill-formed part replaced by U+FFFD. A part is maximal when it starts a well-formed character and the
next byte cannot continue it, or when it is a single byte that starts none.
-/

set_option autoImplicit false

namespace WireCodec

namespace Utf8

def encode (s : String) : Bytes := s.toUTF8.data.toList

def decode? (b : Bytes) : Option String := String.fromUTF8? ⟨b.toArray⟩

theorem decode?_encode (s : String) : decode? (encode s) = some s := by
  have wellFormed : s.toByteArray.IsValidUTF8 := s.isValidUTF8
  simp only [decode?, encode, String.toUTF8_eq_toByteArray, Array.toArray_toList, String.fromUTF8?,
    wellFormed, dite_true]
  rfl

/-- What a character still owes: how many bytes, the range of the next one, and the bits read so
far. -/
structure Pending where
  owed : Nat
  low : Nat
  high : Nat
  bits : Nat

/-- What the first byte of a character is: the whole of it, a part of it, or no such byte. -/
inductive Lead where
  | whole (c : Char)
  | part (p : Pending)
  | bad

/-- Classifies a first byte. The ranges of the second byte rule out overlong forms, surrogates and
code points above U+10FFFF. -/
def lead (b : Nat) : Lead :=
  if b < 0x80 then .whole (Char.ofNat b)
  else if b < 0xC2 then .bad
  else if b < 0xE0 then .part ⟨1, 0x80, 0xBF, b - 0xC0⟩
  else if b = 0xE0 then .part ⟨2, 0xA0, 0xBF, b - 0xE0⟩
  else if b = 0xED then .part ⟨2, 0x80, 0x9F, b - 0xE0⟩
  else if b < 0xF0 then .part ⟨2, 0x80, 0xBF, b - 0xE0⟩
  else if b = 0xF0 then .part ⟨3, 0x90, 0xBF, b - 0xF0⟩
  else if b < 0xF4 then .part ⟨3, 0x80, 0xBF, b - 0xF0⟩
  else if b = 0xF4 then .part ⟨3, 0x80, 0x8F, b - 0xF0⟩
  else .bad

def replacement : Char := Char.ofNat 0xFFFD

/-- A repair under way: the characters so far, last one first, and the character that is being
read. -/
structure Repair where
  done : List Char
  pending : Option Pending

def Repair.start (done : List Char) (b : Nat) : Repair :=
  match lead b with
  | .whole c => ⟨c :: done, none⟩
  | .part p => ⟨done, some p⟩
  | .bad => ⟨replacement :: done, none⟩

/-- Takes the next byte. One that cannot continue the pending character replaces it and starts
anew. -/
def Repair.step (r : Repair) (byte : UInt8) : Repair :=
  let b := byte.toNat
  match r.pending with
  | none => Repair.start r.done b
  | some p =>
    if p.low ≤ b ∧ b ≤ p.high then
      let bits := p.bits * 64 + b % 64
      if p.owed = 1 then ⟨Char.ofNat bits :: r.done, none⟩
      else ⟨r.done, some ⟨p.owed - 1, 0x80, 0xBF, bits⟩⟩
    else Repair.start (replacement :: r.done) b

def Repair.close (r : Repair) : List Char :=
  match r.pending with
  | none => r.done.reverse
  | some _ => (replacement :: r.done).reverse

def repair (b : Bytes) : String := String.ofList (b.foldl Repair.step ⟨[], none⟩).close

/-- The text of any bytes: exact where they are well-formed, repaired where they are not. -/
def decodeLossy (b : Bytes) : String := (decode? b).getD (repair b)

end Utf8

end WireCodec
