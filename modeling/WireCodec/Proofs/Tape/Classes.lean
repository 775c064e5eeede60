import WireCodec.Proofs.Tape.Atomicity
import WireCodec.Proofs.Tape.RoundTrip
import WireCodec.Proofs.Tape.Safety

/-!
# Length classes

A payload is stored under the first class whose length field can tell its length. A machine finds
the class by a chain of thresholds and looks up its tag and its greatest length in tables; it finds
the class of a tag by its place in the table of tags. Whichever class a payload was stored under, it
is read back whole, if the destination holds it.
-/

set_option autoImplicit false

namespace WireCodec

-- Powers are those of the core library, also where a file sees others.
attribute [local instance(high)] instPowNat

inductive PayloadKind where
  | blob
  | string

namespace PayloadKind

open Tape (Answer Load)

def tag : PayloadKind → LengthClass → Tag
  | .blob => .blob
  | .string => .string

def wanted : PayloadKind → Wanted
  | .blob => .blob
  | .string => .string

def tags (k : PayloadKind) : List Tag := LengthClass.all.map k.tag

def load : PayloadKind → Load
  | .blob => .anyBlob
  | .string => .stringBytes

def answer (k : PayloadKind) (payload : Bytes) : Answer :=
  match k with
  | .blob => .count payload.length
  | .string => .bytes payload

/-- The entries that leave the class to the writer, with their payloads. -/
inductive Stored : PayloadKind → Entry → Bytes → Prop where
  | blob (b : Bytes) : Stored .blob (.anyBlob b) b
  | string (s : String) : Stored .string (.text s) (Utf8.encode s)

def encoding (k : PayloadKind) (c : LengthClass) (payload : Bytes) : Bytes :=
  (k.tag c).code :: (littleDigits c.bytes payload.length ++ payload)

end PayloadKind

/-! ## Tables -/

namespace Drive

/-- The number of the class for a payload of `n` bytes, by the greatest lengths of the classes. -/
def classNumber (n : Nat) : Nat :=
  if n ≤ 0xff then 1
  else if n ≤ 0xffff then 2
  else if n ≤ 0xffffff then 3
  else 4

def greatestLengths : List Nat := [0xff, 0xffff, 0xffffff, 0xffffffff]

/-- What stands in a table at a place that has to be in it. -/
def lookUp {α : Type} (table : List α) (i : Nat) : Op α :=
  match table[i]? with
  | some x => pure x
  | none => trap .slice

def writePrefixed (width most : Nat) (b : Bytes) : Op Unit := do
  if most < b.length then throw (.integerOverflow b.length most)
  else
    let size ← sum width b.length
    ensure size
    writeNumber width (UInt64.ofNat b.length)
    writeSlice b

def writeTaggedPrefixed (g : Tag) (width : Nat) (b : Bytes) : Op Unit := do
  let most ← lookUp greatestLengths (width - 1)
  if most < b.length then throw (.integerOverflow b.length most)
  else
    let front ← sum 1 width
    let size ← sum front b.length
    ensure size
    writeByte g.code
    writePrefixed width most b

def writeClass (tags : List Tag) (b : Bytes) : Op Unit := do
  let n := classNumber b.length
  let g ← lookUp tags (n - 1)
  writeTaggedPrefixed g n b

def readPrefixed (width : Nat) : Op Nat := restoring do
  let n ← number width
  let d ← get
  if d.destination.length < n then throw (.destinationTooSmall n d.destination.length)
  else
    fill n
    pure n

def readClass (tags : List Tag) (wanted : Wanted) : Op Nat := restoring do
  let g ← tag
  match tags.idxOf? g with
  | some i => readPrefixed (i + 1)
  | none => throw (.unexpectedTag wanted g)

theorem classNumber_eq (n : Nat) : classNumber n = (LengthClass.ofLength n).bytes := by
  unfold classNumber LengthClass.ofLength
  simp only [show LengthClass.maxLength .b8 = 0xff from rfl,
    show LengthClass.maxLength .b16 = 0xffff from rfl,
    show LengthClass.maxLength .b24 = 0xffffff from rfl]
  split_ifs <;> rfl

theorem lookUp_tags (k : PayloadKind) (c : LengthClass) :
    lookUp k.tags (c.bytes - 1) = pure (k.tag c) := by
  cases c <;> rfl

theorem lookUp_greatestLengths (c : LengthClass) :
    lookUp greatestLengths (c.bytes - 1) = pure c.maxLength := by
  cases c <;> rfl

theorem writeTaggedPrefixed_eq (g : Tag) (c : LengthClass) (b : Bytes) :
    writeTaggedPrefixed g c.bytes b = writeTaggedCounted g c b := by
  rw [writeTaggedPrefixed, lookUp_greatestLengths, pure_bind]
  rfl

theorem writeClass_eq (k : PayloadKind) (b : Bytes) :
    writeClass k.tags b =
      writeTaggedCounted (k.tag (.ofLength b.length)) (.ofLength b.length) b := by
  rw [writeClass]
  simp only [classNumber_eq]
  rw [lookUp_tags, pure_bind, writeTaggedPrefixed_eq]

theorem idxOf?_tags (k : PayloadKind) (c : LengthClass) :
    k.tags.idxOf? (k.tag c) = some (c.bytes - 1) := by
  cases k <;> cases c <;> rfl

theorem idxOf?_tags_eq_none {k : PayloadKind} {g : Tag} (other : ∀ c, g ≠ k.tag c) :
    k.tags.idxOf? g = none := by
  refine List.idxOf?_eq_none_iff.mpr fun found => ?_
  obtain ⟨c, -, rfl⟩ := List.mem_map.mp found
  exact other c rfl

theorem readClass_eq {k : PayloadKind} {rest : Tag → Op Nat} (own : ∀ c, rest (k.tag c) = counted c)
    (others : ∀ g, (∀ c, g ≠ k.tag c) → rest g = throw (.unexpectedTag k.wanted g)) :
    readClass k.tags k.wanted = restoring (do let g ← tag; rest g) := by
  -- The place of a tag in the table is the number of its class, less one.
  have found (c : LengthClass) : readPrefixed (c.bytes - 1 + 1) = counted c := by
    have back : c.bytes - 1 + 1 = c.bytes := Nat.sub_add_cancel c.width.bytes_pos
    rw [back]
    rfl
  rw [readClass]
  congr 2
  funext g
  by_cases here : ∃ c, g = k.tag c
  · obtain ⟨c, rfl⟩ := here
    rw [idxOf?_tags, own]
    exact found c
  · have apart (c : LengthClass) : g ≠ k.tag c := fun same => here ⟨c, same⟩
    rw [idxOf?_tags_eq_none apart, others g apart]

theorem readClass_blob : readClass PayloadKind.blob.tags .blob = anyBlob := by
  refine readClass_eq (k := .blob) (fun _ => rfl) fun g apart => ?_
  cases g with
  | blob c => exact absurd rfl (apart c)
  | integer | string | float32 | float64 | complex64 | complex128 => rfl

theorem readClass_string : readClass PayloadKind.string.tags .string = fillString := by
  refine readClass_eq (k := .string) (fun _ => rfl) fun g apart => ?_
  cases g with
  | string c => exact absurd rfl (apart c)
  | integer | blob | float32 | float64 | complex64 | complex128 => rfl

end Drive

/-! ## The least class -/

namespace LengthClass

def Tells (c : LengthClass) (n : Nat) : Prop := n < 256 ^ c.bytes

theorem maxLength_lt_iff {c : LengthClass} {n : Nat} : c.maxLength < n ↔ 256 ^ c.bytes ≤ n := by
  have pos := c.width.modulus_pos
  change c.width.modulus - 1 < n ↔ c.width.modulus ≤ n
  omega

theorem tells_iff {c : LengthClass} {n : Nat} : c.Tells n ↔ n ≤ c.maxLength := by
  rw [Tells, ← Nat.not_le, ← maxLength_lt_iff, Nat.not_lt]

theorem ofLength_least {n : Nat} (small : n < 2 ^ 32) :
    (ofLength n).Tells n ∧ ∀ c : LengthClass, c.Tells n → (ofLength n).bytes ≤ c.bytes := by
  simp only [tells_iff]
  have greatest : n ≤ maxLength .b32 := Nat.le_sub_one_of_lt small
  have above (c : LengthClass) : 1 ≤ c.bytes := c.width.bytes_pos
  unfold ofLength
  split_ifs with one two three
  · exact ⟨one, fun c _ => above c⟩
  · refine ⟨two, fun c told => ?_⟩
    cases c with
    | b8 => exact absurd told one
    | b16 | b24 | b32 => decide
  · refine ⟨three, fun c told => ?_⟩
    cases c with
    | b8 => exact absurd told one
    | b16 => exact absurd told two
    | b24 | b32 => decide
  · refine ⟨greatest, fun c told => ?_⟩
    cases c with
    | b8 => exact absurd told one
    | b16 => exact absurd told two
    | b24 => exact absurd told three
    | b32 => decide

theorem eq_of_bytes {c c' : LengthClass} (same : c.bytes = c'.bytes) : c = c' := by
  cases c <;> cases c' <;> first | rfl | cases same

theorem ofLength_of_great {n : Nat} (great : 2 ^ 32 ≤ n) : ofLength n = .b32 := by
  have beyond (c : LengthClass) (narrow : c.maxLength < 2 ^ 32) : ¬ n ≤ c.maxLength := by omega
  rw [ofLength, if_neg (beyond .b8 (by decide)), if_neg (beyond .b16 (by decide)),
    if_neg (beyond .b24 (by decide))]

end LengthClass

/-! ## Storing and reading back -/

namespace PayloadKind

theorem encode_stored {k : PayloadKind} {e : Entry} {b : Bytes} (stored : k.Stored e b) :
    e.encode =
      (Entry.counted (.ofLength b.length) b).map ((k.tag (.ofLength b.length)).code :: ·) := by
  cases stored <;> rfl

theorem counted_map (k : PayloadKind) {c : LengthClass} {b : Bytes} (told : c.Tells b.length) :
    (Entry.counted c b).map ((k.tag c).code :: ·) = .ok (k.encoding c b) := by
  rw [Entry.counted, if_neg (Nat.not_lt.mpr (LengthClass.tells_iff.mp told))]
  rfl

variable {c : LengthClass} {payload : Bytes} {capacity : Nat}

theorem decodes_load (k : PayloadKind) (told : c.Tells payload.length)
    (room : payload.length ≤ capacity) :
    (k.load.scan capacity).Decodes (k.encoding c payload) payload := by
  have fits := LengthClass.tells_iff.mp told
  cases k with
  | blob => exact Scan.decodes_anyBlob fits room
  | string => exact Scan.decodes_anyString fits room

theorem answer_load (k : PayloadKind) (payload : Bytes) :
    k.load.answer payload = .ok (k.answer payload) := by
  cases k <;> rfl

theorem runFrom_load_short (k : PayloadKind) (told : c.Tells payload.length)
    (short : capacity < payload.length)
    {array : Bytes} {pos : Nat} (stands : array.HasAt pos (k.encoding c payload)) :
    (k.load.scan capacity).runFrom array pos =
      pure (.error (.destinationTooSmall payload.length capacity)) := by
  obtain ⟨code, body⟩ := Bytes.HasAt.parts (b := [(k.tag c).code]) stands
  have tagged := Scan.decodes_tag (k.tag c) array pos code
  have announced := Scan.decodes_length (LengthClass.tells_iff.mp told) array _ body.parts.1
  have refused : (Scan.counted c capacity).runFrom array (pos + [(k.tag c).code].length) =
      pure (.error (.destinationTooSmall payload.length capacity)) := by
    rw [Scan.counted, Scan.runFrom_bind announced, if_pos short]
    rfl
  cases k with
  | blob => exact (Scan.runFrom_bind tagged).trans refused
  | string => exact (Scan.runFrom_bind tagged).trans refused

end PayloadKind

namespace Drive

open Tape (Reply)

variable {t : Tape}

theorem step_put_of_encode (inside : t.pos ≤ t.length) (fits : t.length ≤ maxLength)
    {e : Entry} {b : Bytes} (encoded : e.encode = .ok b) (room : b.length ≤ t.remaining) :
    step (.put e) t = .ok ⟨(Tape.Reply.done, ⟨t.bytes.overlay t.pos b, t.pos + b.length⟩), []⟩ := by
  have put := Tape.step_put e t
  simp only [encoded, if_neg (Nat.not_lt.mpr room)] at put
  exact (step_of_tape inside fits).mpr put

theorem step_put_of_overlong (inside : t.pos ≤ t.length) (fits : t.length ≤ maxLength) {e : Entry}
    {f : Failure}
    (refused : e.encode = .error f) : step (.put e) t = .ok ⟨(.plain (.error f), t), []⟩ := by
  have put := Tape.step_put e t
  simp only [refused] at put
  exact (step_of_tape inside fits).mpr put

theorem step_put_congr (inside : t.pos ≤ t.length) (fits : t.length ≤ maxLength) {e e' : Entry}
    (same : e.encode = e'.encode) : step (.put e) t = step (.put e') t := by
  rw [step_eq inside fits, step_eq inside fits, Tape.step_put, Tape.step_put, same]

theorem fails_overlong_iff (inside : t.pos ≤ t.length) (fits : t.length ≤ maxLength) {e : Entry}
    {c : LengthClass} {b : Bytes} (payload : e.payload? = some (c, b)) :
    Fails (.put e) t (.integerOverflow b.length (256 ^ c.bytes - 1)) ↔
      256 ^ c.bytes ≤ b.length := by
  have overlong := Entry.overlong?_of_payload payload (f := .integerOverflow b.length c.maxLength)
  rw [← LengthClass.maxLength_lt_iff]
  change Fails (.put e) t (.integerOverflow b.length c.maxLength) ↔ _
  rw [fails_put_iff inside fits, overlong]
  simp

theorem step_load_of_encoding (inside : t.pos ≤ t.length) (fits : t.length ≤ maxLength)
    (k : PayloadKind) {c : LengthClass} {payload dst : Bytes} (told : c.Tells payload.length)
    (stands : t.bytes.HasAt t.pos (k.encoding c payload))
    (room : payload.length ≤ dst.length) : step (.load k.load dst) t =
      .ok ⟨(.loaded (.ok (k.answer payload)) (payload ++ dst.drop payload.length),
        { t with pos := t.pos + (k.encoding c payload).length }), []⟩ := by
  have loaded := Tape.step_load_of_decodes (k.decodes_load told room) stands
  rw [k.answer_load, Bytes.overlay_zero] at loaded
  exact (step_of_tape inside fits).mpr loaded

theorem step_load_of_short (inside : t.pos ≤ t.length) (fits : t.length ≤ maxLength)
    (k : PayloadKind) {c : LengthClass} {payload dst : Bytes} (told : c.Tells payload.length)
    (stands : t.bytes.HasAt t.pos (k.encoding c payload))
    (short : dst.length < payload.length) : step (.load k.load dst) t =
      .ok ⟨(.loaded (.error (.destinationTooSmall payload.length dst.length)) dst, t), []⟩ :=
  (step_of_tape inside fits).mpr (Tape.step_load_of_error (k.runFrom_load_short told short stands))

/-- A payload is stored under the least class that can tell its length, and read back into any
destination that holds it. -/
theorem classes_least_and_readable (inside : t.pos ≤ t.length) (fits : t.length ≤ maxLength) :
    let Stores (e : Entry) (b : Bytes) : Prop :=
      step (.put e) t = .ok ⟨(Tape.Reply.done, ⟨t.bytes.overlay t.pos b, t.pos + b.length⟩), []⟩ ∧
        (t.bytes.overlay t.pos b).HasAt t.pos b
    let Least (c : LengthClass) (n : Nat) : Prop :=
      c.Tells n ∧ ∀ c' : LengthClass, c'.Tells n → c.bytes ≤ c'.bytes
    (∀ b, writeClass PayloadKind.blob.tags b = write (.anyBlob b)) ∧
    (∀ s, writeClass PayloadKind.string.tags (Utf8.encode s) = write (.text s)) ∧
    (∀ c b, writeTaggedPrefixed (.blob c) c.bytes b = write (.taggedBlob c b) ∧
      writePrefixed c.bytes c.maxLength b = write (.blob c b)) ∧
    (readClass PayloadKind.blob.tags .blob = anyBlob ∧
      readClass PayloadKind.string.tags .string = fillString) ∧
    (∀ k e b, PayloadKind.Stored k e b → b.length < 2 ^ 32 → ∃ c, Least c b.length ∧
      ((k.encoding c b).length ≤ t.remaining → Stores e (k.encoding c b))) ∧
    (∀ k e b, PayloadKind.Stored k e b → 2 ^ 32 ≤ b.length →
      step (.put e) t = .ok ⟨(.plain (.error (.integerOverflow b.length (2 ^ 32 - 1))), t), []⟩) ∧
    (∀ c b, Least c b.length → step (.put (.anyBlob b)) t = step (.put (.taggedBlob c b)) t) ∧
    (∀ (c : LengthClass) (b : Bytes),
      c.Tells b.length → (PayloadKind.blob.encoding c b).length ≤ t.remaining →
      Stores (.taggedBlob c b) (PayloadKind.blob.encoding c b)) ∧
    (∀ (c : LengthClass) (b : Bytes),
      (Fails (.put (.taggedBlob c b)) t (.integerOverflow b.length (256 ^ c.bytes - 1)) ↔
        256 ^ c.bytes ≤ b.length) ∧
      (Fails (.put (.blob c b)) t (.integerOverflow b.length (256 ^ c.bytes - 1)) ↔
        256 ^ c.bytes ≤ b.length)) ∧
    ∀ (k : PayloadKind) (c : LengthClass) (payload dst : Bytes), c.Tells payload.length →
      t.bytes.HasAt t.pos (k.encoding c payload) →
      (payload.length ≤ dst.length → step (.load k.load dst) t =
        .ok ⟨(.loaded (.ok (k.answer payload)) (payload ++ dst.drop payload.length),
          { t with pos := t.pos + (k.encoding c payload).length }), []⟩) ∧
      (dst.length < payload.length → step (.load k.load dst) t =
        .ok ⟨(.loaded (.error (.destinationTooSmall payload.length dst.length)) dst, t), []⟩) := by
  intro Stores Least
  have stores {e : Entry} {b : Bytes} (encoded : e.encode = .ok b) (room : b.length ≤ t.remaining) :
      Stores e b :=
    ⟨step_put_of_encode inside fits encoded room,
      List.prefix_iff_eq_take.mpr (Bytes.take_drop_overlay inside).symm⟩
  refine ⟨writeClass_eq .blob, fun s => writeClass_eq .string (Utf8.encode s),
    fun c b => ⟨writeTaggedPrefixed_eq (.blob c) c b, rfl⟩, ⟨readClass_blob, readClass_string⟩, ?_,
      ?_, ?_, ?_, ?_, ?_⟩
  · intro k e b stored small
    have least := LengthClass.ofLength_least small
    exact ⟨_, least, stores ((PayloadKind.encode_stored stored).trans (k.counted_map least.1))⟩
  · intro k e b stored great
    refine step_put_of_overlong inside fits ?_
    have beyond : LengthClass.b32.maxLength < b.length := LengthClass.maxLength_lt_iff.mpr great
    rw [PayloadKind.encode_stored stored, LengthClass.ofLength_of_great great, Entry.counted,
      if_pos beyond]
    rfl
  · intro c b least
    have small : b.length < 2 ^ 32 := least.1.trans_le (by cases c <;> decide)
    have mine := LengthClass.ofLength_least small
    have same : LengthClass.ofLength b.length = c :=
      LengthClass.eq_of_bytes (Nat.le_antisymm (mine.2 c least.1) (least.2 _ mine.1))
    refine step_put_congr inside fits ?_
    rw [← same]
    rfl
  · exact fun c b told room => stores (PayloadKind.blob.counted_map told) room
  · exact fun c b => ⟨fails_overlong_iff inside fits rfl, fails_overlong_iff inside fits rfl⟩
  · exact fun k c payload dst told stands =>
      ⟨step_load_of_encoding inside fits k told stands,
        step_load_of_short inside fits k told stands⟩

theorem classes_least_and_readable_wide :
    let t : Tape := ⟨List.replicate 8 0, 1⟩
    let t' : Tape := ⟨[0, 18, 2, 0, 7, 8, 0, 0], 1⟩
    t.pos ≤ t.length ∧ t.length ≤ maxLength ∧ t'.pos ≤ t'.length ∧ t'.length ≤ maxLength ∧
      step (.put (.taggedBlob .b16 [7, 8])) t = .ok ⟨(Tape.Reply.done, { t' with pos := 6 }), []⟩ ∧
      step (.load .anyBlob [1, 2, 3]) t' =
        .ok ⟨(.loaded (.ok (.count 2)) [7, 8, 3], { t' with pos := 6 }), []⟩ ∧
      step (.load .anyBlob [1]) t' =
        .ok ⟨(.loaded (.error (.destinationTooSmall 2 1)) [1], t'), []⟩ ∧
      ∃ c : LengthClass, c.Tells 2 ∧ (∀ c' : LengthClass, c'.Tells 2 → c.bytes ≤ c'.bytes) ∧
        step (.put (.anyBlob [7, 8])) t =
          .ok ⟨(Tape.Reply.done, ⟨t.bytes.overlay 1 (PayloadKind.blob.encoding c [7, 8]),
            1 + (PayloadKind.blob.encoding c [7, 8]).length⟩), []⟩ := by
  intro t t'
  have inside : t.pos ≤ t.length := by decide
  have fits : t.length ≤ maxLength := by decide
  have inside' : t'.pos ≤ t'.length := by decide
  have fits' : t'.length ≤ maxLength := by decide
  have told : LengthClass.Tells .b16 [7, 8].length := by
    unfold LengthClass.Tells
    decide
  have stands : t'.bytes.HasAt t'.pos (PayloadKind.blob.encoding .b16 [7, 8]) := ⟨[0, 0], rfl⟩
  obtain ⟨-, -, -, -, least, -, -, wide, -, -⟩ := classes_least_and_readable inside fits
  obtain ⟨-, -, -, -, -, -, -, -, -, readable⟩ := classes_least_and_readable inside' fits'
  obtain ⟨whole, -⟩ := readable .blob .b16 [7, 8] [1, 2, 3] told stands
  obtain ⟨c, lowest, stored⟩ := least .blob (.anyBlob [7, 8]) [7, 8] (.blob [7, 8]) (by decide)
  have room : (PayloadKind.blob.encoding c [7, 8]).length ≤ t.remaining := by cases c <;> decide
  exact ⟨inside, fits, inside', fits', (wide .b16 [7, 8] told (by decide)).1, whole (by decide),
    (readable .blob .b16 [7, 8] [1] told stands).2 (by decide), c, lowest.1, lowest.2,
    (stored room).1⟩

end Drive

end WireCodec
