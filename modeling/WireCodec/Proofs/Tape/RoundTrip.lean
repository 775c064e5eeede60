import WireCodec.Proofs.Tape.Encoding
import WireCodec.Proofs.Tape.Runs

/-!
# Reading back what was stored

Tagged entries stored one after another are read back, or skipped, in the same order.
`Entry.ReadBack` says which commands read an entry back, and what they reply; one entry is settled
by `step_readBack`, and a run by induction on its exchanges. What carries the induction is that
later entries leave the bytes before the head as they are.
-/

set_option autoImplicit false

namespace WireCodec

open Tape (Command Reply)

/-- The commands that read an entry back, and what they reply. A payload needs a destination that
holds it; the rest of the destination stays. -/
inductive Entry.ReadBack : Entry → Command → Reply → Prop where
  | skip (e : Entry) (t : Tag) (h : e.tag? = some t) :
    ReadBack e (.read .skip) (.plain (.ok (.tag t)))
  | word (w : Word) :
    ReadBack (.taggedWord w) (.read (.taggedWord w.format))
      (.plain (.ok (.int (w.format.reduce w.toInt))))
  | integer (v : Int64) : ReadBack (.integer v) (.read .integer) (.plain (.ok (.int v.toInt)))
  | float32
    (p : UInt32) : ReadBack (.taggedFloat32 p) (.read .taggedFloat32) (.plain (.ok (.float32 p)))
  | float64
    (p : UInt64) : ReadBack (.taggedFloat64 p) (.read .taggedFloat64) (.plain (.ok (.float64 p)))
  | complex64 (re im : UInt32) :
    ReadBack (.complex64 re im) (.read .complex64) (.plain (.ok (.complex64 re im)))
  | complex128 (re im : UInt64) :
    ReadBack (.complex128 re im) (.read .complex128) (.plain (.ok (.complex128 re im)))
  | blob (c : LengthClass) (b dst : Bytes) (room : b.length ≤ dst.length) :
    ReadBack (.taggedBlob c b) (.load (.taggedBlob c) dst)
      (.loaded (.ok (.count b.length)) (dst.overlay 0 b))
  | blobOfAny (c : LengthClass) (b dst : Bytes) (room : b.length ≤ dst.length) :
    ReadBack (.taggedBlob c b) (.load .anyBlob dst)
      (.loaded (.ok (.count b.length)) (dst.overlay 0 b))
  | anyBlob (b dst : Bytes) (room : b.length ≤ dst.length) :
    ReadBack (.anyBlob b) (.load .anyBlob dst) (.loaded (.ok (.count b.length)) (dst.overlay 0 b))
  | anyBlobOfClass (b dst : Bytes) (room : b.length ≤ dst.length) :
    ReadBack (.anyBlob b) (.load (.taggedBlob (.ofLength b.length)) dst)
      (.loaded (.ok (.count b.length)) (dst.overlay 0 b))
  | text (s : String) (dst : Bytes) (room : (Utf8.encode s).length ≤ dst.length) :
    ReadBack (.text s) (.load .text dst) (.loaded (.ok (.text s)) (dst.overlay 0 (Utf8.encode s)))
  | textBytes (s : String) (dst : Bytes) (room : (Utf8.encode s).length ≤ dst.length) :
    ReadBack (.text s) (.load .stringBytes dst)
      (.loaded (.ok (.bytes (Utf8.encode s))) (dst.overlay 0 (Utf8.encode s)))

namespace Tape

theorem step_of_decodes {r : Request} {b : Bytes} {a : Answer} {t : Tape}
    (decodes : r.scan.Decodes b a) (stands : t.bytes.HasAt t.pos b) :
    step (.read r) t = .ok (pure (.plain (.ok a), { t with pos := t.pos + b.length })) :=
  step_read (decodes t.bytes t.pos stands)

theorem step_load_of_decodes {l : Load} {dst b payload : Bytes} {t : Tape}
    (decodes : (l.scan dst.length).Decodes b payload)
    (stands : t.bytes.HasAt t.pos b) : step (.load l dst) t =
      .ok (pure (.loaded (l.answer payload) (dst.overlay 0 payload),
        { t with pos := t.pos + b.length })) :=
  step_load (decodes t.bytes t.pos stands)

theorem step_readBack {e : Entry} {c : Command} {reply : Reply} {b : Bytes} {t : Tape}
    (mirrored : e.ReadBack c reply) (encoded : e.encode = .ok b) (stands : t.bytes.HasAt t.pos b) :
    step c t = .ok (pure (reply, { t with pos := t.pos + b.length })) := by
  cases mirrored with
  | skip _ tag tagged =>
    obtain ⟨body, b_eq, spans⟩ := Entry.encode_spans tagged encoded
    subst b_eq
    exact step_of_decodes ((Scan.decodes_skip spans).map Answer.tag) stands
  | word w =>
    cases encoded
    obtain ⟨v, value, decodes⟩ := Scan.decodes_taggedWord w
    rw [← value]
    exact step_of_decodes (decodes.map fun v => Answer.int v.toInt) stands
  | integer v =>
    cases encoded
    have decodes := Scan.decodes_integer (.narrowest v.toInt) v.toUInt64.toNat
    rw [IntFormat.ofInt_read_narrowest] at decodes
    exact step_of_decodes (decodes.map fun v => Answer.int v.toInt) stands
  | float32 p =>
    cases encoded
    exact step_of_decodes ((Scan.decodes_taggedFloat32 p).map Answer.float32) stands
  | float64 p =>
    cases encoded
    exact step_of_decodes ((Scan.decodes_taggedFloat64 p).map Answer.float64) stands
  | complex64 re im =>
    cases encoded
    have decodes := (Scan.decodes_complex64 re im).map fun p => Answer.complex64 p.1 p.2
    rw [← Entry.littleDigits_parts] at decodes
    exact step_of_decodes decodes stands
  | complex128 re im =>
    cases encoded
    exact step_of_decodes ((Scan.decodes_complex128 re im).map fun p => Answer.complex128 p.1 p.2)
      stands
  | blob c payload dst room | anyBlobOfClass payload dst room =>
    obtain ⟨fits, b_eq⟩ := Entry.counted_map_eq_ok encoded
    subst b_eq
    exact step_load_of_decodes (Scan.decodes_taggedBlob fits room) stands
  | blobOfAny c payload dst room | anyBlob payload dst room =>
    obtain ⟨fits, b_eq⟩ := Entry.counted_map_eq_ok encoded
    subst b_eq
    exact step_load_of_decodes (Scan.decodes_anyBlob fits room) stands
  | text s dst room =>
    obtain ⟨fits, b_eq⟩ := Entry.counted_map_eq_ok encoded
    subst b_eq
    have answer : Load.text.answer (Utf8.encode s) = .ok (.text s) := by
      rw [Load.answer, Utf8.decode?_encode]
    rw [← answer]
    exact step_load_of_decodes (Scan.decodes_anyString fits room) stands
  | textBytes s dst room =>
    obtain ⟨fits, b_eq⟩ := Entry.counted_map_eq_ok encoded
    subst b_eq
    exact step_load_of_decodes (Scan.decodes_anyString fits room) stands

structure Exchange where
  entry : Entry
  command : Command
  reply : Reply
  readBack : entry.ReadBack command reply

theorem run_exchanges {exchanges : List Exchange} {t t' : Tape} {marks : List Nat}
    {events : List Event} (inside : t.pos ≤ t.length)
    (stored : run (exchanges.map fun x => .put x.entry) t =
      .ok ⟨(marks.map fun pos => (Reply.done, pos), t'), events⟩) :
    t'.length = t.length ∧ t'.bytes.take t.pos = t.bytes.take t.pos ∧
      run (exchanges.map Exchange.command) { t' with pos := t.pos } =
        .ok (pure ((exchanges.map Exchange.reply).zip marks, t')) := by
  induction exchanges generalizing t marks with
  | nil =>
    cases marks with
    | nil =>
      cases stored
      exact ⟨rfl, rfl, rfl⟩
    | cons pos marks => cases stored
  | cons x exchanges ih =>
    cases marks with
    | nil =>
      obtain ⟨notes, none_noted, -⟩ := of_run_cons (step_put x.entry t) stored
      cases none_noted
    | cons pos marks =>
      obtain ⟨b, encoded, room, pos_eq, others⟩ := of_run_put stored
      unfold remaining at room
      have grown : t.pos + b.length ≤ t.length := by omega
      have length_eq : (t.bytes.overlay t.pos b).length = t.length :=
        Bytes.length_overlay _ _ _ grown
      -- The others are stored behind this entry, so its bytes still stand where they were put.
      obtain ⟨same_length, kept, read⟩ := ih (t := ⟨_, _⟩) (by rwa [length, length_eq]) others
      have front_length : (t.bytes.take t.pos).length = t.pos := List.length_take_of_le inside
      have front : t'.bytes.take ((t.bytes.take t.pos).length + b.length) =
          t.bytes.take t.pos ++ b := by
        rw [front_length, ← Bytes.take_overlay _ _ _ inside]
        exact kept
      obtain ⟨before, stands⟩ := Bytes.HasAt.of_take front
      rw [front_length] at before stands
      have first := step_readBack (t := { t' with pos := t.pos }) x.readBack encoded stands
      refine ⟨same_length.trans length_eq, before, ?_⟩
      rw [List.map_cons, run_cons first, read]
      subst pos_eq
      rfl

/-- Wherever tagged entries were stored one after another, reading or skipping each in turn replies
with what was stored, and meets every mark. -/
theorem read_back_stored {exchanges : List Exchange} {t t' : Tape} {start : Nat} {marks : List Nat}
    {events : List Event}
    (stored : run (.seek start :: exchanges.map fun x => .put x.entry) t =
      .ok ⟨((start :: marks).map fun pos => (Reply.done, pos), t'), events⟩) :
    run (.seek start :: exchanges.map Exchange.command) t' =
      .ok (pure ((Reply.done, start) :: (exchanges.map Exchange.reply).zip marks, t')) := by
  obtain ⟨notes, sought, others⟩ := of_run_cons (step_seek start t) stored
  by_cases beyond : t.length < start
  · rw [if_pos beyond] at sought
    cases sought
  · rw [if_neg beyond] at sought others
    cases sought
    obtain ⟨same_length, -, read⟩ := run_exchanges (Nat.le_of_not_lt beyond) others
    have within : ¬ t'.length < start := by rwa [same_length]
    rw [run_cons (step_seek start t'), if_neg within, read]
    rfl

theorem read_back_stored_small :
    let exchanges : List Exchange :=
      [⟨_, _, _, .integer 200⟩, ⟨_, _, _, .skip (.anyBlob [7, 8]) _ rfl⟩,
        ⟨_, _, _, .word (.u24 0x1000005)⟩, ⟨_, _, _, .text "ab" [0, 0, 9] (by decide)⟩]
    let t' : Tape := ⟨[0, 1, 200, 17, 2, 7, 8, 3, 5, 0, 0, 21, 2, 97, 98, 0], 15⟩
    run (.seek 1 :: exchanges.map fun x => .put x.entry) (.ofBytes (List.replicate 16 0)) =
        .ok ⟨([1, 3, 7, 11, 15].map fun pos => (Reply.done, pos), t'), []⟩ ∧
      run (.seek 1 :: exchanges.map Exchange.command) t' =
        .ok (pure
          ([(Reply.done, 1), (.plain (.ok (.int 200)), 3), (.plain (.ok (.tag (.blob .b8))), 7),
            (.plain (.ok (.int 5)), 11), (.loaded (.ok (.text "ab")) [97, 98, 9], 15)], t')) := by
  intro exchanges t'
  have stored :
      run (.seek 1 :: exchanges.map fun x => .put x.entry) (.ofBytes (List.replicate 16 0)) =
      .ok ⟨([1, 3, 7, 11, 15].map fun pos => (Reply.done, pos), t'), []⟩ := by
    rfl
  exact ⟨stored, read_back_stored stored⟩

end Tape

end WireCodec
