import WireCodec.Proofs.Tape.Atomicity
import WireCodec.Proofs.Tape.RoundTrip
import WireCodec.Proofs.Tape.Safety

/-!
# Locality of reading

A scan that succeeds has decoded the bytes that it moved over: wherever those bytes stand, in
whatever array, it gives the same value. So nothing before or behind a value plays a part in reading
it, no value that is complete is the beginning of another, and values that are put one behind
another are read one after another.
-/

set_option autoImplicit false

namespace WireCodec

namespace Bytes.HasAt

variable {array b c : Bytes} {pos : Nat}

theorem nil (array : Bytes) (pos : Nat) : array.HasAt pos [] := List.nil_prefix

theorem append (front : array.HasAt pos b) (back : array.HasAt (pos + b.length) c) :
    array.HasAt pos (b ++ c) := by
  obtain ⟨rest, whole⟩ := front
  obtain ⟨rest', whole'⟩ := back
  refine ⟨rest', ?_⟩
  rw [← List.drop_drop, ← whole, List.drop_left] at whole'
  rw [List.append_assoc, whole', whole]

theorem window {n : Nat} (room : n ≤ array.length - pos) :
    array.HasAt pos ((array.drop pos).take n) ∧ ((array.drop pos).take n).length = n := by
  refine ⟨List.take_prefix _ _, ?_⟩
  rw [List.length_take, List.length_drop, Nat.min_eq_left room]

theorem of_getElem? {code : UInt8} (here : array[pos]? = some code) : array.HasAt pos [code] := by
  obtain ⟨inside, rfl⟩ := List.getElem?_eq_some_iff.mp here
  exact ⟨array.drop (pos + 1), (List.drop_eq_getElem_cons inside).symm⟩

end Bytes.HasAt

theorem Layout.Ends.spans {l : Layout} {array : Bytes} {pos q : Nat} (ends : l.Ends array pos q) :
    ∃ b, array.HasAt pos b ∧ q = pos + b.length ∧ l.Spans b := by
  cases l with
  | fixed size =>
    obtain ⟨room, rfl⟩ := ends
    obtain ⟨stands, length_eq⟩ := Bytes.HasAt.window room
    exact ⟨_, stands, by rw [length_eq], length_eq⟩
  | counted c =>
    obtain ⟨enough, room, rfl⟩ := ends
    obtain ⟨front, size⟩ := Bytes.HasAt.window enough
    obtain ⟨back, count⟩ := Bytes.HasAt.window room
    unfold Bytes.announced at back count room ⊢
    generalize (array.drop pos).take c.bytes = field at front size back count room ⊢
    generalize (array.drop (pos + c.bytes)).take (littleValue field) = payload at back count
    have digits := littleDigits_littleValue field
    have small : littleValue field < c.width.modulus :=
      (littleValue_lt field).trans_eq (congrArg (256 ^ ·) size)
    rw [size] at digits
    rw [← size] at back
    refine ⟨field ++ payload, front.append back, ?_, payload, ?_, ?_⟩
    · rw [List.length_append, size, count, Nat.add_assoc]
    · unfold LengthClass.maxLength Width.maxUnsigned
      omega
    · rw [count, digits]

namespace Scan

variable {α β : Type}

/-- Whether a scan that succeeds has decoded the bytes it moved over, and reported nothing. -/
def Local (s : Scan α) : Prop :=
  ∀ (array : Bytes) (pos : Nat) (v : α) (q : Nat) (events : List Event),
    s.runFrom array pos = ⟨.ok (v, q), events⟩ →
    events = [] ∧ ∃ b, array.HasAt pos b ∧ q = pos + b.length ∧ s.Decodes b v

theorem local_pure (v : α) : (pure v : Scan α).Local := by
  intro array pos w q events h
  cases h
  exact ⟨rfl, [], .nil array pos, rfl, decodes_pure v⟩

theorem local_throw (f : Failure) : (throw f : Scan α).Local := by
  intro array pos v q events h
  cases h

theorem Local.bind {s : Scan α} {f : α → Scan β} (first : s.Local) (second : ∀ v, (f v).Local) :
    (s >>= f).Local := by
  intro array pos w q events h
  rw [runFrom_bind_eq] at h
  rcases outcome : s.runFrom array pos with ⟨_ | ⟨v, mid⟩, before⟩
  · rw [outcome] at h
    cases h
  · rw [outcome] at h
    obtain ⟨rfl, b, front, rfl, decodes⟩ := first array pos v mid before outcome
    dsimp only at h
    rcases rest : (f v).runFrom array (pos + b.length) with ⟨result, after⟩
    rw [rest] at h
    cases h
    obtain ⟨rfl, c, back, rfl, decodes'⟩ := second v array (pos + b.length) w q after rest
    refine ⟨rfl, b ++ c, front.append back, ?_, decodes.bind decodes'⟩
    rw [List.length_append, Nat.add_assoc]

theorem Local.map {s : Scan α} (h : s.Local) (g : α → β) : (do let v ← s; pure (g v)).Local :=
  h.bind fun v => local_pure (g v)

theorem local_advance (n : Nat) : (advance n).Local := by
  intro array pos v q events h
  rw [runFrom_advance] at h
  split at h
  · cases h
  · next enough =>
    cases h
    obtain ⟨stands, size⟩ := Bytes.HasAt.window (Nat.le_of_not_lt enough)
    have decodes := decodes_advance ((array.drop pos).take n)
    rw [size] at decodes
    exact ⟨rfl, _, stands, by rw [size], decodes⟩

theorem local_bytes (n : Nat) : (bytes n).Local := by
  intro array pos v q events h
  rw [runFrom_bytes] at h
  split at h
  · cases h
  · next enough =>
    cases h
    obtain ⟨stands, size⟩ := Bytes.HasAt.window (Nat.le_of_not_lt enough)
    have decodes := decodes_bytes ((array.drop pos).take n)
    rw [size] at decodes
    exact ⟨rfl, _, stands, by rw [size], decodes⟩

theorem local_number (w : Width) : (number w).Local := (local_bytes w.bytes).map littleValue

theorem local_word (f : IntFormat) : (word f).Local := (local_number f.width).map f.word

theorem local_pattern32 : pattern32.Local := (local_number .b32).map UInt32.ofNat

theorem local_pattern64 : pattern64.Local := (local_number .b64).map UInt64.ofNat

theorem local_counted (c : LengthClass) (capacity : Nat) : (counted c capacity).Local := by
  refine (local_number c.width).bind fun n => ?_
  split
  · exact local_throw _
  · exact local_bytes n

theorem local_tag : tag.Local := by
  intro array pos g q events h
  obtain rfl := quiet_tag array pos (g, q) events h
  obtain ⟨here, rfl⟩ := runFrom_tag_eq_ok.mp h
  exact ⟨rfl, [g.code], .of_getElem? here, rfl, decodes_tag g⟩

theorem local_expect (g : Tag) : (expect g).Local := by
  refine local_tag.bind fun found => ?_
  split
  · exact local_pure ()
  · exact local_throw _

theorem local_drain (g : Tag) : (drain g).Local := by
  intro array pos n q events h
  obtain rfl := quiet_drain g array pos (n, q) events h
  obtain ⟨ends, rfl⟩ := runFrom_drain_eq_ok.mp h
  obtain ⟨b, stands, rfl, spans⟩ := ends.spans
  refine ⟨rfl, b, stands, rfl, ?_⟩
  rw [Nat.add_sub_cancel_left]
  exact decodes_drain spans

theorem local_skip : skip.Local := local_tag.bind fun g => (local_drain g).map fun _ => g

theorem local_strict (g : Tag) {s : Scan α} (h : s.Local) : (do expect g; s).Local :=
  (local_expect g).bind fun _ => h

theorem local_pair {s : Scan α} (h : s.Local) : (do let re ← s; let im ← s; pure (re, im)).Local :=
  h.bind fun re => h.map fun im => (re, im)

theorem local_integer : integer.Local := by
  refine local_tag.bind fun g => ?_
  cases g with
  | integer f => exact (local_number f.width).map _
  | float32 => exact local_pattern32.map _
  | float64 => exact local_pattern64.map _
  | blob c | string c | complex64 | complex128 => exact local_throw _

theorem local_float : float.Local := by
  refine local_tag.bind fun g => ?_
  cases g with
  | integer f => exact (local_number f.width).map _
  | float32 => exact local_pattern32.map _
  | float64 => exact local_pattern64
  | blob c | string c | complex64 | complex128 => exact local_throw _

theorem local_anyBlob (capacity : Nat) : (anyBlob capacity).Local := by
  refine local_tag.bind fun g => ?_
  cases g with
  | blob c => exact local_counted c capacity
  | integer f | string c | float32 | float64 | complex64 | complex128 => exact local_throw _

theorem local_anyString (capacity : Nat) : (anyString capacity).Local := by
  refine local_tag.bind fun g => ?_
  cases g with
  | string c => exact local_counted c capacity
  | integer f | blob c | float32 | float64 | complex64 | complex128 => exact local_throw _

end Scan

namespace Tape

/-- Whether a command reads, and moves the head over what it reads. -/
def Command.reads : Command → Bool
  | .read .peek => false
  | .read _ | .readTag | .readUInt _ | .load .. => true
  | .put _ | .writeUInt .. | .seek _ | .rewind => false

theorem Request.local_scan {r : Request} (moves : r ≠ .peek) : r.scan.Local := by
  cases r with
  | peek => exact absurd rfl moves
  | word w => exact (Scan.local_word (.unsigned w)).map _
  | float32 => exact Scan.local_pattern32.map _
  | float64 => exact Scan.local_pattern64.map _
  | bytes n => exact (Scan.local_bytes n).map _
  | taggedWord f => exact (Scan.local_strict (.integer f) (Scan.local_word f)).map _
  | taggedFloat32 => exact (Scan.local_strict .float32 Scan.local_pattern32).map _
  | taggedFloat64 => exact (Scan.local_strict .float64 Scan.local_pattern64).map _
  | complex64 => exact (Scan.local_strict .complex64 (Scan.local_pair Scan.local_pattern32)).map _
  | complex128 => exact (Scan.local_strict .complex128 (Scan.local_pair Scan.local_pattern64)).map _
  | integer => exact Scan.local_integer.map _
  | float => exact Scan.local_float.map _
  | expect g => exact (Scan.local_expect g).map _
  | drain g => exact (Scan.local_drain g).map _
  | skip => exact Scan.local_skip.map _
  | advance n => exact (Scan.local_advance n).map _

theorem Load.local_scan (l : Load) (capacity : Nat) : (l.scan capacity).Local := by
  cases l with
  | slice => exact Scan.local_bytes capacity
  | blob c => exact Scan.local_counted c capacity
  | taggedBlob c => exact Scan.local_strict (.blob c) (Scan.local_counted c capacity)
  | anyBlob => exact Scan.local_anyBlob capacity
  | stringBytes | text => exact Scan.local_anyString capacity

/-- Wherever the bytes `b` stand at the head, the command replies the same and moves the head behind
them. -/
def Reads (c : Command) (b : Bytes) (reply : Reply) : Prop :=
  ∀ u : Tape, u.bytes.HasAt u.pos b →
    step c u = .ok (pure (reply, { u with pos := u.pos + b.length }))

theorem reads_tag (g : Tag) : Reads .readTag [g.code] (.plain (.ok (.tag g))) := by
  intro u stands
  refine step_readTag_eq_ok.mpr ?_
  obtain ⟨rest, whole⟩ := stands
  have here := congrArg (fun b : Bytes => b[0]?) whole
  simpa using here.symm

theorem reads_uint {width : Nat} {w : Width} (known : Width.ofBytes? width = some w) {b : Bytes}
    (size : b.length = width) :
    Reads (.readUInt width) b (.plain (.ok (.int (littleValue b)))) := by
  intro u stands
  have room : width ≤ u.remaining := size.symm.trans_le stands.length_le
  have taken := stands.take_eq
  rw [size] at taken
  rw [step_readUInt_eq, if_neg (Nat.not_lt.mpr room), known, taken, size]

theorem reads_of_step {c : Command} (reads : c.reads = true) {t t' : Tape} {reply : Reply}
    {events : List Event}
    (stepped : step c t = .ok ⟨(reply, t'), events⟩) (success : reply.failure? = none) :
    events = [] ∧ ∃ b, t.bytes.HasAt t.pos b ∧ t' = { t with pos := t.pos + b.length } ∧
    Reads c b reply := by
  cases c with
  | put _ | writeUInt _ _ | seek _ | rewind => cases reads
  | read r =>
    have moves : r ≠ .peek := by
      rintro rfl
      cases reads
    rcases outcome : r.scan.runFrom t.bytes t.pos with ⟨f | ⟨a, q⟩, noted⟩
    · rw [step_read_of_error outcome] at stepped
      cases stepped
      cases success
    · rw [step_read_of_ok outcome] at stepped
      cases stepped
      obtain ⟨rfl, b, stands, rfl, decodes⟩ := Request.local_scan moves _ _ _ _ _ outcome
      exact ⟨rfl, b, stands, rfl, fun _ there => step_of_decodes decodes there⟩
  | load l dst =>
    rcases outcome : (l.scan dst.length).runFrom t.bytes t.pos with ⟨f | ⟨payload, q⟩, noted⟩
    · rw [step_load_of_error outcome] at stepped
      cases stepped
      cases success
    · rw [step_load_of_ok outcome] at stepped
      cases stepped
      obtain ⟨rfl, b, stands, rfl, decodes⟩ := l.local_scan dst.length _ _ _ _ _ outcome
      exact ⟨rfl, b, stands, rfl, fun _ there => step_load_of_decodes decodes there⟩
  | readTag =>
    rw [step_readTag_eq] at stepped
    cases here : t.bytes[t.pos]? with
    | none =>
      rw [here] at stepped
      cases stepped
      cases success
    | some code =>
      rw [here] at stepped
      dsimp only at stepped
      cases known : Tag.ofCode? code with
      | none =>
        rw [known] at stepped
        cases stepped
        cases success
      | some g =>
        rw [known] at stepped
        cases stepped
        obtain rfl := Tag.ofCode?_eq_some.mp known
        exact ⟨rfl, _, .of_getElem? here, rfl, reads_tag g⟩
  | readUInt width =>
    rw [step_readUInt_eq] at stepped
    split at stepped
    · cases stepped
      cases success
    · next room =>
      cases known : Width.ofBytes? width with
      | none =>
        rw [known] at stepped
        cases stepped
      | some w =>
        rw [known] at stepped
        cases stepped
        obtain ⟨stands, size⟩ := Bytes.HasAt.window (Nat.le_of_not_lt room)
        exact ⟨rfl, _, stands, by rw [size], reads_uint known size⟩

theorem encode_prefix_free {e e' : Entry} {g g' : Tag} {b b' : Bytes} (tagged : e.tag? = some g)
    (tagged' : e'.tag? = some g')
    (encoded : e.encode = .ok b) (encoded' : e'.encode = .ok b') (front : b <+: b') : b = b' := by
  obtain ⟨body, rfl, spans⟩ := Entry.encode_spans tagged encoded
  obtain ⟨body', rfl, spans'⟩ := Entry.encode_spans tagged' encoded'
  -- Skipping stops behind the first of them, and behind the second.
  have first := Scan.decodes_skip spans (g'.code :: body') 0 front
  have second := Scan.decodes_skip spans' (g'.code :: body') 0 (List.prefix_refl _)
  have same := congrArg (fun l : Logged (Except Failure (Tag × Nat)) => l.value.map Prod.snd)
    (first.symm.trans second)
  exact front.eq_of_length (by simpa [Except.map] using same)

end Tape

namespace Drive

open Tape (Command Reads Reply)

variable {c : Command} {t t' u : Tape} {b : Bytes} {reply reply' : Reply} {events : List Event}

theorem step_of_reads (reads : Reads c b reply) (inside : u.pos ≤ u.length)
    (fits : u.length ≤ maxLength) (stands : u.bytes.HasAt u.pos b) :
    step c u = .ok (pure (reply, { u with pos := u.pos + b.length })) :=
  (step_of_tape inside fits).mpr (reads u stands)

theorem step_elsewhere (reads : c.reads = true) (inside : t.pos ≤ t.length)
    (fits : t.length ≤ maxLength)
    (stepped : step c t = .ok ⟨(reply, t'), events⟩) (success : reply.failure? = none) :
    events = [] ∧ t'.bytes = t.bytes ∧ t.pos ≤ t'.pos ∧
      ∀ u : Tape, u.pos ≤ u.length → u.length ≤ maxLength → u.bytes.HasAt u.pos (t'.since t.pos) →
        step c u = .ok (pure (reply, { u with pos := u.pos + (t'.pos - t.pos) })) := by
  obtain ⟨rfl, b, stands, rfl, same⟩ :=
    Tape.reads_of_step reads ((step_of_tape inside fits).mp stepped) success
  refine ⟨rfl, rfl, Nat.le_add_right _ _, fun u inside' fits' there => ?_⟩
  have taken : Tape.since { t with pos := t.pos + b.length } t.pos = b := by
    rw [Tape.since, Nat.add_sub_cancel_left]
    exact stands.take_eq
  rw [taken] at there
  rw [Nat.add_sub_cancel_left]
  exact step_of_reads same inside' fits' there

/-- Bytes that a command takes whole where they stand alone. -/
structure Complete (c : Command) (b : Bytes) (reply : Reply) : Prop where
  reads : c.reads = true
  success : reply.failure? = none
  taken : step c (.ofBytes b) = .ok (pure (reply, ⟨b, b.length⟩))

theorem Complete.elsewhere (complete : Complete c b reply) (inside : u.pos ≤ u.length)
    (fits : u.length ≤ maxLength) (stands : u.bytes.HasAt u.pos b) :
    step c u = .ok (pure (reply, { u with pos := u.pos + b.length })) := by
  have short : b.length ≤ maxLength := by
    have le := stands.length_le
    unfold Tape.length at fits
    omega
  obtain ⟨-, -, -, same⟩ :=
    step_elsewhere (t := .ofBytes b) complete.reads (Nat.zero_le _) short complete.taken
      complete.success
  have taken : Tape.since ⟨b, b.length⟩ 0 = b := List.take_length
  exact same u inside fits (taken.symm ▸ stands)

theorem Complete.eq_of_prefix {x y : Bytes} (first : Complete c x reply)
    (second : Complete c y reply')
    (fits : y.length ≤ maxLength) (front : x <+: y) : x = y ∧ reply = reply' := by
  have both :=
    (first.elsewhere (u := .ofBytes y) (Nat.zero_le _) fits front).symm.trans second.taken
  obtain ⟨same, ends⟩ := Prod.mk.inj (congrArg Logged.value (Except.ok.inj both))
  have length_eq : 0 + x.length = y.length := congrArg Tape.pos ends
  exact ⟨front.eq_of_length (by omega), same⟩

theorem complete_of_encode {x : Tape.Exchange} (encoded : x.entry.encode = .ok b)
    (fits : b.length ≤ maxLength) :
    Complete x.command b x.reply := by
  obtain ⟨e, c, reply, mirrored⟩ := x
  have stands : (Tape.ofBytes b).bytes.HasAt (Tape.ofBytes b).pos b := List.prefix_refl b
  have taken := Tape.step_readBack mirrored encoded stands
  rw [show (Tape.ofBytes b).pos + b.length = b.length from Nat.zero_add _] at taken
  refine ⟨?_, ?_, (step_of_tape (t := .ofBytes b) (Nat.zero_le _) fits).mpr taken⟩
  · cases mirrored <;> rfl
  · cases mirrored <;> rfl

structure Value where
  command : Command
  bytes : Bytes
  reply : Reply
  complete : Complete command bytes reply

theorem run_values {values : List Value} (inside : u.pos ≤ u.length) (fits : u.length ≤ maxLength)
    (stands : u.bytes.HasAt u.pos (values.flatMap Value.bytes)) :
    ∃ notes, run (values.map Value.command) u =
        .ok (pure (notes, { u with pos := u.pos + (values.flatMap Value.bytes).length })) ∧
      notes.map Prod.fst = values.map Value.reply := by
  induction values generalizing u with
  | nil => exact ⟨[], rfl, rfl⟩
  | cons v values ih =>
    rw [List.flatMap_cons] at stands ⊢
    obtain ⟨front, back⟩ := stands.parts
    have first := v.complete.elsewhere inside fits front
    have inside' : u.pos + v.bytes.length ≤ u.length := Nat.add_le_of_le_sub' inside front.length_le
    obtain ⟨notes, others, replies⟩ :=
      ih (u := { u with pos := u.pos + v.bytes.length }) inside' fits back
    refine ⟨(v.reply, u.pos + v.bytes.length) :: notes, ?_, congrArg (v.reply :: ·) replies⟩
    rw [List.map_cons, run, first]
    simp only [bind, Except.bind, pure, others, List.length_append, Nat.add_assoc]
    rfl

/-- A command reads the same wherever the bytes stand that it moves over, so no complete value is
the beginning of another. -/
theorem reads_are_local :
    (∀ (c : Command) (t t' : Tape) (reply : Reply) (events : List Event),
      c.reads = true → t.pos ≤ t.length →
      t.length ≤ maxLength → step c t = .ok ⟨(reply, t'), events⟩ → reply.failure? = none →
      events = [] ∧ t'.bytes = t.bytes ∧ t.pos ≤ t'.pos ∧
        ∀ u : Tape, u.pos ≤ u.length → u.length ≤ maxLength → u.bytes.HasAt u.pos (t'.since t.pos) →
          step c u = .ok (pure (reply, { u with pos := u.pos + (t'.pos - t.pos) }))) ∧
    (∀ (c : Command) (x y : Bytes) (reply reply' : Reply),
      Complete c x reply → Complete c y reply' →
      y.length ≤ maxLength → x <+: y → x = y ∧ reply = reply') ∧
    (∀ (e e' : Entry) (g g' : Tag) (b b' : Bytes),
      e.tag? = some g → e'.tag? = some g' → e.encode = .ok b →
      e'.encode = .ok b' → b <+: b' → b = b') ∧
    (∀ (x : Tape.Exchange) (b : Bytes),
      x.entry.encode = .ok b → b.length ≤ maxLength → Complete x.command b x.reply) ∧
    ∀ (values : List Value) (u : Tape), u.pos ≤ u.length → u.length ≤ maxLength →
      u.bytes.HasAt u.pos (values.flatMap Value.bytes) →
      ∃ notes, run (values.map Value.command) u =
          .ok (pure (notes, { u with pos := u.pos + (values.flatMap Value.bytes).length })) ∧
        notes.map Prod.fst = values.map Value.reply := by
  refine ⟨?_, ?_, ?_, ?_, ?_⟩
  · intro c t t' reply events reads inside fits stepped success
    exact step_elsewhere reads inside fits stepped success
  · intro c x y reply reply' first second fits front
    exact first.eq_of_prefix second fits front
  · intro e e' g g' b b' tagged tagged' encoded encoded' front
    exact Tape.encode_prefix_free tagged tagged' encoded encoded' front
  · intro x b encoded fits
    exact complete_of_encode encoded fits
  · intro values u inside fits stands
    exact run_values inside fits stands

theorem reads_are_local_blob :
    let c : Command := .load .anyBlob [0, 0, 0]
    let t : Tape := ⟨[9, 17, 2, 7, 8, 17], 1⟩
    let u : Tape := ⟨[17, 2, 17, 2, 7, 8], 2⟩
    let reply : Reply := .loaded (.ok (.count 2)) [7, 8, 0]
    step c t = .ok (pure (reply, { t with pos := 5 })) ∧
      step c u = .ok (pure (reply, { u with pos := 6 })) ∧
      (∀ y reply', Complete c y reply' → y.length ≤ maxLength → [17, 2, 7, 8] <+: y →
        [17, 2, 7, 8] = y) ∧
      ¬ ([1, 200] : Bytes) <+: [17, 2, 7, 8] ∧
      ∃ notes, run [.read .integer, c] ⟨[5, 1, 200, 17, 2, 7, 8], 1⟩ =
          .ok (pure (notes, ⟨[5, 1, 200, 17, 2, 7, 8], 7⟩)) ∧
        notes.map Prod.fst = [.plain (.ok (.int 200)), reply] := by
  intro c t u reply
  obtain ⟨elsewhere, distinct, encodings, encoded, together⟩ := reads_are_local
  have here : step c t = .ok (pure (reply, { t with pos := 5 })) :=
    (step_of_tape (by decide) (by decide)).mpr rfl
  obtain ⟨-, -, -, there⟩ := elsewhere c t _ reply [] rfl (by decide) (by decide) here rfl
  have blob : Complete c [17, 2, 7, 8] reply :=
    encoded ⟨.anyBlob [7, 8], c, reply, .anyBlob [7, 8] [0, 0, 0] (by decide)⟩ _ rfl (by decide)
  have integer : Complete (.read .integer) [1, 200] (.plain (.ok (.int 200))) :=
    encoded ⟨.integer 200, _, _, .integer 200⟩ _ rfl (by decide)
  have both := together [⟨_, _, _, integer⟩, ⟨_, _, _, blob⟩] ⟨[5, 1, 200, 17, 2, 7, 8], 1⟩
    (by decide) (by decide) (List.prefix_refl _)
  refine ⟨here, there u (by decide) (by decide) (List.prefix_refl _), ?_, ?_, both⟩
  · intro y reply' complete fits front
    exact (distinct c _ y reply reply' blob complete fits front).1
  · intro front
    have same :=
      encodings (.integer 200) (.anyBlob [7, 8]) _ _ [1, 200] [17, 2, 7, 8] rfl rfl rfl rfl front
    cases same

end Drive

end WireCodec
