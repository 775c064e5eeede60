import WireCodec.Proofs.Stream.Reporting

/-!
# Calls that are passed on

A stream can stand in for its sink or its source: a buffer is then handed on as it is, and the
answer is the other's own. An answer that is a failure is kept like any other. A strict stream that
keeps a failure does not pass the call on but answers with that failure, told as an error of the
outside. So the error is told in two ways, as it was met and from what is kept, and both tell the
same. `ErrorSlot.adapt` is all there is to such a call; three calls are made of it.
-/

set_option autoImplicit false

namespace WireCodec

/-- An error of the outside tells a failure: by its message, and by the kind that goes with it. -/
structure Failure.Surfaces (f : Failure) (e : IoError) : Prop where
  message : e.message = f.message
  inner : ∀ g, f = .io g → e.kind = g.kind
  cut : ∀ written expected, f = .shortWrite written expected → e.kind = .writeZero
  ended : ∀ read expected, f = .shortRead read expected → e.kind = .unexpectedEof
  data : f.isIo = false → e.kind = .invalidData

theorem Failure.surfaces_iff {f : Failure} {e : IoError} : f.Surfaces e ↔ e = f.toIoError := by
  constructor
  · rintro ⟨message, inner, cut, ended, data⟩
    obtain ⟨kind, text⟩ := e
    obtain rfl : text = f.message := message
    have kind_eq : kind = f.toIoError.kind := by
      cases f with
      | io g => exact inner g rfl
      | shortWrite written expected => exact cut written expected rfl
      | shortRead read expected => exact ended read expected rfl
      | _ => exact data rfl
    rw [kind_eq]
    rfl
  · rintro rfl
    refine ⟨rfl, ?_, ?_, ?_, fun plain => ?_⟩
    · rintro g rfl
      rfl
    · rintro _ _ rfl
      rfl
    · rintro _ _ rfl
      rfl
    · cases f with
      | io _ | shortWrite _ _ | shortRead _ _ => cases plain
      | _ => rfl

section Adapter

variable {σ α : Type}

/-- Passes a call on, unless a failure is in the way; `own` is what the other end answers, and what
it is then. -/
def ErrorSlot.adapt (slot : ErrorSlot) (side : Side) (end_ : σ) (own : Except IoError α × σ) :
    Logged (Except IoError α × ErrorSlot × σ) :=
  match slot.obstacle? with
  | some f => pure (.error f.toIoError, slot, end_)
  | none =>
    match own.1 with
    | .error e => ⟨(.error e, slot.keeping (.io e), own.2), slot.news side (.io e)⟩
    | .ok v => pure (.ok v, slot, own.2)

variable {slot : ErrorSlot} {end_ rest : σ}

theorem ErrorSlot.adapt_of_obstacle {f : Failure} (obstacle : slot.obstacle? = some f) (side : Side)
    (own : Except IoError α × σ) :
    slot.adapt side end_ own = pure (.error f.toIoError, slot, end_) := by
  rw [adapt, obstacle]

theorem ErrorSlot.adapt_of_error (free : slot.obstacle? = none) (side : Side) (e : IoError) :
    slot.adapt side end_ ((.error e : Except IoError α), rest) =
      ⟨(.error e, slot.keeping (.io e), rest), slot.news side (.io e)⟩ := by
  rw [adapt, free]

theorem ErrorSlot.adapt_of_ok (free : slot.obstacle? = none) (side : Side) (v : α) :
    slot.adapt side end_ (.ok v, rest) = pure (.ok v, slot, rest) := by
  rw [adapt, free]

/-- What a call that may be passed on comes to. -/
structure Adapted (slot : ErrorSlot) (own : Except IoError α × σ) (reply : Except IoError α)
    (slot' : ErrorSlot) (end_ : σ) (events : List Event) : Prop where
  strict : slot'.strict = slot.strict
  surfaces : slot.strict = true → ∀ e, reply = .error e → ∃ f, slot'.first = some f ∧ f.Surfaces e
  current : slot.strict = false → reply = own.1 ∧ end_ = own.2
  kept : slot.strict = false → ∀ e, reply = .error e → slot'.first = slot.first.or (some (.io e))
  success : ∀ v, reply = .ok v → own.1 = .ok v ∧ end_ = own.2 ∧ slot' = slot ∧ events = []

/-- A failure is told as it is met, or as it is kept, and that is the same. -/
theorem adapted_adapt (slot : ErrorSlot) (side : Side) (end_ : σ) (own : Except IoError α × σ) :
    Adapted slot own (slot.adapt side end_ own).value.1 (slot.adapt side end_ own).value.2.1
      (slot.adapt side end_ own).value.2.2 (slot.adapt side end_ own).events := by
  by_cases blocked : slot.blocked = true
  · obtain ⟨f, first, obstacle⟩ := StreamReader.obstacle?_of_blocked blocked
    have strict : slot.strict = true := (Bool.and_eq_true_iff.mp blocked).1
    rw [ErrorSlot.adapt_of_obstacle obstacle]
    refine ⟨rfl, fun _ e told => ?_, fun lenient => ?_, fun lenient => ?_, by rintro v ⟨⟩⟩
    · cases told
      exact ⟨f, first, Failure.surfaces_iff.mpr rfl⟩
    · exact absurd (strict.symm.trans lenient) (by decide)
    · exact absurd (strict.symm.trans lenient) (by decide)
  · have free := StreamReader.obstacle?_of_unblocked (Bool.eq_false_iff.mpr blocked)
    obtain ⟨outcome, rest⟩ := own
    cases outcome with
    | error e =>
      rw [ErrorSlot.adapt_of_error free]
      refine ⟨rfl, fun strict e' told => ?_, fun _ => ⟨rfl, rfl⟩, fun _ e' told => ?_,
        by rintro v ⟨⟩⟩
      · cases told
        have empty : slot.first = none := by
          cases first : slot.first with
          | none => rfl
          | some f => exact absurd (by rw [ErrorSlot.blocked, strict, first]; rfl) blocked
        exact ⟨.io e, by rw [ErrorSlot.keeping, empty]; rfl, Failure.surfaces_iff.mpr rfl⟩
      · cases told
        rfl
    | ok v =>
      rw [ErrorSlot.adapt_of_ok free]
      refine ⟨rfl, by rintro _ e ⟨⟩, fun _ => ⟨rfl, rfl⟩, by rintro _ e ⟨⟩, fun w told => ?_⟩
      cases told
      exact ⟨rfl, rfl, rfl, rfl⟩

end Adapter

theorem Sink.data_write {s : Sink} {b : Bytes} {n : Nat} (took : (s.write b).1 = .ok n) :
    n ≤ b.length ∧ (s.write b).2.data = s.data ++ b.take n := by
  cases answer : s.accept s.calls b with
  | error e =>
    rw [write_of_error answer] at took
    cases took
  | ok most =>
    rw [write_of_ok answer] at took ⊢
    cases took
    exact ⟨Nat.min_le_right most b.length, by rw [← List.take_take, List.take_length]; rfl⟩

theorem Source.given_of_readFrom {n : Nat} {segments rest : List Segment} {b : Bytes}
    (read : readFrom n segments = (.ok b, rest)) :
    b.length ≤ n ∧ (⟨segments⟩ : Source).remaining = b ++ (⟨rest⟩ : Source).remaining := by
  -- On the segments: only empty ones are passed over.
  induction segments with
  | nil =>
    cases read
    exact ⟨Nat.zero_le n, rfl⟩
  | cons first segments ih =>
    cases first with
    | pause =>
      cases read
      exact ⟨Nat.zero_le n, rfl⟩
    | fault e => cases read
    | data bytes =>
      cases bytes with
      | nil => exact ih read
      | cons byte bytes =>
        cases read
        refine ⟨List.length_take_le n (byte :: bytes), ?_⟩
        rw [remaining_data, remaining_data, ← List.append_assoc, List.take_append_drop]

theorem Source.given_of_read {s rest : Source} {n : Nat} {b : Bytes}
    (read : s.read n = (.ok b, rest)) :
    b.length ≤ n ∧ s.remaining = b ++ rest.remaining := by
  unfold Source.read at read
  by_cases none_wanted : n = 0
  · rw [if_pos none_wanted] at read
    cases read
    exact ⟨Nat.zero_le n, rfl⟩
  · rw [if_neg none_wanted] at read
    rcases from_ : readFrom n s.segments with ⟨outcome, segments⟩
    rw [from_] at read
    cases read
    exact given_of_readFrom from_

namespace StreamWriter

theorem transfer_eq (b : Bytes) (w : StreamWriter) : (transfer b).run w =
    let x := w.slot.adapt .writer w.sink (w.sink.write b)
    ⟨(x.value.1, ⟨x.value.2.1, x.value.2.2⟩), x.events⟩ := by
  cases obstacle : w.slot.obstacle? with
  | some f =>
    rw [transfer_of_obstacle obstacle, ErrorSlot.adapt_of_obstacle obstacle]
    rfl
  | none =>
    rcases wrote : w.sink.write b with ⟨e | n, sink⟩
    · have noted : (transfer b).run w =
          (do note (.io e); pure (.error e) : Action StreamWriter (Except IoError Nat)).run
            ⟨w.slot, sink⟩ := by
        simp [transfer, StateT.run_bind, obstacle, wrote]
      rw [noted, note_pure, ErrorSlot.adapt_of_error obstacle]
    · have passed : (transfer b).run w = pure (.ok n, ⟨w.slot, sink⟩) := by
        simp [transfer, StateT.run_bind, obstacle, wrote]
      rw [passed, ErrorSlot.adapt_of_ok obstacle]
      rfl

theorem flush_eq (w : StreamWriter) : flush.run w =
    let x := w.slot.adapt .writer w.sink w.sink.flush
    ⟨(x.value.1, ⟨x.value.2.1, x.value.2.2⟩), x.events⟩ := by
  cases obstacle : w.slot.obstacle? with
  | some f =>
    rw [flush_of_obstacle obstacle, ErrorSlot.adapt_of_obstacle obstacle]
    rfl
  | none =>
    rcases flushed : w.sink.flush with ⟨e | u, sink⟩
    · have noted : flush.run w =
          (do note (.io e); pure (.error e) : Action StreamWriter (Except IoError Unit)).run
            ⟨w.slot, sink⟩ := by
        simp [flush, StateT.run_bind, obstacle, flushed]
      rw [noted, note_pure, ErrorSlot.adapt_of_error obstacle]
    · have passed : flush.run w = pure (.ok u, ⟨w.slot, sink⟩) := by
        simp [flush, StateT.run_bind, obstacle, flushed]
      rw [passed, ErrorSlot.adapt_of_ok obstacle]
      rfl

theorem perform_transfer (b : Bytes) (w : StreamWriter) : (perform (.transfer b)).run w =
    let x := w.slot.adapt .writer w.sink (w.sink.write b)
    ⟨(.transferred x.value.1, ⟨x.value.2.1, x.value.2.2⟩), x.events⟩ := by
  rw [perform, StateT.run_bind, transfer_eq]
  exact Logged.ext rfl (List.append_nil _)

theorem perform_flush (w : StreamWriter) : (perform .flush).run w =
    let x := w.slot.adapt .writer w.sink w.sink.flush
    ⟨(.flushed x.value.1, ⟨x.value.2.1, x.value.2.2⟩), x.events⟩ := by
  rw [perform, StateT.run_bind, flush_eq]
  exact Logged.ext rfl (List.append_nil _)

theorem slot_run_of_kept {f : Failure} (later : List Command)
    (keeps : ∀ c ∈ later, c.clears = false) {w : StreamWriter}
    (kept : w.slot.first = some f) : (run later w).2.slot.first = some f := by
  induction later generalizing w with
  | nil => exact kept
  | cons c later ih =>
    refine ih (fun d hd => keeps d (List.mem_cons_of_mem c hd)) (w := next c w) ?_
    rw [first_next, keeps c List.mem_cons_self, kept]
    rfl

end StreamWriter

namespace StreamReader

/-- What a source does itself with a destination. -/
def ownTransfer (s : Source) (dst : Bytes) : Except IoError (Nat × Bytes) × Source :=
  ((s.read dst.length).1.map fun b => (b.length, dst.overlay 0 b), (s.read dst.length).2)

theorem transfer_eq (dst : Bytes) (r : StreamReader) : (transfer dst).run r =
    let x := r.slot.adapt .reader r.source (ownTransfer r.source dst)
    ⟨(x.value.1, ⟨x.value.2.1, x.value.2.2⟩), x.events⟩ := by
  cases obstacle : r.slot.obstacle? with
  | some f =>
    rw [transfer_of_obstacle obstacle, ErrorSlot.adapt_of_obstacle obstacle]
    rfl
  | none =>
    rcases read : r.source.read dst.length with ⟨e | b, rest⟩
    · have own : ownTransfer r.source dst = (.error e, rest) := by rw [ownTransfer, read]; rfl
      rw [transfer_of_error obstacle read, own, ErrorSlot.adapt_of_error obstacle]
    · have own : ownTransfer r.source dst = (.ok (b.length, dst.overlay 0 b), rest) := by
        rw [ownTransfer, read]; rfl
      rw [transfer_of_ok obstacle read, own, ErrorSlot.adapt_of_ok obstacle]
      rfl

theorem perform_transfer (dst : Bytes) (r : StreamReader) : (perform (.transfer dst)).run r =
    let x := r.slot.adapt .reader r.source (ownTransfer r.source dst)
    ⟨(.transferred x.value.1, ⟨x.value.2.1, x.value.2.2⟩), x.events⟩ := by
  rw [perform, StateT.run_bind, transfer_eq]
  exact Logged.ext rfl (List.append_nil _)

theorem given_of_ownTransfer {s : Source} {dst dst' : Bytes} {n : Nat}
    (own : (ownTransfer s dst).1 = .ok (n, dst')) :
    ∃ b : Bytes, b.length = n ∧ n ≤ dst.length ∧ dst' = b ++ dst.drop n ∧
      s.remaining = b ++ (ownTransfer s dst).2.remaining := by
  rcases read : s.read dst.length with ⟨e | b, rest⟩
  · rw [ownTransfer, read] at own
    cases own
  · obtain ⟨small, bytes⟩ := Source.given_of_read read
    rw [ownTransfer, read] at own ⊢
    cases own
    exact ⟨b, rfl, small, Bytes.overlay_zero dst b, bytes⟩

theorem run_of_blocked (later : List Command) (keeps : ∀ c ∈ later, c.clears = false)
    {r : StreamReader} (blocked : r.slot.blocked = true) :
    ∃ last, (run later r).2 = .ok last ∧ last.slot = r.slot := by
  induction later generalizing r with
  | nil => exact ⟨r, rfl, rfl⟩
  | cons c later ih =>
    have proper : r.misuse? c = none := by
      cases fault : r.misuse? c with
      | none => rfl
      | some m =>
        obtain ⟨n, -, unblocked, -⟩ := misuse?_eq_some fault
        exact absurd (blocked.symm.trans unblocked) (by decide)
    have slot : (next c r).slot = r.slot := by
      rw [slot_next, keeps c List.mem_cons_self, mishap?, if_pos blocked]
      rfl
    obtain ⟨last, ran, same⟩ :=
      ih (fun d hd => keeps d (List.mem_cons_of_mem c hd)) (slot ▸ blocked)
    exact ⟨last, run_cons_eq_ok.mpr ⟨proper, ran⟩, same.trans slot⟩

end StreamReader

/-! ## Runs -/

/-- Until it is cleared, a writer answers every call that it would pass on with an error, and makes
none. -/
def ScratchWriter.Repeats (e : IoError) (s : ScratchWriter) : Prop :=
  ∀ later : List StreamWriter.Command, (∀ c ∈ later, c.clears = false) →
    ∃ (sights : List StreamWriter.Sight) (last : ScratchWriter), run later s = .ok (sights, last) ∧
    (∀ b, ∃ last', runOn (perform (.transfer b)) last = ⟨.ok (.transferred (.error e), last'), []⟩ ∧
      last'.writer = last.writer) ∧
    ∃ last', runOn (perform .flush) last = ⟨.ok (.flushed (.error e), last'), []⟩ ∧
      last'.writer = last.writer

def ScratchReader.Repeats (e : IoError) (s : ScratchReader) : Prop :=
  ∀ later : List StreamReader.Command, (∀ c ∈ later, c.clears = false) →
    ∃ last : ScratchReader, (run later s).2 = .ok last ∧
    ∀ dst, ∃ last', step (.transfer dst) last = .ok ⟨(.transferred (.error e), last'), []⟩ ∧
      last'.reader = last.reader

namespace ScratchWriter

open StreamWriter (Command Reply Sight)

theorem repeats_of_kept {s : ScratchWriter} {f : Failure}
    (room : s.scratch.length = Leb128.maxBytes)
    (strict : s.writer.slot.strict = true) (kept : s.writer.slot.first = some f) :
    s.Repeats f.toIoError := by
  intro later keeps
  obtain ⟨w, scratch⟩ := s
  obtain ⟨scratch', room', ran⟩ := run_eq later w room
  have strict' := (StreamWriter.strict_run later w).trans strict
  have kept' := StreamWriter.slot_run_of_kept later keeps kept
  refine ⟨_, _, ran, fun b => ?_, ?_⟩
  · obtain ⟨scratch'', -, stepped⟩ :=
      shadows_perform (.transfer b) (StreamWriter.run later w).2 scratch' room'
    rw [StreamWriter.perform_of_kept strict' kept' rfl rfl] at stepped
    exact ⟨_, stepped, rfl⟩
  · obtain ⟨scratch'', -, stepped⟩ :=
      shadows_perform .flush (StreamWriter.run later w).2 scratch' room'
    rw [StreamWriter.perform_of_kept strict' kept' rfl rfl] at stepped
    exact ⟨_, stepped, rfl⟩

theorem adapted_perform {α : Type} {s : ScratchWriter} (room : s.scratch.length = Leb128.maxBytes)
    {c : Command} {answer : Except IoError α → Reply} {own : Except IoError α × Sink}
    (performed : (StreamWriter.perform c).run s.writer =
      let x := s.writer.slot.adapt .writer s.writer.sink own
      ⟨(answer x.value.1, ⟨x.value.2.1, x.value.2.2⟩), x.events⟩) :
    ∃ (reply : Except IoError α) (s' : ScratchWriter) (events : List Event),
      runOn (perform c) s = ⟨.ok (answer reply, s'), events⟩ ∧
      Adapted s.writer.slot own reply s'.writer.slot s'.writer.sink events ∧
      (s.writer.slot.strict = true → ∀ e, reply = .error e → s'.Repeats e) := by
  obtain ⟨w, scratch⟩ := s
  obtain ⟨scratch', room', stepped⟩ := shadows_perform c w scratch room
  rw [performed] at stepped
  have adapted := adapted_adapt w.slot .writer w.sink own
  refine ⟨_, _, _, stepped, adapted, fun strict e told => ?_⟩
  obtain ⟨f, kept, surfaces⟩ := adapted.surfaces strict e told
  rw [Failure.surfaces_iff.mp surfaces]
  exact repeats_of_kept room' (adapted.strict.trans strict) kept

end ScratchWriter

namespace ScratchReader

open StreamReader (Command Reply)

theorem repeats_of_kept {s : ScratchReader} {f : Failure} (room : s.scratch.length = scratchBytes)
    (strict : s.reader.slot.strict = true) (kept : s.reader.slot.first = some f) :
    s.Repeats f.toIoError := by
  intro later keeps
  have blocked : s.reader.slot.blocked = true := by simp [ErrorSlot.blocked, strict, kept]
  obtain ⟨r, scratch⟩ := s
  obtain ⟨last, ended, slot⟩ := StreamReader.run_of_blocked later keeps blocked
  obtain ⟨scratch', room', ran⟩ := run_eq later r room
  rw [ended] at ran
  refine ⟨⟨last, scratch'⟩, congrArg Prod.snd ran, fun dst => ?_⟩
  obtain ⟨scratch'', -, stepped⟩ := step_eq (.transfer dst) last room'
  have strict' : last.slot.strict = true := slot ▸ strict
  have kept' : last.slot.first = some f := slot ▸ kept
  have idle : StreamReader.step (.transfer dst) last =
      .ok (pure (.transferred (.error f.toIoError), last)) :=
    congrArg Except.ok (StreamReader.perform_of_kept strict' kept' rfl rfl)
  rw [idle] at stepped
  exact ⟨_, stepped, rfl⟩

theorem adapted_step {s : ScratchReader} (room : s.scratch.length = scratchBytes) (dst : Bytes) :
    ∃ (reply : Except IoError (Nat × Bytes)) (s' : ScratchReader) (events : List Event),
      step (.transfer dst) s = .ok ⟨(.transferred reply, s'), events⟩ ∧
      Adapted s.reader.slot (StreamReader.ownTransfer s.reader.source dst) reply s'.reader.slot
        s'.reader.source events ∧
      (s.reader.slot.strict = true → ∀ e, reply = .error e → s'.Repeats e) := by
  obtain ⟨r, scratch⟩ := s
  obtain ⟨scratch', room', stepped⟩ := step_eq (.transfer dst) r room
  have whole : StreamReader.step (.transfer dst) r =
      .ok ((StreamReader.perform (.transfer dst)).run r) := rfl
  rw [whole, StreamReader.perform_transfer] at stepped
  have adapted := adapted_adapt r.slot .reader r.source (StreamReader.ownTransfer r.source dst)
  refine ⟨_, _, _, stepped, adapted, fun strict e told => ?_⟩
  obtain ⟨f, kept, surfaces⟩ := adapted.surfaces strict e told
  rw [Failure.surfaces_iff.mp surfaces]
  exact repeats_of_kept room' (adapted.strict.trans strict) kept

end ScratchReader

/-- A strict end tells the failure that it keeps, at every call until it is cleared; a lenient one
tells what the other end told just now. -/
theorem adapters_surface_kept_failure :
    (∀ (sink : Sink) (strict : Bool) (before : List StreamWriter.Command),
      ∃ (sights : List StreamWriter.Sight) (s : ScratchWriter),
        ScratchWriter.run before (.over sink strict) = .ok (sights, s) ∧
        s.writer.slot.strict = strict ∧
        (∀ b, ∃ (reply : Except IoError Nat) (s' : ScratchWriter) (events : List Event),
          ScratchWriter.runOn (ScratchWriter.perform (.transfer b)) s =
            ⟨.ok (.transferred reply, s'), events⟩ ∧
          Adapted s.writer.slot (s.writer.sink.write b) reply s'.writer.slot s'.writer.sink events ∧
          (∀ n,
            reply = .ok n → n ≤ b.length ∧ s'.writer.sink.data = s.writer.sink.data ++ b.take n) ∧
          (strict = true → ∀ e, reply = .error e → s'.Repeats e)) ∧
        ∃ (reply : Except IoError Unit) (s' : ScratchWriter) (events : List Event),
          ScratchWriter.runOn (ScratchWriter.perform .flush) s =
            ⟨.ok (.flushed reply, s'), events⟩ ∧
          Adapted s.writer.slot s.writer.sink.flush reply s'.writer.slot s'.writer.sink events ∧
          (strict = true → ∀ e, reply = .error e → s'.Repeats e)) ∧
    ∀ (source : Source) (strict : Bool) (before : List StreamReader.Command) (s : ScratchReader),
      (ScratchReader.run before (.over source strict)).2 = .ok s →
        s.reader.slot.strict = strict ∧
        ∀ dst, ∃ (reply : Except IoError (Nat × Bytes)) (s' : ScratchReader) (events : List Event),
          ScratchReader.step (.transfer dst) s = .ok ⟨(.transferred reply, s'), events⟩ ∧
          Adapted s.reader.slot (StreamReader.ownTransfer s.reader.source dst) reply s'.reader.slot
            s'.reader.source events ∧
          (∀ n dst', reply = .ok (n, dst') → ∃ b : Bytes,
            b.length = n ∧ n ≤ dst.length ∧ dst' = b ++ dst.drop n ∧
            s.reader.source.remaining = b ++ s'.reader.source.remaining) ∧
          (strict = true → ∀ e, reply = .error e → s'.Repeats e) := by
  constructor
  · intro sink strict before
    have room : (ScratchWriter.over sink strict).scratch.length = Leb128.maxBytes :=
      List.length_replicate
    obtain ⟨scratch, room', ran⟩ := ScratchWriter.run_eq before (.over sink strict) room
    have strict_eq := StreamWriter.strict_run before (.over sink strict)
    generalize StreamWriter.run before (.over sink strict) = whole at ran strict_eq
    obtain ⟨sights, w⟩ := whole
    obtain rfl : w.slot.strict = strict := strict_eq
    refine ⟨sights, ⟨w, scratch⟩, ran, rfl, fun b => ?_, ?_⟩
    · obtain ⟨reply, s', events, stepped, adapted, repeats⟩ :=
        ScratchWriter.adapted_perform (s := ⟨w, scratch⟩) room'
          (StreamWriter.perform_transfer b w)
      refine ⟨reply, s', events, stepped, adapted, fun n told => ?_, repeats⟩
      obtain ⟨own, sink', -, -⟩ := adapted.success n told
      rw [sink']
      exact Sink.data_write own
    · exact ScratchWriter.adapted_perform (s := ⟨w, scratch⟩) room' (StreamWriter.perform_flush w)
  · intro source strict before s reached
    obtain ⟨room, ran⟩ := ScratchReader.reached_eq reached
    have start : (StreamReader.over source strict).slot.first = ([] : List Failure).head? := rfl
    obtain ⟨-, strict_eq⟩ := StreamReader.slot_run start before ran
    obtain rfl : s.reader.slot.strict = strict := strict_eq
    refine ⟨rfl, fun dst => ?_⟩
    obtain ⟨reply, s', events, stepped, adapted, repeats⟩ := ScratchReader.adapted_step room dst
    refine ⟨reply, s', events, stepped, adapted, fun n dst' told => ?_, repeats⟩
    obtain ⟨own, source', -, -⟩ := adapted.success (n, dst') told
    rw [source']
    exact StreamReader.given_of_ownTransfer own

theorem adapters_surface_kept_failure_short :
    let sink := Sink.scripted none [.limit 1 1, .refuse 2 ⟨.brokenPipe, "gone"⟩]
    let pair : StreamWriter.Command := .put (.bytes [1, 2])
    let cut : IoError := ⟨.writeZero, "writer buffer underrun: wrote 1 of 2 bytes"⟩
    let source : Source := ⟨[.data [7]]⟩
    let number : StreamReader.Command := .fetch (.uint .standard .b16)
    let ended : IoError := ⟨.unexpectedEof, "unexpected end of input: read 1 of 2 bytes"⟩
    (∃ (sights : List StreamWriter.Sight) (s s' : ScratchWriter),
      ScratchWriter.run [pair] (.over sink true) = .ok (sights, s) ∧
      ScratchWriter.runOn (ScratchWriter.perform (.transfer [3])) s =
        ⟨.ok (.transferred (.error cut), s'), []⟩ ∧
      s'.Repeats cut) ∧
    (∃ (sights : List StreamWriter.Sight) (s s' : ScratchWriter),
      ScratchWriter.run [pair] (.over sink false) = .ok (sights, s) ∧
      ScratchWriter.runOn (ScratchWriter.perform (.transfer [3])) s =
        ⟨.ok (.transferred (.error ⟨.brokenPipe, "gone"⟩), s'), []⟩ ∧
      s'.writer.slot.first = some (.shortWrite 1 2)) ∧
    ∃ s s' : ScratchReader, (ScratchReader.run [number] (.over source true)).2 = .ok s ∧
      ScratchReader.step (.transfer [0]) s = .ok ⟨(.transferred (.error ended), s'), []⟩ ∧
      s'.Repeats ended := by
  intro sink pair cut source number ended
  let left (strict : Bool) : ScratchWriter :=
    ⟨⟨⟨strict, some (.shortWrite 1 2)⟩, { sink with calls := [.write [1, 2]], data := [1] }⟩,
      List.replicate 10 0⟩
  have wrote (strict : Bool) : ∃ sights,
      ScratchWriter.run [pair] (.over sink strict) = .ok (sights, left strict) := by
    cases strict <;> exact ⟨_, rfl⟩
  have told : ScratchWriter.runOn (ScratchWriter.perform (.transfer [3])) (left true) =
      ⟨.ok (.transferred (.error cut), left true), []⟩ := rfl
  have told' : ∃ s', ScratchWriter.runOn (ScratchWriter.perform (.transfer [3])) (left false) =
      ⟨.ok (.transferred (.error ⟨.brokenPipe, "gone"⟩), s'), []⟩ := ⟨_, rfl⟩
  let torn : ScratchReader := ⟨⟨⟨true, some (.shortRead 1 2)⟩, ⟨[]⟩⟩, [7, 0, 0, 0, 0, 0, 0, 0]⟩
  have reached : (ScratchReader.run [number] (.over source true)).2 = .ok torn := rfl
  have answered : ScratchReader.step (.transfer [0]) torn =
      .ok ⟨(.transferred (.error ended), torn), []⟩ := rfl
  obtain ⟨writers, readers⟩ := adapters_surface_kept_failure
  refine ⟨?_, ?_, torn, torn, reached, answered, ?_⟩
  · obtain ⟨sights, s, ran, -, passes, -⟩ := writers sink true [pair]
    obtain ⟨_, wrote⟩ := wrote true
    cases ran.symm.trans wrote
    obtain ⟨reply, s', events, stepped, -, -, repeats⟩ := passes [3]
    cases stepped.symm.trans told
    exact ⟨sights, left true, left true, ran, told, repeats rfl cut rfl⟩
  · obtain ⟨sights, s, ran, -, passes, -⟩ := writers sink false [pair]
    obtain ⟨_, wrote⟩ := wrote false
    cases ran.symm.trans wrote
    obtain ⟨reply, s', events, stepped, adapted, -, -⟩ := passes [3]
    obtain ⟨_, told'⟩ := told'
    cases stepped.symm.trans told'
    exact ⟨sights, left false, s', ran, stepped, adapted.kept rfl _ rfl⟩
  · obtain ⟨-, passes⟩ := readers source true [number] torn reached
    obtain ⟨reply, s', events, stepped, -, -, repeats⟩ := passes [0]
    cases stepped.symm.trans answered
    exact repeats rfl ended rfl

end WireCodec
