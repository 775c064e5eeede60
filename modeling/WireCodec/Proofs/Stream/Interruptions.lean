import WireCodec.Proofs.Stream.KeptFailure

/-!
# Interruptions

A pull goes on where it is interrupted, so no field is ever missed because of an interruption. A
single read is handed on as it comes: what it fails of is kept, an interruption as any other
failure, and then it blocks a strict reader.
-/

set_option autoImplicit false

namespace WireCodec

namespace StreamReader

/-- What a run keeps was kept from the start, or went wrong at a command that found nothing kept;
and it has not been cleared since. -/
theorem kept_run (cs : List Command) {r r' : StreamReader} (ran : (run cs r).2 = .ok r')
    (f : Failure) :
    r'.slot.first = some f ↔
      (r.slot.first = some f ∧ ∀ c ∈ cs, c.clears = false) ∨
      ∃ front c back mid, cs = front ++ c :: back ∧ (∀ d ∈ c :: back, d.clears = false) ∧
        (run front r).2 = .ok mid ∧ mid.slot.first = none ∧ mishap? c mid = some f := by
  -- On the commands, from any reader: the first of them is where it went wrong, or what is kept
  -- behind it decides.
  induction cs generalizing r with
  | nil =>
    cases ran
    simp
  | cons c cs ih =>
    obtain ⟨proper, rest⟩ := run_cons_eq_ok.mp ran
    have stands := first_next c r
    rw [ih rest]
    constructor
    · rintro (⟨kept, quiet⟩ | ⟨front, d, back, mid, rfl, quiet, reached, empty, wrong⟩)
      · rw [kept] at stands
        cases clears : c.clears with
        | true => rw [clears] at stands; cases stands
        | false =>
          rw [clears, if_neg Bool.false_ne_true, eq_comm, Option.or_eq_some_iff] at stands
          have all : ∀ d ∈ c :: cs, d.clears = false := List.forall_mem_cons.mpr ⟨clears, quiet⟩
          obtain kept | ⟨empty, wrong⟩ := stands
          · exact .inl ⟨kept, all⟩
          · exact .inr ⟨[], c, cs, r, rfl, all, rfl, empty, wrong⟩
      · exact .inr ⟨c :: front, d, back, mid, rfl, quiet, run_cons_eq_ok.mpr ⟨proper, reached⟩,
          empty, wrong⟩
    · rintro (⟨kept, quiet⟩ | ⟨front, d, back, mid, split, quiet, reached, empty, wrong⟩)
      · obtain ⟨clears, quiet⟩ := List.forall_mem_cons.mp quiet
        rw [clears, kept] at stands
        exact .inl ⟨stands, quiet⟩
      · cases front with
        | nil =>
          cases split
          cases reached
          obtain ⟨clears, quiet⟩ := List.forall_mem_cons.mp quiet
          rw [clears, empty, wrong] at stands
          exact .inl ⟨stands, quiet⟩
        | cons _ front =>
          cases split
          exact .inr ⟨front, d, back, mid, rfl, quiet, (run_cons_eq_ok.mp reached).2, empty, wrong⟩

theorem mishap?_interrupted_iff {c : Command} {r : StreamReader} {e : IoError}
    (interrupted : e.kind = .interrupted) :
    mishap? c r = some (.io e) ↔
      r.slot.blocked = false ∧ ∃ dst,
        c = .transfer dst ∧ (r.source.read dst.length).1 = .error e := by
  unfold mishap?
  cases r.slot.blocked with
  | true => simp
  | false =>
    cases c with
    | fetch f =>
      have lasting := (Parse.built_parse f).lasting r.source e
      simp only [Command.mishap?]
      cases parsed : (f.parse.runOn r.source).1 with
      | ok v => simp
      | error g =>
        have other : g ≠ .io e := by
          rintro rfl
          exact lasting parsed interrupted
        simpa using other
    | transfer dst =>
      simp only [Command.mishap?]
      cases read : (r.source.read dst.length).1 <;> simp [read]
    | reset | takeError | error | debug | push => simp [Command.mishap?]

end StreamReader

namespace ScratchReader

open StreamReader (Command Reply)

theorem reached_of_run {source : Source} {strict : Bool} {before : List Command} {r : StreamReader}
    (ran : (StreamReader.run before (.over source strict)).2 = .ok r) :
    ∃ s : ScratchReader, s.reader = r ∧ (run before (.over source strict)).2 = .ok s := by
  obtain ⟨scratch, -, whole⟩ :=
    run_eq before (.over source strict) (List.length_replicate (a := (0 : UInt8)))
  refine ⟨⟨r, scratch⟩, rfl, ?_⟩
  change (run before ⟨.over source strict, List.replicate scratchBytes 0⟩).2 = _
  rw [whole, ran]
  rfl

/-- A reader keeps an interruption if and only if a single read met it while nothing was kept, and
nothing was cleared since. -/
theorem interruption_kept_iff {source : Source} {strict : Bool}
    {before : List Command} {s : ScratchReader}
    (reached : (run before (.over source strict)).2 = .ok s) {e : IoError}
    (interrupted : e.kind = .interrupted) :
    (s.reader.slot.first = some (.io e) ↔
      ∃ front dst back mid, before = front ++ .transfer dst :: back ∧
        (∀ c ∈ back, c.clears = false) ∧
        (run front (.over source strict)).2 = .ok mid ∧ mid.reader.slot.first = none ∧
        (mid.reader.source.read dst.length).1 = .error e) ∧
      (s.reader.slot.obstacle? = some (.io e) ↔
        strict = true ∧ s.reader.slot.first = some (.io e)) ∧
      ((∀ dst, .transfer dst ∉ before) → s.reader.slot.first ≠ some (.io e)) := by
  obtain ⟨-, ran⟩ := reached_eq reached
  have kept : s.reader.slot.first = some (.io e) ↔
      ∃ front dst back mid, before = front ++ .transfer dst :: back ∧
        (∀ c ∈ back, c.clears = false) ∧
        (run front (.over source strict)).2 = .ok mid ∧ mid.reader.slot.first = none ∧
        (mid.reader.source.read dst.length).1 = .error e := by
    rw [StreamReader.kept_run before ran]
    constructor
    · rintro (⟨kept, -⟩ | ⟨front, c, back, mid, split, quiet, at_mid, empty, wrong⟩)
      · cases kept
      · obtain ⟨-, dst, rfl, failed⟩ := (StreamReader.mishap?_interrupted_iff interrupted).mp wrong
        obtain ⟨whole, rfl, at_whole⟩ := reached_of_run at_mid
        exact ⟨front, dst, back, whole, split, (List.forall_mem_cons.mp quiet).2, at_whole,
          empty, failed⟩
    · rintro ⟨front, dst, back, mid, split, quiet, at_mid, empty, failed⟩
      have wrong := (StreamReader.mishap?_interrupted_iff (c := .transfer dst) interrupted).mpr
        ⟨ErrorSlot.unblocked_of_clean empty, dst, rfl, failed⟩
      have quiet : ∀ c ∈ Command.transfer dst :: back,
          c.clears = false := List.forall_mem_cons.mpr ⟨rfl, quiet⟩
      exact .inr ⟨front, .transfer dst, back, mid.reader, split, quiet, (reached_eq at_mid).2,
        empty, wrong⟩
  refine ⟨kept, ?_, fun none_single stands => ?_⟩
  · have start : (StreamReader.over source strict).slot.first = ([] : List Failure).head? := rfl
    obtain ⟨-, strict_eq⟩ : _ ∧ s.reader.slot.strict = strict :=
      StreamReader.slot_run start before ran
    rw [ErrorSlot.obstacle?, strict_eq]
    cases strict <;> simp
  · obtain ⟨front, dst, back, _, rfl, -⟩ := kept.mp stands
    exact none_single dst (List.mem_append_right front List.mem_cons_self)

theorem interruption_kept_iff_again :
    let again : IoError := ⟨.interrupted, "again"⟩
    let source : Source := ⟨[.fault again, .data [7]]⟩
    ∃ s : ScratchReader, (run [.transfer [0], .transfer [0]] (.over source false)).2 = .ok s ∧
      s.reader.slot.first = some (.io again) ∧ s.reader.slot.obstacle? ≠ some (.io again) := by
  intro again source
  obtain ⟨s, reached⟩ :
    ∃ s, (run [.transfer [0], .transfer [0]] (.over source false)).2 = .ok s := ⟨_, rfl⟩
  obtain ⟨kept, blocks, -⟩ := interruption_kept_iff reached (e := again) rfl
  have stands :=
    kept.mpr ⟨[], [0], [.transfer [0]], .over source false, rfl, by simp [Command.clears],
      rfl, rfl, rfl⟩
  exact ⟨s, reached, stands, fun blocked => nomatch (blocks.mp blocked).1⟩

theorem interrupted_read_is_kept :
    ¬ ∀ (source : Source) (strict : Bool) (before : List Command) (s : ScratchReader),
    (run before (.over source strict)).2 = .ok s → ∀ e : IoError, e.kind = .interrupted →
      s.reader.slot.first ≠ some (.io e) ∧ s.reader.slot.obstacle? ≠ some (.io e) := by
  intro never
  let again : IoError := ⟨.interrupted, "again"⟩
  obtain ⟨-, unblocked⟩ := never ⟨[.fault again, .data [7]]⟩ true [.transfer [0]] _ rfl again rfl
  exact unblocked rfl

end ScratchReader

end WireCodec
