import WireCodec.Proofs.Stream.ScratchReader

/-!
# What a reader keeps

A reader keeps the first thing that goes wrong since it was made or last cleared: what a parse of
the field fails of, or what a single read of the source fails of. Nothing but clearing changes what
is kept. A strict reader stops where it fails; from then on it leaves its source alone, until it is
cleared and is as good as new.
-/

set_option autoImplicit false

namespace WireCodec

namespace StreamReader

def Command.clears : Command → Bool
  | .reset | .takeError => true
  | _ => false

/-- What goes wrong with a command on a source, first of all. -/
def Command.mishap? (s : Source) : Command → Option Failure
  | .fetch f =>
    match (f.parse.runOn s).1 with
    | .ok _ => none
    | .error g => some g
  | .transfer dst =>
    match (s.read dst.length).1 with
    | .ok _ => none
    | .error e => some (.io e)
  | _ => none

def mishap? (c : Command) (r : StreamReader) : Option Failure :=
  if r.slot.blocked then none else c.mishap? r.source

def next (c : Command) (r : StreamReader) : StreamReader := ((perform c).run r).value.2

theorem transfer_of_obstacle {r : StreamReader} {f : Failure} (h : r.slot.obstacle? = some f)
    (dst : Bytes) :
    (transfer dst).run r = pure (.error f.toIoError, r) := by
  simp [transfer, StateT.run_bind, h]

theorem transfer_of_ok {r : StreamReader} {dst b : Bytes} {s : Source} (h : r.slot.obstacle? = none)
    (read : r.source.read dst.length = (.ok b, s)) :
    (transfer dst).run r = pure (.ok (b.length, dst.overlay 0 b), ⟨r.slot, s⟩) := by
  simp [transfer, StateT.run_bind, h, read]

theorem transfer_of_error {r : StreamReader} {dst : Bytes} {e : IoError} {s : Source}
    (h : r.slot.obstacle? = none) (read : r.source.read dst.length = (.error e, s)) :
    (transfer dst).run r =
      ⟨(.error e, ⟨r.slot.keeping (.io e), s⟩), r.slot.news .reader (.io e)⟩ := by
  have kept : (transfer dst).run r =
      (do note (.io e); pure (.error e) : Action StreamReader (Except IoError (Nat × Bytes))).run
        ⟨r.slot, s⟩ := by
    simp [transfer, StateT.run_bind, h, read]
  rw [kept, note_pure]

theorem obstacle?_of_blocked {s : ErrorSlot} (blocked : s.blocked = true) :
    ∃ f, s.first = some f ∧ s.obstacle? = some f := by
  obtain ⟨strict, first⟩ := s
  cases strict <;> cases first <;> simp_all [ErrorSlot.blocked, ErrorSlot.obstacle?]

theorem obstacle?_of_unblocked {s : ErrorSlot} (unblocked : s.blocked = false) :
    s.obstacle? = none := by
  obtain ⟨strict, first⟩ := s
  cases strict <;> cases first <;> simp_all [ErrorSlot.blocked, ErrorSlot.obstacle?]

theorem slot_next (c : Command) (r : StreamReader) :
    (next c r).slot =
      if c.clears then r.slot.clear else (mishap? c r).elim r.slot r.slot.keeping := by
  unfold mishap?
  cases c with
  | fetch f =>
    have came := fetched f r
    change ((fetch f).run r).value.2.slot = _
    generalize (fetch f).run r = x at came
    cases came with
    | idle blocked =>
      rw [if_pos blocked]
      rfl
    | read unblocked parsed =>
      simp only [unblocked, Command.mishap?, parsed]
      rfl
    | failed unblocked parsed v s' behind stops =>
      simp only [unblocked, Command.mishap?, parsed]
      rfl
  | transfer dst =>
    change ((transfer dst).run r).value.2.slot = _
    by_cases blocked : r.slot.blocked = true
    · obtain ⟨f, -, obstacle⟩ := obstacle?_of_blocked blocked
      rw [transfer_of_obstacle obstacle, if_pos blocked]
      rfl
    · have obstacle := obstacle?_of_unblocked (Bool.eq_false_iff.mpr blocked)
      rw [if_neg blocked]
      cases read : r.source.read dst.length with
      | mk outcome s =>
        simp only [Command.mishap?, read]
        cases outcome with
        | ok b =>
          rw [transfer_of_ok obstacle read]
          rfl
        | error e =>
          rw [transfer_of_error obstacle read]
          rfl
  | reset | takeError => rfl
  | error | debug | push segments =>
    have nothing : (if r.slot.blocked = true then none else none) = (none : Option Failure) :=
      ite_self none
    simp only [Command.mishap?, nothing]
    rfl

theorem first_next (c : Command) (r : StreamReader) :
    (next c r).slot.first = if c.clears then none else r.slot.first.or (mishap? c r) := by
  rw [slot_next]
  cases c.clears with
  | true => rfl
  | false => cases mishap? c r <;> simp [ErrorSlot.keeping]

theorem strict_next (c : Command) (r : StreamReader) : (next c r).slot.strict = r.slot.strict := by
  rw [slot_next]
  split
  · rfl
  · cases mishap? c r <;> rfl

theorem next_of_clears {c : Command} (clears : c.clears = true) (r : StreamReader) :
    next c r = .over r.source r.slot.strict := by
  cases c with
  | reset | takeError => rfl
  | fetch | transfer | error | debug | push => cases clears

theorem source_of_strict {f : Field Order} {r : StreamReader} (strict : r.slot.strict = true)
    (empty : r.slot.first = none) :
    (next (.fetch f) r).source = (f.parse.runOn r.source).2 := by
  have came := fetched f r
  change ((fetch f).run r).value.2.source = _
  generalize (fetch f).run r = x at came
  cases came with
  | idle blocked => simp [ErrorSlot.blocked, empty] at blocked
  | read unblocked parsed => rw [parsed]; rfl
  | failed unblocked parsed v s' behind stops => rw [parsed]; exact stops strict

def Command.idleReply (f : Failure) (r : StreamReader) : Command → Reply
  | .fetch g => .value g.zero
  | .transfer _ => .transferred (.error f.toIoError)
  | .error => .failure (some f)
  | .debug => .text r.debugText
  | .reset | .takeError | .push _ => .done

def Command.toReader : Command → Bool
  | .push _ => false
  | _ => true

theorem perform_of_kept {c : Command} {r : StreamReader} {f : Failure}
    (strict : r.slot.strict = true)
    (kept : r.slot.first = some f) (clears : c.clears = false) (toReader : c.toReader = true) :
    (perform c).run r = pure (c.idleReply f r, r) := by
  have blocked : r.slot.blocked = true := by simp [ErrorSlot.blocked, strict, kept]
  have obstacle : r.slot.obstacle? = some f := by simp [ErrorSlot.obstacle?, strict, kept]
  cases c with
  | fetch g =>
    have came := fetched g r
    rw [perform, StateT.run_bind]
    generalize (fetch g).run r = x at came
    cases came with
    | idle _ => rfl
    | read unblocked _ | failed unblocked _ _ _ _ _ =>
      rw [blocked] at unblocked
      cases unblocked
  | transfer dst => simp [perform, transfer_of_obstacle obstacle, Command.idleReply]
  | error => simp [perform, kept, Command.idleReply]
  | debug => rfl
  | reset | takeError => cases clears
  | push segments => cases toReader

/-! ## Runs -/

/-- The first thing that went wrong in each step since the reader was last cleared; `earlier` is
what had gone wrong before the run. -/
def mishapsSince (earlier : List Failure) : List Command → StreamReader → List Failure
  | [], _ => earlier
  | c :: cs, r =>
    mishapsSince (if c.clears then [] else earlier ++ (mishap? c r).toList) cs (next c r)

theorem step_eq_ok {c : Command} {r : StreamReader} {x : Logged (Reply × StreamReader)}
    (stepped : step c r = .ok x) :
    x = (perform c).run r := by
  unfold step at stepped
  split at stepped <;> cases stepped
  rfl

theorem run_cons_eq_ok {c : Command} {cs : List Command} {r r' : StreamReader} :
    (run (c :: cs) r).2 = .ok r' ↔ r.misuse? c = none ∧ (run cs (next c r)).2 = .ok r' := by
  rw [run, step]
  cases r.misuse? c with
  | some m => simp
  | none => exact ⟨fun ran => ⟨rfl, ran⟩, And.right⟩

theorem slot_run {earlier : List Failure} {r r' : StreamReader}
    (start : r.slot.first = earlier.head?) (cs : List Command) (ran : (run cs r).2 = .ok r') :
    r'.slot.first = (mishapsSince earlier cs r).head? ∧ r'.slot.strict = r.slot.strict := by
  -- On the commands: at every point the head of what has gone wrong so far is kept.
  induction cs generalizing earlier r with
  | nil =>
    cases ran
    exact ⟨start, rfl⟩
  | cons c cs ih =>
    obtain ⟨-, rest⟩ := run_cons_eq_ok.mp ran
    have kept : (next c r).slot.first =
        (if c.clears then [] else earlier ++ (mishap? c r).toList).head? := by
      rw [first_next, start]
      cases c.clears with
      | true => rfl
      | false => cases mishap? c r <;> simp [List.head?_append]
    obtain ⟨first, strict⟩ := ih kept rest
    exact ⟨first, strict.trans (strict_next c r)⟩

end StreamReader

namespace ScratchReader

open StreamReader (Command Reply)

theorem reached_eq {source : Source} {strict : Bool} {before : List Command} {s : ScratchReader}
    (reached : (run before (.over source strict)).2 = .ok s) :
    s.scratch.length = scratchBytes ∧
    (StreamReader.run before (.over source strict)).2 = .ok s.reader := by
  obtain ⟨scratch, room, ran⟩ :=
    run_eq before (.over source strict) (List.length_replicate (a := (0 : UInt8)))
  have whole : run before (.over source strict) = _ := ran
  rw [whole] at reached
  cases outcome : (StreamReader.run before (.over source strict)).2 with
  | error m =>
    rw [outcome] at reached
    cases reached
  | ok r =>
    rw [outcome] at reached
    cases reached
    exact ⟨room, rfl⟩

/-- A reader keeps the first thing to go wrong since it was last cleared; while a strict one keeps a
failure it takes nothing from its source. -/
theorem failure_kept_until_cleared {source : Source} {strict : Bool}
    {before : List Command} {s : ScratchReader}
    (reached : (run before (.over source strict)).2 = .ok s) :
    s.reader.slot.strict = strict ∧
      s.reader.slot.first = (StreamReader.mishapsSince [] before (.over source strict)).head? ∧
      ∀ c : Command, s.reader.misuse? c = none →
        ∃ (reply : Reply) (s' : ScratchReader) (events : List Event),
        step c s = .ok ⟨(reply, s'), events⟩ ∧
        (∀ f, s.reader.slot.first = some f → c.clears = false →
          s'.reader.slot.first = some f ∧
          (strict = true → c.toReader = true →
            reply = c.idleReply f s.reader ∧ s'.reader = s.reader ∧ events = [])) ∧
        (∀ g, c = .fetch g → strict = true → s.reader.slot.first = none →
          s'.reader.source = (g.parse.runOn s.reader.source).2) ∧
        (c.clears = true → ∀ after,
          (run after s').1 = (run after (.over s.reader.source strict)).1 ∧
          (run after s').2.map ScratchReader.reader =
            (run after (.over s.reader.source strict)).2.map ScratchReader.reader) := by
  obtain ⟨room, ran⟩ := reached_eq reached
  have start : (StreamReader.over source strict).slot.first = ([] : List Failure).head? := rfl
  have kept := StreamReader.slot_run start before ran
  obtain ⟨r, scratch⟩ := s
  obtain ⟨first, strict_eq⟩ : _ ∧ r.slot.strict = strict := kept
  dsimp only at room first ⊢
  refine ⟨strict_eq, first, fun c proper => ?_⟩
  obtain ⟨scratch', room', stepped⟩ := step_eq c r room
  rw [StreamReader.step, proper] at stepped
  refine ⟨_, _, _, stepped, fun f kept clears => ⟨?_, fun isStrict toReader => ?_⟩, ?_, ?_⟩
  · have stands := StreamReader.first_next c r
    rw [clears, kept] at stands
    exact stands
  · have idle := StreamReader.perform_of_kept (strict_eq.trans isStrict) kept clears toReader
    rw [idle]
    exact ⟨rfl, rfl, rfl⟩
  · rintro g rfl isStrict empty
    exact StreamReader.source_of_strict (strict_eq.trans isStrict) empty
  · intro clears after
    -- Only the scratch buffers of the two readers differ, and neither shows.
    have fresh : ((StreamReader.perform c).run r).value.2 = .over r.source strict := by
      rw [← strict_eq]
      exact StreamReader.next_of_clears clears r
    rw [fresh]
    obtain ⟨_, _, cleared⟩ := run_eq after (.over r.source strict) room'
    obtain ⟨_, _, new⟩ :=
      run_eq after (.over r.source strict) (List.length_replicate (a := (0 : UInt8)))
    rw [cleared, ScratchReader.over, new]
    dsimp only
    cases (StreamReader.run after (.over r.source strict)).2 <;> exact ⟨rfl, rfl⟩

theorem failure_kept_until_cleared_ended :
    let source : Source := ⟨[.data [0x80], .pause, .data [7, 8]]⟩
    let number : Command := .fetch .uvarint
    ∃ s : ScratchReader, (run [number] (.over source true)).2 = .ok s ∧
      s.reader.slot.first = some (.shortRead 0 1) ∧ s.reader.source.remaining = [7, 8] ∧
      (∃ s' : ScratchReader, step number s = .ok ⟨(.value (.int 0), s'), []⟩ ∧
        s'.reader = s.reader) ∧
      ∃ (reply : Reply) (s' : ScratchReader) (events : List Event),
        step .reset s = .ok ⟨(reply, s'), events⟩ ∧
        (run [number] s').1 = (run [number] (.over s.reader.source true)).1 := by
  intro source number
  let s : ScratchReader :=
    ⟨⟨⟨true, some (.shortRead 0 1)⟩, ⟨[.data [7, 8]]⟩⟩, [0x80, 0, 0, 0, 0, 0, 0, 0]⟩
  have reached : (run [number] (.over source true)).2 = .ok s := rfl
  obtain ⟨-, -, next⟩ := failure_kept_until_cleared reached
  obtain ⟨reply, s', events, stepped, stands, -, -⟩ := next number rfl
  obtain ⟨-, idle⟩ := stands _ rfl rfl
  obtain ⟨rfl, same, rfl⟩ := idle rfl rfl
  obtain ⟨reply, s'', events, cleared, -, -, fresh⟩ := next .reset rfl
  exact ⟨s, reached, rfl, rfl, ⟨s', stepped, same⟩, reply, s'', events, cleared,
    (fresh rfl [number]).1⟩

end ScratchReader

end WireCodec
