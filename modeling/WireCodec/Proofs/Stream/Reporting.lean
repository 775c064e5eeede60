import WireCodec.Proofs.Stream.FirstFailure
import WireCodec.Proofs.Stream.KeptFailure

/-!
# What a stream reports

A stream writes to its log when it comes to keep a failure, and at no other time: not for a failure
that finds another one kept, not where it is blocked, and not when it is told to forget. So what is
reported through a run can be read off what is kept before and after each step.
-/

set_option autoImplicit false

namespace WireCodec

/-- What there is to report between two moments: the failure kept at the second, if none was kept at
the first. -/
def Event.between (side : Side) : Option Failure → Option Failure → List Event
  | none, some f => [.firstFailure side f]
  | _, _ => []

theorem Event.between_self (side : Side) (first : Option Failure) :
    between side first first = [] := by
  cases first <;> rfl

theorem Event.between_none (side : Side) (first : Option Failure) :
    between side first none = [] := by
  cases first <;> rfl

/-- A failure that is kept stays, and one that comes to be kept is reported. -/
structure Announced (side : Side) (before : Option Failure) (events : List Event)
    (after : Option Failure) : Prop where
  stays (f : Failure) (kept : before = some f) : after = some f
  events : events = Event.between side before after

namespace Announced

variable {side : Side} {before mid after : Option Failure} {events more : List Event}

theorem refl (side : Side) (first : Option Failure) : Announced side first [] first :=
  ⟨fun _ kept => kept, (Event.between_self side first).symm⟩

theorem trans (h : Announced side before events mid) (h' : Announced side mid more after) :
    Announced side before (events ++ more) after where
  stays f kept := h'.stays f (h.stays f kept)
  events := by
    rw [h.events, h'.events]
    -- The failure is reported where it comes to be kept; on the other side of that moment there is
    -- nothing to report.
    cases kept : before with
    | some f =>
      rw [h.stays f kept, h'.stays f (h.stays f kept)]
      rfl
    | none =>
      cases came : mid with
      | some f =>
        rw [h'.stays f came]
        rfl
      | none => rfl

theorem note (side : Side) (s : ErrorSlot) (f : Failure) :
    Announced side s.first (s.news side f) (s.keeping f).first := by
  obtain ⟨strict, first⟩ := s
  cases first with
  | none => exact ⟨nofun, rfl⟩
  | some g => exact ⟨fun _ kept => kept, rfl⟩

end Announced

namespace StreamWriter

theorem note_run (f : Failure) (w : StreamWriter) :
    (note f).run w = ⟨((), ⟨w.slot.keeping f, w.sink⟩), w.slot.news .writer f⟩ := by
  obtain ⟨⟨strict, first⟩, sink⟩ := w
  cases first <;> rfl

theorem note_pure {α : Type} (f : Failure) (v : α) (w : StreamWriter) :
    (do note f; pure v : Action StreamWriter α).run w =
      ⟨(v, ⟨w.slot.keeping f, w.sink⟩), w.slot.news .writer f⟩ := by
  rw [StateT.run_bind, note_run]
  exact Logged.ext rfl (List.append_nil _)

def Announces {α : Type} (a : Action StreamWriter α) (w : StreamWriter) : Prop :=
  Announced .writer w.slot.first (a.run w).events (a.run w).value.2.slot.first

variable {α β : Type} {w : StreamWriter}

theorem announces_pure (v : α) (w : StreamWriter) : Announces (pure v) w :=
  .refl .writer w.slot.first

theorem Announces.bind {a : Action StreamWriter α} {k : α → Action StreamWriter β}
    (first : Announces a w)
    (second : ∀ (v : α) (w : StreamWriter), Announces (k v) w) : Announces (a >>= k) w := by
  unfold Announces
  rw [StateT.run_bind]
  exact Announced.trans first (second _ _)

theorem announces_noted {a : Action StreamWriter α} {f : Failure} {sink : Sink} {v : α}
    (ran : a.run w = (do note f; pure v : Action StreamWriter α).run ⟨w.slot, sink⟩) :
    Announces a w := by
  unfold Announces
  rw [ran, note_pure]
  exact Announced.note .writer w.slot f

theorem announces_silent {a : Action StreamWriter α} {sink : Sink} {v : α}
    (ran : a.run w = pure (v, ⟨w.slot, sink⟩)) :
    Announces a w := by
  unfold Announces
  rw [ran]
  exact .refl .writer w.slot.first

theorem announces_offer (b : Bytes) (w : StreamWriter) : Announces (offer b) w := by
  by_cases blocked : w.slot.blocked = true
  · have skipped : (offer b).run w = pure (0, ⟨w.slot, w.sink⟩) := by
      simp [offer, StateT.run_bind, blocked]
    exact announces_silent skipped
  · have unblocked : w.slot.blocked = false := Bool.eq_false_iff.mpr blocked
    cases answer : w.sink.accept w.sink.calls b with
    | error e => exact announces_noted (offer_of_error unblocked (Sink.write_of_error answer))
    | ok n =>
      have taken := Sink.write_of_ok answer
      by_cases short : min n b.length = b.length
      · rw [short] at taken
        exact announces_silent (offer_of_whole unblocked taken)
      · exact announces_noted (offer_of_short unblocked taken short)

theorem announces_offerAll (bs : List Bytes) (w : StreamWriter) : Announces (offerAll bs) w := by
  induction bs generalizing w with
  | nil => exact announces_pure 0 w
  | cons b bs ih =>
    exact (announces_offer b w).bind fun _ w => (ih w).bind fun _ w => announces_pure _ w

theorem announces_put (i : Item Order) (w : StreamWriter) : Announces (put i) w := by
  by_cases blocked : w.slot.blocked = true
  · have skipped : (put i).run w = pure (0, ⟨w.slot, w.sink⟩) := by
      simp [put, StateT.run_bind, blocked]
    exact announces_silent skipped
  · cases encoded : i.buffers with
    | error f =>
      have refused : (put i).run w =
          (do note f; pure 0 : Action StreamWriter Nat).run ⟨w.slot, w.sink⟩ := by
        simp [put, StateT.run_bind, blocked, encoded]
      exact announces_noted refused
    | ok bs =>
      rw [put_eq_offerAll encoded]
      exact announces_offerAll bs w

theorem announces_transfer (b : Bytes) (w : StreamWriter) : Announces (transfer b) w := by
  cases obstacle : w.slot.obstacle? with
  | some f => exact announces_silent (transfer_of_obstacle obstacle b)
  | none =>
    cases wrote : w.sink.write b with
    | mk outcome sink =>
      cases outcome with
      | error e =>
        have failed : (transfer b).run w =
            (do note (.io e); pure (.error e) : Action StreamWriter (Except IoError Nat)).run
              ⟨w.slot, sink⟩ := by
          simp [transfer, StateT.run_bind, obstacle, wrote]
        exact announces_noted failed
      | ok n =>
        have taken : (transfer b).run w = pure (.ok n, ⟨w.slot, sink⟩) := by
          simp [transfer, StateT.run_bind, obstacle, wrote]
        exact announces_silent taken

theorem announces_flush (w : StreamWriter) : Announces flush w := by
  cases obstacle : w.slot.obstacle? with
  | some f => exact announces_silent (flush_of_obstacle obstacle)
  | none =>
    cases flushed : w.sink.flush with
    | mk outcome sink =>
      cases outcome with
      | error e =>
        have failed : flush.run w =
            (do note (.io e); pure (.error e) : Action StreamWriter (Except IoError Unit)).run
              ⟨w.slot, sink⟩ := by
          simp [flush, StateT.run_bind, obstacle, flushed]
        exact announces_noted failed
      | ok n =>
        have done : flush.run w = pure (.ok (), ⟨w.slot, sink⟩) := by
          simp [flush, StateT.run_bind, obstacle, flushed]
        exact announces_silent done

theorem events_perform (c : Command) (w : StreamWriter) :
    ((perform c).run w).events = Event.between .writer w.slot.first (next c w).slot.first := by
  cases c with
  | put i => exact ((announces_put i w).bind fun _ w => announces_pure _ w).events
  | transfer b => exact ((announces_transfer b w).bind fun _ w => announces_pure _ w).events
  | flush => exact ((announces_flush w).bind fun _ w => announces_pure _ w).events
  | reset | takeError => exact (Event.between_none .writer w.slot.first).symm
  | error | debug | push b => exact (Event.between_self .writer w.slot.first).symm

/-- Step for step, what a run reports is what comes to be kept. -/
theorem events_run (cs : List Command) (w : StreamWriter) : (run cs w).1.map Sight.events =
    List.zipWith (Event.between .writer) (w.slot.first :: (run cs w).1.map Sight.first)
      ((run cs w).1.map Sight.first) := by
  induction cs generalizing w with
  | nil => rfl
  | cons c cs ih =>
    rw [run, List.map_cons, List.map_cons, List.zipWith_cons_cons, ih]
    exact congrArg₂ List.cons (events_perform c w) rfl

end StreamWriter

namespace StreamReader

theorem announced_fetch (f : Field Order) (r : StreamReader) :
    Announced .reader r.slot.first ((fetch f).run r).events
      ((fetch f).run r).value.2.slot.first := by
  have came := fetched f r
  generalize (fetch f).run r = x at came
  cases came with
  | idle blocked | read unblocked parsed => exact .refl .reader r.slot.first
  | failed unblocked parsed v s behind stops => exact .note .reader r.slot _

theorem announced_transfer (dst : Bytes) (r : StreamReader) :
    Announced .reader r.slot.first ((transfer dst).run r).events
      ((transfer dst).run r).value.2.slot.first := by
  cases obstacle : r.slot.obstacle? with
  | some f =>
    rw [transfer_of_obstacle obstacle]
    exact .refl .reader r.slot.first
  | none =>
    cases read : r.source.read dst.length with
    | mk outcome source =>
      cases outcome with
      | error e =>
        rw [transfer_of_error obstacle read]
        exact .note .reader r.slot (.io e)
      | ok b =>
        rw [transfer_of_ok obstacle read]
        exact .refl .reader r.slot.first

theorem events_perform (c : Command) (r : StreamReader) :
    ((perform c).run r).events = Event.between .reader r.slot.first (next c r).slot.first := by
  cases c with
  | fetch f => exact ((announced_fetch f r).trans (.refl .reader _)).events
  | transfer dst => exact ((announced_transfer dst r).trans (.refl .reader _)).events
  | reset | takeError => exact (Event.between_none .reader r.slot.first).symm
  | error | debug | push segments => exact (Event.between_self .reader r.slot.first).symm

def Sight.first (s : Sight) : Option Failure := s.slot.first

theorem events_run (cs : List Command) (r : StreamReader) : (run cs r).1.map Sight.events =
    List.zipWith (Event.between .reader) (r.slot.first :: (run cs r).1.map Sight.first)
      ((run cs r).1.map Sight.first) := by
  induction cs generalizing r with
  | nil => rfl
  | cons c cs ih =>
    rw [run]
    cases stepped : step c r with
    | error m => rfl
    | ok x =>
      obtain rfl := step_eq_ok stepped
      dsimp only
      rw [List.map_cons, List.map_cons, List.zipWith_cons_cons, ih]
      exact congrArg₂ List.cons (events_perform c r) rfl

end StreamReader

end WireCodec
