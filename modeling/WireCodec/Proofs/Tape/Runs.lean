import WireCodec.Proofs.Tape.Scanning
import WireCodec.Tape.Command

/-!
# Runs of a tape

A run carries out one command after another. What is noted of each step is its reply and the place
of the head after it. Storing changes nothing before the head, so what one step of a run has stored
stays for the steps after it.
-/

set_option autoImplicit false

namespace WireCodec

namespace Tape

/-- Carries out commands until one is a misuse: the reply to each and the head's place after it, and
the tape at the end. -/
def run : List Command → Tape → Except Misuse (Logged (List (Reply × Nat) × Tape))
  | [], t => .ok (pure ([], t))
  | c :: cs, t => do
    let first ← step c t
    let (reply, middle) := first.value
    let others ← run cs middle
    let (notes, last) := others.value
    pure ⟨((reply, middle.pos) :: notes, last), first.events ++ others.events⟩

def Reply.done : Reply := .plain (.ok .done)

theorem run_cons {c : Command} {t : Tape} {r : Reply × Tape} (h : step c t = .ok (pure r))
    (cs : List Command) :
    run (c :: cs) t = (run cs r.2).map
      fun l => ⟨((r.1, r.2.pos) :: l.value.1, l.value.2), l.events⟩ := by
  rw [run, h]
  cases outcome : run cs r.2 <;> simp [bind, Except.bind, pure, Except.pure, Except.map, outcome]

theorem step_put (e : Entry) (t : Tape) : step (.put e) t = .ok (pure (match e.encode with
    | .error f => (.plain (.error f), t)
    | .ok b =>
      if t.remaining < b.length then (.plain (.error (.outOfBounds t.pos b.length t.length)), t)
      else (.done, ⟨t.bytes.overlay t.pos b, t.pos + b.length⟩))) := by
  rw [step, put]
  cases e.encode with
  | error f => rfl
  | ok b =>
    by_cases full : t.remaining < b.length
    · simp [store, StateT.run_bind, full, Reply.ofUnit, Except.map]
    · simp [store, StateT.run_bind, full, Reply.ofUnit, Except.map, Reply.done]

theorem step_seek (pos : Nat) (t : Tape) : step (.seek pos) t = .ok (pure (
    if t.length < pos then (.plain (.error (.outOfBounds pos 0 t.length)), t)
      else (.done, { t with pos }))) := by
  rw [step]
  by_cases beyond : t.length < pos
  · simp [seek, StateT.run_bind, beyond, Reply.ofUnit, Except.map]
  · simp [seek, StateT.run_bind, beyond, Reply.ofUnit, Except.map, Reply.done]

theorem scan_run {α : Type} {s : Scan α} {t : Tape} {a : α} {pos : Nat}
    (h : s.runFrom t.bytes t.pos = pure (.ok (a, pos))) :
    (scan s).run t = pure (.ok a, { t with pos }) := by
  simp [scan, StateT.run_bind, h]

theorem step_read {r : Request} {t : Tape} {a : Answer} {pos : Nat}
    (h : r.scan.runFrom t.bytes t.pos = pure (.ok (a, pos))) :
    step (.read r) t = .ok (pure (.plain (.ok a), { t with pos })) := by
  simp [step, scan_run h]

theorem step_load {l : Load} {dst payload : Bytes} {t : Tape} {pos : Nat}
    (h : (l.scan dst.length).runFrom t.bytes t.pos = pure (.ok (payload, pos))) :
    step (.load l dst) t =
      .ok (pure (.loaded (l.answer payload) (dst.overlay 0 payload), { t with pos })) := by
  simp [step, load, StateT.run_bind, scan_run h]

theorem of_run_cons {c : Command} {cs : List Command} {t last : Tape} {r : Reply × Tape}
    {notes : List (Reply × Nat)} {events : List Event} (h : step c t = .ok (pure r))
    (ran : run (c :: cs) t = .ok ⟨(notes, last), events⟩) :
    ∃ others, notes = (r.1, r.2.pos) :: others ∧ run cs r.2 = .ok ⟨(others, last), events⟩ := by
  rw [run_cons h] at ran
  cases outcome : run cs r.2 with
  | error m =>
    rw [outcome] at ran
    cases ran
  | ok l =>
    rw [outcome] at ran
    cases ran
    exact ⟨l.value.1, rfl, rfl⟩

theorem of_run_put {e : Entry} {cs : List Command} {t last : Tape} {pos : Nat}
    {notes : List (Reply × Nat)} {events : List Event}
    (ran : run (.put e :: cs) t = .ok ⟨((.done, pos) :: notes, last), events⟩) :
    ∃ b, e.encode = .ok b ∧ b.length ≤ t.remaining ∧ pos = t.pos + b.length ∧
      run cs ⟨t.bytes.overlay t.pos b, t.pos + b.length⟩ = .ok ⟨(notes, last), events⟩ := by
  obtain ⟨others, first, rest⟩ := of_run_cons (step_put e t) ran
  cases encoded : e.encode with
  | error f =>
    rw [encoded] at first
    cases first
  | ok b =>
    by_cases full : t.remaining < b.length
    · simp only [encoded, full, ite_true] at first
      cases first
    · simp only [encoded, full, ite_false] at first rest
      cases first
      exact ⟨b, rfl, Nat.le_of_not_lt full, rfl, rest⟩

end Tape

end WireCodec
