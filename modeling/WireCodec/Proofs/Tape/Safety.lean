import WireCodec.Proofs.Tape.Effects

/-!
# No run of a tape goes astray

Whatever it is told, a tape keeps its length and keeps its head inside. Reading changes no byte.
Writing changes those that the head moves over, and no other. So no slice leaves the array, no copy
is of two lengths and no position leaves 64 bits: a width that no integer has is all that stops a
run.
-/

set_option autoImplicit false

namespace WireCodec

theorem Bytes.getElem?_overlay {b patch : Bytes} {offset i : Nat} (h : offset ≤ b.length)
    (outside : i < offset ∨ offset + patch.length ≤ i) : (b.overlay offset patch)[i]? = b[i]? := by
  rcases outside with before | behind
  · rw [overlay, List.getElem?_append_left (by rw [List.length_take]; omega),
      List.getElem?_take_of_lt before]
  · obtain ⟨k, rfl⟩ := Nat.exists_eq_add_of_le behind
    have rest := congrArg (fun l : Bytes => l[0]?) (b.drop_overlay offset patch k h)
    simpa using rest

theorem Bytes.take_drop_overlay {b patch : Bytes} {offset : Nat} (h : offset ≤ b.length) :
    ((b.overlay offset patch).drop offset).take patch.length = patch := by
  have front : (b.take offset).length = offset := List.length_take_of_le h
  have rest : (b.overlay offset patch).drop offset = patch ++ b.drop (offset + patch.length) := by
    rw [overlay, List.drop_left' front]
  rw [rest, List.take_left]

namespace Tape

/-- What a command may change: no byte if it reads or fails, and otherwise those of the encoding
that it stores. -/
def Confined (c : Command) (t t' : Tape) (reply : Reply) : Prop :=
  (c.encoding? = none → t'.bytes = t.bytes) ∧
  ∀ e, c.encoding? = some e →
    (∃ f, reply = c.reply (.error f) c.destination ∧ t' = t) ∨
    ∃ b, e = .ok b ∧ reply = .done ∧ t'.pos = t.pos + b.length ∧
      (t'.bytes.drop t.pos).take b.length = b ∧
      ∀ i, i < t.pos ∨ t'.pos ≤ i → t'.bytes[i]? = t.bytes[i]?

variable {c : Command} {t t' : Tape} {reply : Reply} {events : List Event}

theorem Effect.confined (effect : Effect c t reply t' events) (inside : t.pos ≤ t.length) :
    Confined c t t' reply := by
  cases effect with
  | moved a dst pos events reads _ =>
    exact ⟨fun _ => rfl, fun e writes => by rw [reads] at writes; cases writes⟩
  | refused f events => exact ⟨fun _ => rfl, fun _ _ => .inl ⟨f, rfl, rfl⟩⟩
  | stored b encoded room =>
    constructor
    · intro reads
      rw [reads] at encoded
      cases encoded
    · intro e writes
      rw [encoded] at writes
      cases writes
      refine .inr ⟨b, rfl, rfl, rfl, Bytes.take_drop_overlay inside, fun i outside => ?_⟩
      exact Bytes.getElem?_overlay inside outside
  | corrupt code asked here unknown =>
    subst asked
    exact ⟨fun _ => rfl, fun e writes => by cases writes⟩
  | illFormed dst payload pos events asked taken illFormed _ =>
    subst asked
    exact ⟨fun _ => rfl, fun e writes => by cases writes⟩

theorem Effect.keeps (effect : Effect c t reply t' events) (inside : t.pos ≤ t.length) :
    t'.pos ≤ t'.length ∧ t'.length = t.length := by
  cases effect with
  | moved a dst pos events reads inside' => exact ⟨inside', rfl⟩
  | refused f events => exact ⟨inside, rfl⟩
  | stored b encoded room =>
    unfold remaining length at *
    have same := t.bytes.length_overlay t.pos b (by omega)
    exact ⟨by dsimp only; omega, same⟩
  | corrupt code asked here unknown => exact ⟨(List.getElem?_eq_some_iff.mp here).1, rfl⟩
  | illFormed dst payload pos events asked taken illFormed inside' => exact ⟨inside', rfl⟩

theorem run_cons_eq_ok {cs : List Command} {notes : List (Reply × Nat)} {last : Tape}
    (ran : run (c :: cs) t = .ok ⟨(notes, last), events⟩) : ∃ reply middle noted others rest,
      step c t = .ok ⟨(reply, middle), noted⟩ ∧ run cs middle = .ok ⟨(others, last), rest⟩ := by
  rw [run] at ran
  cases first : step c t with
  | error m =>
    rw [first] at ran
    cases ran
  | ok l =>
    rw [first] at ran
    cases second : run cs l.value.2 with
    | error m =>
      simp only [bind, Except.bind, second] at ran
      cases ran
    | ok l' =>
      simp only [bind, Except.bind, second] at ran
      cases ran
      exact ⟨l.value.1, l.value.2, l.events, l'.value.1, l'.events, rfl, second⟩

theorem run_keeps {cs : List Command} {notes : List (Reply × Nat)} {last : Tape}
    (inside : t.pos ≤ t.length)
    (fits : t.length ≤ maxLength) (ran : run cs t = .ok ⟨(notes, last), events⟩) :
    last.pos ≤ last.length ∧ last.length = t.length := by
  -- On the commands. That the tape is no longer than an array may be is kept with its length.
  induction cs generalizing t notes events with
  | nil =>
    cases ran
    exact ⟨inside, rfl⟩
  | cons c cs ih =>
    obtain ⟨reply, middle, noted, others, rest, first, second⟩ := run_cons_eq_ok ran
    obtain ⟨inside', same⟩ := (effect_of_step inside fits first).keeps inside
    obtain ⟨last_inside, last_same⟩ := ih inside' (by omega) second
    exact ⟨last_inside, last_same.trans same⟩

end Tape

namespace Drive

open Tape (Command Reply)

variable {t : Tape}

def run : List Command → Tape → Except Trap (Logged (List (Reply × Nat) × Tape))
  | [], t => .ok (pure ([], t))
  | c :: cs, t => do
    let first ← step c t
    let (reply, middle) := first.value
    let others ← run cs middle
    let (notes, last) := others.value
    pure ⟨((reply, middle.pos) :: notes, last), first.events ++ others.events⟩

theorem run_eq (inside : t.pos ≤ t.length) (fits : t.length ≤ maxLength) (cs : List Command) :
    run cs t = (Tape.run cs t).mapError Trap.misuse := by
  induction cs generalizing t with
  | nil => rfl
  | cons c cs ih =>
    rw [run, Tape.run, step_eq inside fits]
    cases first : Tape.step c t with
    | error m => rfl
    | ok l =>
      obtain ⟨inside', same⟩ := (Tape.effect_of_step inside fits first).keeps inside
      have rest := ih inside' (by omega)
      simp only [bind, Except.bind, Except.mapError, rest]
      cases Tape.run cs l.value.2 <;> rfl

/-- After every run the head is inside and the array has its length; only a width that no integer
has traps the next command. -/
theorem run_safe {b : Bytes} (fits : b.length ≤ maxLength) (before : List Command) :
    run before (.ofBytes b) = (Tape.run before (.ofBytes b)).mapError Trap.misuse ∧
    ∀ (notes : List (Reply × Nat)) (t : Tape) (events : List Event),
      run before (.ofBytes b) = .ok ⟨(notes, t), events⟩ →
      t.pos ≤ t.length ∧ t.length = b.length ∧ ∀ c : Command,
        step c t = (Tape.step c t).mapError Trap.misuse ∧
        (∀ x, step c t = .error x ↔ ∃ width,
          c.width? = some width ∧ ¬ (1 ≤ width ∧ width ≤ 8) ∧ width ≤ t.remaining ∧
          x = .misuse (.width width)) ∧
        ∀ (reply : Reply) (t' : Tape) (events : List Event), step c t = .ok ⟨(reply, t'), events⟩ →
          Tape.Confined c t t' reply := by
  have start : (Tape.ofBytes b).pos ≤ (Tape.ofBytes b).length := Nat.zero_le _
  have whole := run_eq start fits before
  refine ⟨whole, fun notes t events ran => ?_⟩
  have ran : Tape.run before (.ofBytes b) = .ok ⟨(notes, t), events⟩ :=
    mapError_eq_ok.mp (whole.symm.trans ran)
  obtain ⟨inside, same⟩ := Tape.run_keeps start fits ran
  have fits' : t.length ≤ maxLength := same.trans_le fits
  refine ⟨inside, same,
    fun c => ⟨step_eq inside fits' c, fun x => ?_, fun reply t' events stepped => ?_⟩⟩
  · rw [step_eq inside fits', mapError_eq_error]
    constructor
    · rintro ⟨m, stopped, rfl⟩
      obtain ⟨width, given, misfit, room, rfl⟩ := Tape.step_eq_error.mp stopped
      exact ⟨width, given, misfit, room, rfl⟩
    · rintro ⟨width, given, misfit, room, rfl⟩
      exact ⟨_, Tape.step_eq_error.mpr ⟨width, given, misfit, room, rfl⟩, rfl⟩
  · rw [step_eq inside fits', mapError_eq_ok] at stepped
    exact (Tape.effect_of_step inside fits' stepped).confined inside

theorem run_safe_astray :
    let b : Bytes := [4, 0, 0, 0, 0, 0, 0, 0, 0, 7]
    let before : List Command := [.read (.advance (2 ^ 64 - 1)), .seek 10, .readUInt 9, .rewind]
    b.length ≤ maxLength ∧ step (.readUInt 9) (.ofBytes b) = .error (.misuse (.width 9)) ∧
      (∃ notes events, run before (.ofBytes b) = .ok ⟨(notes, .ofBytes b), events⟩) ∧
      ∀ reply t' events, step (.put (.blob .b8 [5, 6])) (.ofBytes b) = .ok ⟨(reply, t'), events⟩ →
        reply = .done → t'.pos = 3 ∧ t'.bytes.take 3 = [2, 5, 6] ∧ t'.bytes[9]? = some 7 := by
  intro b before
  have fits : b.length ≤ maxLength := by decide
  obtain ⟨whole, safe⟩ := run_safe fits before
  have ran : ∃ notes events, run before (.ofBytes b) = .ok ⟨(notes, .ofBytes b), events⟩ := by
    rw [whole]
    exact ⟨_, _, rfl⟩
  obtain ⟨notes, events, reached⟩ := ran
  obtain ⟨-, -, next⟩ := safe notes (.ofBytes b) events reached
  have traps := ((next (.readUInt 9)).2.1 _).mpr ⟨9, rfl, by decide, by decide, rfl⟩
  refine ⟨fits, traps, ⟨notes, events, reached⟩, fun reply t' events stored done => ?_⟩
  obtain ⟨-, writes⟩ := (next _).2.2 reply t' events stored
  rcases writes _ rfl with ⟨f, refused, -⟩ | ⟨enc, encoded, -, moved, front, outside⟩
  · rw [done] at refused
    cases refused
  · cases encoded
    exact ⟨moved, front, (outside 9 (.inr (by rw [moved]; decide))).trans rfl⟩

end Drive

end WireCodec
