import WireCodec.Proofs.Stream.ScratchReader

/-!
# What a failed read answers

A read that cannot have its whole value is answered with zero, false or nothing, whatever it has met
before it failed. The one exception is a complex number: it is read as two numbers, each of which is
all or zero, so one part may be there where the other is missing.
-/

set_option autoImplicit false

namespace WireCodec

namespace StreamReader

/-- The answer of a reader that cannot have the whole of a field; of a complex number it may still
have a part. -/
def remnant (r : StreamReader) (f : Field Order) : Value :=
  match f.halves? with
  | none => f.zero
  | some (o, w, pair) =>
    match (Parse.number o w).runOn r.source with
    | (.ok re, _) => pair re 0
    | (.error _, behind) =>
      if r.slot.strict then pair 0 0
        else pair 0 (((Parse.number o w).runOn behind).1.toOption.getD 0)

theorem remnant_of_whole {f : Field Order} (whole : f.halves? = none) (r : StreamReader) :
    r.remnant f = f.zero := by
  rw [remnant, whole]

variable {α : Type}

theorem attempt_answer_of_kept (p : Parse α) (slot : ErrorSlot) (f : Failure) (s : Source) :
    ((attempt p).run ⟨slot.keeping f, s⟩).value.1 =
      if slot.strict then none else (p.runOn s).1.toOption := by
  have kept : (slot.keeping f).first.isSome = true := by simp [ErrorSlot.keeping]
  cases strict : slot.strict with
  | true =>
    have blocked : (slot.keeping f).blocked = true := by
      rw [ErrorSlot.blocked, kept, Bool.and_true]
      exact strict
    rw [attempt_blocked blocked]
    rfl
  | false =>
    have unblocked : (slot.keeping f).blocked = false := by
      rw [ErrorSlot.blocked, kept, Bool.and_true]
      exact strict
    cases parsed : p.runOn s with
    | mk outcome last =>
      cases outcome with
      | ok v =>
        rw [attempt_ok unblocked parsed]
        rfl
      | error g =>
        rw [attempt_error unblocked parsed]
        rfl

theorem answer_of_blocked (f : Field Order) {r : StreamReader} (blocked : r.slot.blocked = true) :
    ((fetch f).run r).value.1 = f.zero := by
  have came := fetched f r
  generalize (fetch f).run r = x at came
  cases came with
  | idle _ => rfl
  | read unblocked _ | failed unblocked _ _ _ _ _ =>
    rw [blocked] at unblocked
    cases unblocked

theorem answer_of_parsed {f : Field Order} {r : StreamReader} {v : Value} {s : Source}
    (unblocked : r.slot.blocked = false)
    (parsed : f.parse.runOn r.source = (.ok v, s)) : ((fetch f).run r).value.1 = v := by
  have came := fetched f r
  generalize (fetch f).run r = x at came
  cases came with
  | idle blocked =>
    rw [unblocked] at blocked
    cases blocked
  | read _ parsed' =>
    rw [parsed] at parsed'
    cases parsed'
    rfl
  | failed _ parsed' _ _ _ _ =>
    rw [parsed] at parsed'
    cases parsed'

theorem answer_of_failed {f : Field Order} (entire : f.mayBeShort = false) {r : StreamReader}
    {g : Failure} {s : Source}
    (unblocked : r.slot.blocked = false) (parsed : f.parse.runOn r.source = (.error g, s)) :
    ((fetch f).run r).value.1 = r.remnant f := by
  cases shape f with
  | drawn n answer short _ _ _ =>
    rw [entire] at short
    cases short
  | one p answer whole fetch_eq parse_eq zero =>
    rw [fetch_eq, remnant_of_whole whole, ← zero]
    rw [parse_eq] at parsed
    cases first : p.runOn r.source with
    | mk outcome mid =>
      cases outcome with
      | ok v =>
        rw [Parse.runOn_bind_ok first] at parsed
        cases parsed
      | error e =>
        rw [run_bind_of (attempt_error unblocked first)]
        rfl
  | @two o w pair halves fetch_eq parse_eq zero =>
    rw [fetch_eq, remnant, halves]
    rw [parse_eq] at parsed
    dsimp only
    cases first : (Parse.number o w).runOn r.source with
    | mk outcome mid =>
      cases outcome with
      | ok re =>
        rw [Parse.runOn_bind_ok first] at parsed
        rw [run_bind_of (attempt_ok unblocked first)]
        cases second : (Parse.number o w).runOn mid with
        | mk outcome last =>
          cases outcome with
          | ok im =>
            rw [Parse.runOn_bind_ok second] at parsed
            cases parsed
          | error e =>
            rw [run_bind_of (attempt_error (r := ⟨r.slot, mid⟩) unblocked second)]
            rfl
      | error e =>
        have later := attempt_answer_of_kept (Parse.number o w) r.slot e mid
        rw [run_bind_of (attempt_error unblocked first)]
        change pair 0 (((attempt (Parse.number o w)).run ⟨_, mid⟩).value.1.getD 0) = _
        rw [later]
        cases r.slot.strict <;> rfl

end StreamReader

namespace ScratchReader

open StreamReader (Command Reply)

/-- Whether the reader has not the whole of a field: it is blocked, or the field fails to parse. -/
def Misses (s : ScratchReader) (f : Field Order) : Prop :=
  s.reader.slot.blocked = true ∨ ∃ g rest, f.parse.runOn s.reader.source = (.error g, rest)

theorem step_fetch {s : ScratchReader} (room : s.scratch.length = scratchBytes) {f : Field Order}
    (entire : f.mayBeShort = false) : ∃ (s' : ScratchReader) (events : List Event),
      step (.fetch f) s =
        .ok ⟨(.value ((StreamReader.fetch f).run s.reader).value.1, s'), events⟩ := by
  have proper : s.reader.misuse? (.fetch f) = none := by
    cases f with
    | bytes n => cases entire
    | _ => rfl
  obtain ⟨scratch, -, stepped⟩ := step_eq (.fetch f) s.reader room
  rw [StreamReader.step, proper] at stepped
  exact ⟨_, _, stepped⟩

/-- A failed read answers zero, or for a complex number what it has of the two parts; no other value
is answered in part. -/
theorem failed_read_answers_zero_or_half (s : ScratchReader)
    (room : s.scratch.length = scratchBytes) (f : Field Order)
    (entire : f.mayBeShort = false) : ∃ (v : Value) (s' : ScratchReader) (events : List Event),
      step (.fetch f) s = .ok ⟨(.value v, s'), events⟩ ∧
      (f.halves? = none → s.Misses f → v = f.zero) ∧
      (s.reader.slot.blocked = true → v = f.zero) ∧
      (s.reader.slot.blocked = false → ∀ w rest,
        f.parse.runOn s.reader.source = (.ok w, rest) → v = w) ∧
      (s.reader.slot.blocked = false → ∀ g rest, f.parse.runOn s.reader.source = (.error g, rest) →
        v = s.reader.remnant f) := by
  obtain ⟨s', events, stepped⟩ := step_fetch room entire
  refine ⟨_, s', events, stepped,
    fun whole missed => ?_, fun blocked => StreamReader.answer_of_blocked f blocked,
    fun unblocked w rest parsed => StreamReader.answer_of_parsed unblocked parsed,
    fun unblocked g rest parsed => StreamReader.answer_of_failed entire unblocked parsed⟩
  by_cases blocked : s.reader.slot.blocked = true
  · exact StreamReader.answer_of_blocked f blocked
  · obtain ⟨g, rest, parsed⟩ := missed.resolve_left blocked
    have answer := StreamReader.answer_of_failed entire (Bool.eq_false_iff.mpr blocked) parsed
    exact answer.trans (StreamReader.remnant_of_whole whole s.reader)

theorem failed_read_answers_zero_or_half_of_one :
    let short (strict : Bool) : ScratchReader := .over ⟨[.data [5, 1, 2]]⟩ strict
    let ended : ScratchReader := .over ⟨[.data [0, 0, 0x80, 0x3f]]⟩ true
    let torn : ScratchReader := .over ⟨[.fault ⟨.other, "torn"⟩, .data [0, 0, 0x80, 0x3f]]⟩ false
    let blob : Field Order := .blob (.fixed .little) .one
    let complex : Field Order := .complex64 (.fixed .little)
    (∀ strict,
      ∃ s' events, step (.fetch blob) (short strict) = .ok ⟨(.value (.bytes []), s'), events⟩) ∧
      (∃ s' events,
        step (.fetch complex) ended = .ok ⟨(.value (.complex64 0x3f800000 0), s'), events⟩) ∧
      ∃ s' events,
        step (.fetch complex) torn = .ok ⟨(.value (.complex64 0 0x3f800000), s'), events⟩ := by
  intro short ended torn blob complex
  refine ⟨fun strict => ?_, ?_, ?_⟩
  · obtain ⟨v, s', events, stepped, zero, -⟩ :=
      failed_read_answers_zero_or_half (short strict) rfl blob rfl
    have missed : (short strict).Misses blob := .inr ⟨.shortRead 2 5, _, rfl⟩
    obtain rfl := zero rfl missed
    exact ⟨s', events, stepped⟩
  · obtain ⟨v, s', events, stepped, -, -, -, part⟩ :=
      failed_read_answers_zero_or_half ended rfl complex rfl
    obtain rfl := part rfl (.shortRead 0 4) _ rfl
    exact ⟨s', events, stepped⟩
  · obtain ⟨v, s', events, stepped, -, -, -, part⟩ :=
      failed_read_answers_zero_or_half torn rfl complex rfl
    obtain rfl := part rfl (.io ⟨.other, "torn"⟩) _ rfl
    exact ⟨s', events, stepped⟩

theorem half_of_complex_number_shows :
    ¬ ∀ (s : ScratchReader) (f : Field Order), s.scratch.length = scratchBytes →
    f.mayBeShort = false → s.Misses f → ∃ s' events,
      step (.fetch f) s = .ok ⟨(.value f.zero, s'), events⟩ := by
  intro always
  let s : ScratchReader := .over ⟨[.data [0, 0, 0x80, 0x3f]]⟩ true
  let f : Field Order := .complex64 (.fixed .little)
  obtain ⟨_, _, stepped⟩ := always s f rfl rfl (.inr ⟨.shortRead 0 4, _, rfl⟩)
  obtain ⟨_, _, came⟩ := step_fetch (s := s) rfl (f := f) rfl
  rw [stepped] at came
  have answer : ((StreamReader.fetch f).run s.reader).value.1 = .complex64 0x3f800000 0 :=
    StreamReader.answer_of_failed (g := .shortRead 0 4) rfl rfl rfl
  have zero : f.zero = ((StreamReader.fetch f).run s.reader).value.1 :=
    Reply.value.inj (congrArg (fun x => x.value.1) (Except.ok.inj came))
  exact absurd (zero.trans answer) (by decide)

end ScratchReader

end WireCodec
