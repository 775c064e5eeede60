import WireCodec.Proofs.Stream.ScratchWriter

/-!
# The first failure stands

A writer keeps the first thing that goes wrong since it was made or last cleared: a length that
cannot be announced, or a call that the sink fails or, of the calls that write a value, cuts short.
Nothing but clearing changes what is kept. While a strict writer keeps a failure it leaves its sink
alone; once cleared, a writer is as good as new.
-/

set_option autoImplicit false

namespace WireCodec

def Item.overflow? {ω : Type} : Item ω → Option Failure
  | blob _ f b =>
    if f.maxLength < b.length then some (.integerOverflow b.length f.maxLength) else none
  | text _ f t =>
    if f.maxLength < (Utf8.encode t).length then
      some (.integerOverflow (Utf8.encode t).length f.maxLength)
    else none
  | _ => none

theorem Item.overflow?_eq (i : Item Order) : i.overflow? =
    match i.buffers with
    | .error f => some f
    | .ok _ => none := by
  have counted_eq (o : Order) (f : LengthField) (b : Bytes) :
      (if f.maxLength < b.length then some (.integerOverflow b.length f.maxLength) else none) =
        match counted o f b with
        | .error f => some f
        | .ok _ => none := by
    unfold counted
    split <;> rfl
  cases i with
  | blob o f b => exact counted_eq o f b
  | text o f t => exact counted_eq o f (Utf8.encode t)
  | bytes | word | bool | uint | int | uvarint | varint | float32 | float64 | complex64
  | complex128 => rfl

namespace Sink

/-- What a sink makes of a call after a history of calls. Whether a buffer has to be taken whole
depends on who offers it. -/
def verdict (s : Sink) (whole : Bool) (history : List SinkCall) : SinkCall → Option Failure
  | .write b =>
    match s.accept history b with
    | .error e => some (.io e)
    | .ok n => if whole ∧ n < b.length then some (.shortWrite n b.length) else none
  | .flush => (s.flushFault history).map .io

def verdicts (s : Sink) (whole : Bool) : List SinkCall → List SinkCall → List Failure
  | _, [] => []
  | history, call :: calls =>
    (s.verdict whole history call).toList ++ s.verdicts whole (history ++ [call]) calls

theorem verdicts_append (s : Sink) (whole : Bool) (history calls more : List SinkCall) :
    s.verdicts whole history (calls ++ more) =
      s.verdicts whole history calls ++ s.verdicts whole (history ++ calls) more := by
  induction calls generalizing history with
  | nil => simp [verdicts]
  | cons call calls ih => simp [verdicts, ih]

theorem verdicts_congr {s s' : Sink} (accept : s'.accept = s.accept)
    (flushFault : s'.flushFault = s.flushFault) (whole : Bool) (history calls : List SinkCall) :
    s'.verdicts whole history calls = s.verdicts whole history calls := by
  induction calls generalizing history with
  | nil => rfl
  | cons call calls ih =>
    rw [verdicts, verdicts, ih]
    cases call with
    | write b => rw [verdict, verdict, accept]
    | flush => rw [verdict, verdict, flushFault]

theorem verdicts_single (s : Sink) (whole : Bool) (history : List SinkCall) (call : SinkCall) :
    (s.verdicts whole history [call]).head? = s.verdict whole history call := by
  cases verdict : s.verdict whole history call <;> simp [verdicts, verdict]

end Sink

namespace StreamWriter

def Command.clears : Command → Bool
  | .reset | .takeError => true
  | _ => false

/-- Whether a buffer that is cut short counts as a failure. -/
def Command.wantsWhole : Command → Bool
  | .put _ => true
  | _ => false

def Command.overflow? : Command → Option Failure
  | .put i => i.overflow?
  | _ => none

def next (c : Command) (w : StreamWriter) : StreamWriter := ((perform c).run w).value.2

def callsOf (c : Command) (w : StreamWriter) : List SinkCall :=
  (next c w).sink.calls.drop w.sink.calls.length

/-- All that goes wrong in a step. A blocked writer does not look at the length of a payload. -/
def mishaps (c : Command) (w : StreamWriter) : List Failure :=
  (if w.slot.blocked then none else c.overflow?).toList ++
    w.sink.verdicts c.wantsWhole w.sink.calls (callsOf c w)

/-- The writer keeps the first failure of the calls that the action makes, if it keeps none
already. -/
structure Judged (whole : Bool) (w w' : StreamWriter) (calls : List SinkCall) : Prop where
  strict : w'.slot.strict = w.slot.strict
  first : w'.slot.first = w.slot.first.or (w.sink.verdicts whole w.sink.calls calls).head?
  calls : w'.sink.calls = w.sink.calls ++ calls
  accept : w'.sink.accept = w.sink.accept
  flushFault : w'.sink.flushFault = w.sink.flushFault

theorem judged_refl (whole : Bool) (w : StreamWriter) : Judged whole w w [] where
  strict := rfl
  first := by simp [Sink.verdicts]
  calls := by simp
  accept := rfl
  flushFault := rfl

theorem Judged.trans {whole : Bool} {w w' w'' : StreamWriter} {calls more : List SinkCall}
    (h : Judged whole w w' calls)
    (h' : Judged whole w' w'' more) : Judged whole w w'' (calls ++ more) where
  strict := h'.strict.trans h.strict
  first := by
    rw [h'.first, h.first, h.calls, Sink.verdicts_congr h.accept h.flushFault, Sink.verdicts_append,
      List.head?_append, Option.or_assoc]
  calls := by rw [h'.calls, h.calls, List.append_assoc]
  accept := h'.accept.trans h.accept
  flushFault := h'.flushFault.trans h.flushFault

theorem noted (f : Failure) (w : StreamWriter) :
    ((note f).run w).value.2 =
      { w with slot := { w.slot with first := w.slot.first.or (some f) } } := by
  obtain ⟨⟨strict, first⟩, sink⟩ := w
  cases first <;> rfl

theorem judged_call {whole : Bool} {w : StreamWriter} {call : SinkCall} {sink : Sink}
    (f : Option Failure) (verdict : w.sink.verdict whole w.sink.calls call = f)
    (calls : sink.calls = w.sink.calls ++ [call])
    (accept : sink.accept = w.sink.accept) (flushFault : sink.flushFault = w.sink.flushFault) :
    Judged whole w ⟨{ w.slot with first := w.slot.first.or f }, sink⟩ [call] where
  strict := rfl
  first := by rw [Sink.verdicts_single, verdict]
  calls := calls
  accept := accept
  flushFault := flushFault

theorem judged_clean {whole : Bool} {w : StreamWriter} {call : SinkCall} {sink : Sink}
    (verdict : w.sink.verdict whole w.sink.calls call = none)
    (calls : sink.calls = w.sink.calls ++ [call])
    (accept : sink.accept = w.sink.accept) (flushFault : sink.flushFault = w.sink.flushFault) :
    Judged whole w ⟨w.slot, sink⟩ [call] := by
  have judged := judged_call none verdict calls accept flushFault
  rwa [Option.or_none] at judged

theorem judged_offer (b : Bytes) (w : StreamWriter) :
    ∃ calls, Judged true w ((offer b).run w).value.2 calls := by
  by_cases blocked : w.slot.blocked = true
  · have skipped : (offer b).run w = pure (0, w) := by simp [offer, StateT.run_bind, blocked]
    rw [skipped]
    exact ⟨[], judged_refl true w⟩
  · have unblocked : w.slot.blocked = false := by simpa using blocked
    refine ⟨[.write b], ?_⟩
    cases answer : w.sink.accept w.sink.calls b with
    | error e =>
      have verdict : w.sink.verdict true w.sink.calls (.write b) = some (.io e) := by
        simp [Sink.verdict, answer]
      rw [offer_of_error unblocked (Sink.write_of_error answer)]
      change Judged true w ((note (.io e)).run ⟨w.slot, w.sink.taking b 0⟩).value.2 _
      rw [noted]
      exact judged_call _ verdict rfl rfl rfl
    | ok n =>
      by_cases short : n < b.length
      · have verdict : w.sink.verdict true w.sink.calls (.write b) =
            some (.shortWrite n b.length) := by
          simp [Sink.verdict, answer, short]
        have taken := Sink.write_of_ok answer
        rw [Nat.min_eq_left (Nat.le_of_lt short)] at taken
        rw [offer_of_short unblocked taken (Nat.ne_of_lt short)]
        change Judged true w
          ((note (.shortWrite n b.length)).run ⟨w.slot, w.sink.taking b n⟩).value.2 _
        rw [noted]
        exact judged_call _ verdict rfl rfl rfl
      · have verdict : w.sink.verdict true w.sink.calls (.write b) = none := by
          simp [Sink.verdict, answer, short]
        have taken := Sink.write_of_ok answer
        rw [Nat.min_eq_right (Nat.le_of_not_lt short)] at taken
        rw [offer_of_whole unblocked taken]
        exact judged_clean verdict rfl rfl rfl

theorem judged_offerAll (bs : List Bytes) (w : StreamWriter) :
    ∃ calls, Judged true w ((offerAll bs).run w).value.2 calls := by
  induction bs generalizing w with
  | nil => exact ⟨[], judged_refl true w⟩
  | cons b bs ih =>
    obtain ⟨calls, first⟩ := judged_offer b w
    obtain ⟨more, others⟩ := ih ((offer b).run w).value.2
    exact ⟨calls ++ more, first.trans others⟩

theorem transfer_of_obstacle {w : StreamWriter} {f : Failure} (h : w.slot.obstacle? = some f)
    (b : Bytes) :
    (transfer b).run w = pure (.error f.toIoError, w) := by
  simp [transfer, StateT.run_bind, h]

theorem flush_of_obstacle {w : StreamWriter} {f : Failure} (h : w.slot.obstacle? = some f) :
    flush.run w = pure (.error f.toIoError, w) := by
  simp [flush, StateT.run_bind, h]

theorem judged_transfer (b : Bytes) (w : StreamWriter) :
    ∃ calls, Judged false w ((transfer b).run w).value.2 calls := by
  cases obstacle : w.slot.obstacle? with
  | some f =>
    rw [transfer_of_obstacle obstacle]
    exact ⟨[], judged_refl false w⟩
  | none =>
    refine ⟨[.write b], ?_⟩
    cases answer : w.sink.accept w.sink.calls b with
    | error e =>
      have verdict : w.sink.verdict false w.sink.calls (.write b) = some (.io e) := by
        simp [Sink.verdict, answer]
      have after : ((transfer b).run w).value.2 =
          ((note (.io e)).run ⟨w.slot, w.sink.taking b 0⟩).value.2 := by
        simp [transfer, StateT.run_bind, obstacle, Sink.write_of_error answer]
      rw [after, noted]
      exact judged_call _ verdict rfl rfl rfl
    | ok n =>
      have verdict : w.sink.verdict false w.sink.calls (.write b) = none := by
        simp [Sink.verdict, answer]
      have after : ((transfer b).run w).value.2 = ⟨w.slot, w.sink.taking b n⟩ := by
        simp [transfer, StateT.run_bind, obstacle, Sink.write_of_ok answer]
      rw [after]
      exact judged_clean verdict rfl rfl rfl

theorem judged_flush (whole : Bool) (w : StreamWriter) :
    ∃ calls, Judged whole w (flush.run w).value.2 calls := by
  cases obstacle : w.slot.obstacle? with
  | some f =>
    rw [flush_of_obstacle obstacle]
    exact ⟨[], judged_refl whole w⟩
  | none =>
    refine ⟨[.flush], ?_⟩
    cases answer : w.sink.flushFault w.sink.calls with
    | some e =>
      have verdict : w.sink.verdict whole w.sink.calls .flush = some (.io e) := by
        simp [Sink.verdict, answer]
      have after : (flush.run w).value.2 =
          ((note (.io e)).run
            ⟨w.slot, { w.sink with calls := w.sink.calls ++ [.flush] }⟩).value.2 := by
        simp [flush, StateT.run_bind, obstacle, Sink.flush, answer]
      rw [after, noted]
      exact judged_call _ verdict rfl rfl rfl
    | none =>
      have verdict : w.sink.verdict whole w.sink.calls .flush = none := by
        simp [Sink.verdict, answer]
      have after : (flush.run w).value.2 =
          ⟨w.slot, { w.sink with calls := w.sink.calls ++ [.flush] }⟩ := by
        simp [flush, StateT.run_bind, obstacle, Sink.flush, answer]
      rw [after]
      exact judged_clean verdict rfl rfl rfl

/-- A step clears what is kept, or it is about a length that cannot be announced, or it makes
calls. -/
inductive Goes (c : Command) (w : StreamWriter) : Prop
  | clears (clears : c.clears = true) (after : next c w = ⟨w.slot.clear, w.sink⟩)
  | overflows (f : Failure) (clears : c.clears = false) (unblocked : w.slot.blocked = false)
    (overflow : c.overflow? = some f)
      (after : next c w = { w with slot := { w.slot with first := w.slot.first.or (some f) } })
  | calls (calls : List SinkCall) (clears : c.clears = false)
    (announced : w.slot.blocked = true ∨ c.overflow? = none)
      (judged : Judged c.wantsWhole w (next c w) calls)

theorem goes_put (i : Item Order) (w : StreamWriter) : Goes (.put i) w := by
  by_cases blocked : w.slot.blocked = true
  · have skipped : next (.put i) w = w := by simp [next, perform, put, StateT.run_bind, blocked]
    refine .calls [] rfl (.inl blocked) ?_
    rw [skipped]
    exact judged_refl true w
  · have overflow := i.overflow?_eq
    cases encoded : i.buffers with
    | error f =>
      rw [encoded] at overflow
      have after : next (.put i) w = ((note f).run w).value.2 := by
        simp [next, perform, put, StateT.run_bind, blocked, encoded]
      exact .overflows f rfl (by simpa using blocked) overflow (after.trans (noted f w))
    | ok bs =>
      rw [encoded] at overflow
      obtain ⟨calls, judged⟩ := judged_offerAll bs w
      rw [← put_eq_offerAll encoded] at judged
      exact .calls calls rfl (.inr overflow) judged

theorem goes (c : Command) (w : StreamWriter) : Goes c w := by
  cases c with
  | put i => exact goes_put i w
  | transfer b =>
    obtain ⟨calls, judged⟩ := judged_transfer b w
    exact .calls calls rfl (.inr rfl) judged
  | flush =>
    obtain ⟨calls, judged⟩ := judged_flush false w
    exact .calls calls rfl (.inr rfl) judged
  | reset | takeError => exact .clears rfl rfl
  | error | debug => exact .calls [] rfl (.inr rfl) (judged_refl false w)
  | push b =>
    have judged : Judged false w { w with sink := w.sink.push b } [] :=
      ⟨rfl, by simp [Sink.verdicts], by simp [Sink.push], rfl, rfl⟩
    exact .calls [] rfl (.inr rfl) judged

theorem first_next (c : Command) (w : StreamWriter) :
    (next c w).slot.first = if c.clears then none else w.slot.first.or (mishaps c w).head? := by
  cases goes c w with
  | clears clears after =>
    rw [after, if_pos clears]
    rfl
  | overflows f clears unblocked overflow after =>
    have silent : callsOf c w = [] := by
      rw [callsOf, after]
      exact List.drop_length
    rw [after, mishaps, silent, unblocked, overflow, clears]
    rfl
  | calls calls clears announced judged =>
    have made : callsOf c w = calls := by rw [callsOf, judged.calls, List.drop_left]
    have short : (if w.slot.blocked then none else c.overflow?) = none := by
      rcases announced with blocked | none
      · rw [if_pos blocked]
      · rw [none, ite_self]
    rw [judged.first, mishaps, made, short, clears]
    rfl

theorem next_of_clears {c : Command} (clears : c.clears = true) (w : StreamWriter) :
    next c w = .over w.sink w.slot.strict := by
  cases c with
  | reset | takeError => rfl
  | put _ | transfer _ | flush | error | debug | push _ => cases clears

theorem strict_next (c : Command) (w : StreamWriter) : (next c w).slot.strict = w.slot.strict := by
  cases goes c w with
  | clears _ after | overflows _ _ _ _ after => exact congrArg (fun w => w.slot.strict) after
  | calls _ _ _ judged => exact judged.strict

theorem calls_next (c : Command) (w : StreamWriter) :
    (next c w).sink.calls = w.sink.calls ++ callsOf c w := by
  have front : w.sink.calls <+: (next c w).sink.calls := by
    cases goes c w with
    | clears _ after | overflows _ _ _ _ after =>
      have same : (next c w).sink.calls = w.sink.calls := congrArg (fun w => w.sink.calls) after
      exact ⟨[], by rw [same, List.append_nil]⟩
    | calls calls _ _ judged => exact ⟨calls, judged.calls.symm⟩
  obtain ⟨calls, calls_eq⟩ := front
  rw [callsOf, ← calls_eq, List.drop_left]

/-! ## Runs -/

/-- What can be seen of a step. -/
structure Sight where
  reply : Reply
  events : List Event
  first : Option Failure
  calls : List SinkCall
  data : Bytes

def Sight.of (reply : Reply) (events : List Event) (w : StreamWriter) : Sight :=
  ⟨reply, events, w.slot.first, w.sink.calls, w.sink.data⟩

def run : List Command → StreamWriter → List Sight × StreamWriter
  | [], w => ([], w)
  | c :: cs, w =>
    let ran := (perform c).run w
    let (sights, last) := run cs ran.value.2
    (.of ran.value.1 ran.events ran.value.2 :: sights, last)

/-- All that has gone wrong since the writer was last cleared; `earlier` is what had gone wrong
before the run. -/
def mishapsSince (earlier : List Failure) : List Command → StreamWriter → List Failure
  | [], _ => earlier
  | c :: cs, w => mishapsSince (if c.clears then [] else earlier ++ mishaps c w) cs (next c w)

theorem first_run {earlier : List Failure} {w : StreamWriter} (start : w.slot.first = earlier.head?)
    (cs : List Command) :
    (run cs w).2.slot.first = (mishapsSince earlier cs w).head? := by
  -- On the commands: at every point the head of what has gone wrong so far is kept.
  induction cs generalizing earlier w with
  | nil => exact start
  | cons c cs ih =>
    refine ih ?_
    change (next c w).slot.first = _
    rw [first_next, start]
    cases c.clears with
    | true => rfl
    | false => exact List.head?_append.symm

theorem strict_run (cs : List Command) (w : StreamWriter) :
    (run cs w).2.slot.strict = w.slot.strict := by
  induction cs generalizing w with
  | nil => rfl
  | cons c cs ih => exact (ih (next c w)).trans (strict_next c w)

/-- The answer of a strict writer that keeps a failure. -/
def Command.idleReply (f : Failure) (w : StreamWriter) : Command → Reply
  | .put i => putReply i 0
  | .transfer _ => .transferred (.error f.toIoError)
  | .flush => .flushed (.error f.toIoError)
  | .error => .failure (some f)
  | .debug => .text w.debugText
  | .reset | .takeError | .push _ => .done

def Command.toWriter : Command → Bool
  | .push _ => false
  | _ => true

theorem perform_of_kept {c : Command} {w : StreamWriter} {f : Failure}
    (strict : w.slot.strict = true)
    (kept : w.slot.first = some f) (clears : c.clears = false) (toWriter : c.toWriter = true) :
    (perform c).run w = pure (c.idleReply f w, w) := by
  have blocked : w.slot.blocked = true := by simp [ErrorSlot.blocked, strict, kept]
  have obstacle : w.slot.obstacle? = some f := by simp [ErrorSlot.obstacle?, strict, kept]
  cases c with
  | put i => simp [perform, put, StateT.run_bind, blocked, Command.idleReply]
  | transfer b => simp [perform, transfer_of_obstacle obstacle, Command.idleReply]
  | flush => simp [perform, flush_of_obstacle obstacle, Command.idleReply]
  | error => simp [perform, kept, Command.idleReply]
  | debug => rfl
  | reset | takeError => cases clears
  | push b => cases toWriter

end StreamWriter

namespace ScratchWriter

open StreamWriter (Command Reply Sight)

def run : List Command → ScratchWriter → Except Misuse (List Sight × ScratchWriter)
  | [], s => .ok ([], s)
  | c :: cs, s =>
    match runOn (perform c) s with
    | ⟨.error m, _⟩ => .error m
    | ⟨.ok (reply, s'), events⟩ =>
      (run cs s').map fun (sights, last) => (.of reply events s'.writer :: sights, last)

theorem run_eq (cs : List Command) (w : StreamWriter) {scratch : Bytes}
    (room : scratch.length = Leb128.maxBytes) :
    ∃ scratch' : Bytes, scratch'.length = Leb128.maxBytes ∧
      run cs ⟨w, scratch⟩ =
        .ok ((StreamWriter.run cs w).1, ⟨(StreamWriter.run cs w).2, scratch'⟩) := by
  induction cs generalizing w scratch with
  | nil => exact ⟨scratch, room, rfl⟩
  | cons c cs ih =>
    obtain ⟨middle, room', ran⟩ := shadows_perform c w scratch room
    obtain ⟨last, room'', rest⟩ := ih ((StreamWriter.perform c).run w).value.2 room'
    refine ⟨last, room'', ?_⟩
    rw [run, ran]
    dsimp only
    rw [rest]
    rfl

/-- A writer keeps the first thing to go wrong since it was last cleared; while a strict one keeps a
failure it makes no call. -/
theorem first_failure_stands (sink : Sink) (strict : Bool) (before : List Command) :
    ∃ (sights : List Sight) (s : ScratchWriter), run before (.over sink strict) = .ok (sights, s) ∧
      StreamWriter.run before (.over sink strict) = (sights, s.writer) ∧
      s.writer.slot.strict = strict ∧
      s.writer.slot.first = (StreamWriter.mishapsSince [] before (.over sink strict)).head? ∧
      ∀ c : Command, ∃ (reply : Reply) (s' : ScratchWriter) (events : List Event),
        runOn (perform c) s = ⟨.ok (reply, s'), events⟩ ∧
        s'.writer.sink.calls = s.writer.sink.calls ++ StreamWriter.callsOf c s.writer ∧
        (∀ f, s.writer.slot.first = some f → c.clears = false →
          s'.writer.slot.first = some f ∧
          (strict = true → c.toWriter = true →
            reply = c.idleReply f s.writer ∧ s'.writer = s.writer ∧ events = [])) ∧
        (c.clears = true → ∀ after, ∃ (further : List Sight) (last last' : ScratchWriter),
          run after s' = .ok (further, last) ∧
          run after (.over s.writer.sink strict) = .ok (further, last')) := by
  have room : (ScratchWriter.over sink strict).scratch.length = Leb128.maxBytes :=
    List.length_replicate
  obtain ⟨scratch, room', ran⟩ := run_eq before (.over sink strict) room
  have strict_eq := StreamWriter.strict_run before (.over sink strict)
  have start : (StreamWriter.over sink strict).slot.first = ([] : List Failure).head? := rfl
  have first_eq := StreamWriter.first_run start before
  generalize StreamWriter.run before (.over sink strict) = whole at ran strict_eq first_eq
  obtain ⟨sights, w⟩ := whole
  change w.slot.strict = strict at strict_eq
  refine ⟨sights, ⟨w, scratch⟩, ran, rfl, strict_eq, first_eq, fun c => ?_⟩
  obtain ⟨scratch', room'', stepped⟩ := shadows_perform c w scratch room'
  refine ⟨_, _, _, stepped, StreamWriter.calls_next c w,
    fun f kept clears => ⟨?_, fun isStrict toWriter => ?_⟩, ?_⟩
  · have stands := StreamWriter.first_next c w
    rw [clears, kept] at stands
    exact stands
  · have idle := StreamWriter.perform_of_kept (strict_eq.trans isStrict) kept clears toWriter
    rw [idle]
    exact ⟨rfl, rfl, rfl⟩
  · intro clears after
    -- Only the scratch buffers of the two writers differ, and neither shows.
    have fresh : ((StreamWriter.perform c).run w).value.2 = .over w.sink strict := by
      rw [← strict_eq]
      exact StreamWriter.next_of_clears clears w
    rw [fresh]
    obtain ⟨_, _, cleared⟩ := run_eq after (.over w.sink strict) room''
    obtain ⟨_, _, new⟩ := run_eq after (.over w.sink strict) room
    exact ⟨_, _, _, cleared, new⟩

theorem first_failure_stands_short :
    let sink := Sink.scripted none [.limit 1 1, .refuse 2 ⟨.brokenPipe, "gone"⟩]
    let complex : Command := .put (.complex64 .standard 1 2)
    (∃ sights s, run [complex] (.over sink false) = .ok (sights, s) ∧
      s.writer.slot.first = some (.shortWrite 1 4)) ∧
      ∃ (sights : List Sight) (s s' : ScratchWriter),
        run [complex] (.over sink true) = .ok (sights, s) ∧
        s.writer.slot.first = some (.shortWrite 1 4) ∧
        runOn (perform (.put (.bytes [1]))) s = ⟨.ok (.count 0, s'), []⟩ ∧
        s'.writer = s.writer := by
  intro sink complex
  obtain ⟨sights, s, ran, -, -, first, -⟩ := first_failure_stands sink false [complex]
  obtain ⟨sights', s', ran', -, -, first', next⟩ := first_failure_stands sink true [complex]
  have kept : s'.writer.slot.first = some (.shortWrite 1 4) := first'
  obtain ⟨reply, s'', events, stepped, -, stands, -⟩ := next (.put (.bytes [1]))
  obtain ⟨-, idle⟩ := stands _ kept rfl
  obtain ⟨rfl, same, rfl⟩ := idle rfl rfl
  exact ⟨⟨sights, s, ran, first⟩, sights', s', s'', ran', kept, stepped, same⟩

end ScratchWriter

end WireCodec
