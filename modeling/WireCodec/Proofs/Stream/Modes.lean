import Mathlib.Data.List.Forall2
import WireCodec.Proofs.Stream.FirstFailure
import WireCodec.Proofs.Stream.KeptFailure

/-!
# Strict and lenient ends

What a strict end of a stream does and what a lenient one does on an equal sink or source is the
same up to the first failure, in the midst of an operation or not. There the strict one stops. The
lenient one goes on, adding to its sink or taking from its source, and whatever else goes wrong, it
keeps that first failure as well.
-/

set_option autoImplicit false

namespace WireCodec

variable {α β : Type}

namespace Sink

structure Extends (s s' : Sink) : Prop where
  calls : s.calls <+: s'.calls
  data : s.data <+: s'.data

theorem extends_rfl {s : Sink} : s.Extends s := ⟨List.prefix_rfl, List.prefix_rfl⟩

theorem Extends.trans {s s' s'' : Sink} (h : s.Extends s') (h' : s'.Extends s'') : s.Extends s'' :=
  ⟨h.calls.trans h'.calls, h.data.trans h'.data⟩

theorem extends_write (s : Sink) (b : Bytes) : s.Extends (s.write b).2 := by
  cases answer : s.accept s.calls b with
  | error e =>
    rw [write_of_error answer]
    exact ⟨List.prefix_append _ _, List.prefix_append _ _⟩
  | ok n =>
    rw [write_of_ok answer]
    exact ⟨List.prefix_append _ _, List.prefix_append _ _⟩

theorem extends_flush (s : Sink) : s.Extends s.flush.2 := by
  unfold flush
  cases s.flushFault s.calls <;> exact ⟨List.prefix_append _ _, List.prefix_rfl⟩

end Sink

/-! ## Writers -/

namespace StreamWriter

variable {w w' : StreamWriter}

theorem note_of_kept (kept : w.slot.first.isSome = true) (f : Failure) :
    (note f).run w = pure ((), w) := by
  obtain ⟨⟨strict, first⟩, sink⟩ := w
  cases first with
  | none => cases kept
  | some g => rfl

/-- Nothing is reported and nothing else kept; at most the sink is added to. -/
structure Appends (w : StreamWriter) (x : Logged (α × StreamWriter)) : Prop where
  slot : x.value.2.slot = w.slot
  events : x.events = []
  sink : w.sink.Extends x.value.2.sink

theorem appends_pure (v : α) : Appends w (pure (v, w)) := ⟨rfl, rfl, Sink.extends_rfl⟩

theorem Appends.bind {a : Action StreamWriter α} {k : α → Action StreamWriter β}
    (first : Appends w (a.run w))
    (then_ : ∀ (v : α) (mid : StreamWriter), mid.slot = w.slot → Appends mid ((k v).run mid)) :
    Appends w ((a >>= k).run w) := by
  have second := then_ (a.run w).value.1 (a.run w).value.2 first.slot
  rw [StateT.run_bind]
  refine ⟨second.slot.trans first.slot, ?_, first.sink.trans second.sink⟩
  rw [Logged.events_bind, first.events, second.events, List.nil_append]

theorem Appends.map {a : Action StreamWriter α} (h : Appends w (a.run w)) (g : α → β) :
    Appends w ((do let v ← a; pure (g v) : Action StreamWriter β).run w) :=
  h.bind fun v _ _ => appends_pure (g v)

theorem appends_offer (kept : w.slot.first.isSome = true) (b : Bytes) :
    Appends w ((offer b).run w) := by
  by_cases blocked : w.slot.blocked = true
  · have skipped : (offer b).run w = pure (0, w) := by simp [offer, StateT.run_bind, blocked]
    rw [skipped]
    exact appends_pure 0
  · have unblocked : w.slot.blocked = false := Bool.eq_false_iff.mpr blocked
    have more := w.sink.extends_write b
    cases written : w.sink.write b with
    | mk outcome sink =>
      rw [written] at more
      have silent (f : Failure) := note_of_kept (w := ⟨w.slot, sink⟩) kept f
      cases outcome with
      | error e =>
        rw [offer_of_error unblocked written, StateT.run_bind, silent]
        exact ⟨rfl, rfl, more⟩
      | ok n =>
        by_cases whole : n = b.length
        · subst whole
          rw [offer_of_whole unblocked written]
          exact ⟨rfl, rfl, more⟩
        · rw [offer_of_short unblocked written whole, StateT.run_bind, silent]
          exact ⟨rfl, rfl, more⟩

theorem appends_offerAll (kept : w.slot.first.isSome = true) (bs : List Bytes) :
    Appends w ((offerAll bs).run w) := by
  induction bs generalizing w with
  | nil => exact appends_pure 0
  | cons b bs ih =>
    refine (appends_offer kept b).bind fun n mid same => ?_
    rw [← same] at kept
    exact (ih kept).map fun m => n + m

theorem appends_perform (kept : w.slot.first.isSome = true) {c : Command}
    (clears : c.clears = false) (toWriter : c.toWriter = true) : Appends w ((perform c).run w) := by
  cases c with
  | put i =>
    refine Appends.map ?_ (putReply i)
    by_cases blocked : w.slot.blocked = true
    · have skipped : (put i).run w = pure (0, w) := by simp [put, StateT.run_bind, blocked]
      rw [skipped]
      exact appends_pure 0
    · cases encoded : i.buffers with
      | error f =>
        have silent : (put i).run w = pure (0, w) := by
          simp [put, StateT.run_bind, blocked, encoded, note_of_kept kept]
        rw [silent]
        exact appends_pure 0
      | ok bs =>
        rw [put_eq_offerAll encoded]
        exact appends_offerAll kept bs
  | transfer b =>
    refine Appends.map ?_ Reply.transferred
    have more := w.sink.extends_write b
    cases obstacle : w.slot.obstacle? with
    | some f =>
      rw [transfer_of_obstacle obstacle]
      exact appends_pure _
    | none =>
      cases written : w.sink.write b with
      | mk outcome sink =>
        rw [written] at more
        have ran : (transfer b).run w = pure (outcome, ⟨w.slot, sink⟩) := by
          cases outcome <;>
            simp [transfer, StateT.run_bind, obstacle, written,
              note_of_kept (w := ⟨w.slot, sink⟩) kept]
        rw [ran]
        exact ⟨rfl, rfl, more⟩
  | flush =>
    refine Appends.map ?_ Reply.flushed
    have more := w.sink.extends_flush
    cases obstacle : w.slot.obstacle? with
    | some f =>
      rw [flush_of_obstacle obstacle]
      exact appends_pure _
    | none =>
      cases flushed : w.sink.flush with
      | mk outcome sink =>
        rw [flushed] at more
        have ran : flush.run w = pure (outcome, ⟨w.slot, sink⟩) := by
          cases outcome <;>
            simp [flush, StateT.run_bind, obstacle, flushed,
              note_of_kept (w := ⟨w.slot, sink⟩) kept]
        rw [ran]
        exact ⟨rfl, rfl, more⟩
  | error | debug => exact appends_pure _
  | reset | takeError => cases clears
  | push b => cases toWriter

/-- A strict writer and a lenient one: equal up to the first failure, and with more in the sink of
the lenient one behind it. -/
inductive Trails : StreamWriter → StreamWriter → Prop
  | level (sink : Sink) : Trails ⟨⟨true, none⟩, sink⟩ ⟨⟨false, none⟩, sink⟩
  | stopped (f : Failure) {s s' : Sink} (more : s.Extends s') :
    Trails ⟨⟨true, some f⟩, s⟩ ⟨⟨false, some f⟩, s'⟩

/-- Trailing writers after the same operation. What they answer has to agree as long as nothing has
failed. -/
structure Parallel (agree : α → α → Prop) (x y : Logged (α × StreamWriter)) : Prop where
  trails : Trails x.value.2 y.value.2
  events : x.events = y.events
  value : y.value.2.slot.first = none → agree x.value.1 y.value.1

theorem Parallel.bind {agree : α → α → Prop} {agree' : β → β → Prop} {a a' : Action StreamWriter α}
    {k k' : α → Action StreamWriter β} (first : Parallel agree (a.run w) (a'.run w'))
    (level : ∀ u v sink, agree u v →
      Parallel agree' ((k u).run ⟨⟨true, none⟩, sink⟩) ((k' v).run ⟨⟨false, none⟩, sink⟩))
    (stopped : ∀ u v f (s s' : Sink), s.Extends s' →
      Parallel agree' ((k u).run ⟨⟨true, some f⟩, s⟩) ((k' v).run ⟨⟨false, some f⟩, s'⟩)) :
    Parallel agree' ((a >>= k).run w) ((a' >>= k').run w') := by
  rw [StateT.run_bind, StateT.run_bind]
  generalize a.run w = x at first
  generalize a'.run w' = y at first
  obtain ⟨⟨u, mid⟩, events⟩ := x
  obtain ⟨⟨v, mid'⟩, events'⟩ := y
  obtain ⟨trails, same, value⟩ := first
  cases same
  have second : Parallel agree' ((k u).run mid) ((k' v).run mid') := by
    cases trails with
    | level sink => exact level u v sink (value rfl)
    | stopped f more => exact stopped u v f _ _ more
  exact ⟨second.trails, congrArg (fun more => events ++ more) second.events, second.value⟩

theorem Parallel.map {agree : α → α → Prop} {agree' : β → β → Prop} {a a' : Action StreamWriter α}
    (h : Parallel agree (a.run w) (a'.run w')) {g : α → β}
    (keeps : ∀ u v, agree u v → agree' (g u) (g v)) :
    Parallel agree' ((do let v ← a; pure (g v) : Action StreamWriter β).run w)
      ((do let v ← a'; pure (g v) : Action StreamWriter β).run w') := by
  refine h.bind (fun u v sink same => ?_) fun u v f s s' more => ?_
  · exact ⟨.level sink, rfl, fun _ => keeps u v same⟩
  · exact ⟨.stopped f more, rfl, fun empty => by cases empty⟩

theorem parallel_stopped {agree : α → α → Prop} {f : Failure} {s s' : Sink}
    (more : s.Extends s') (v : α)
    {y : Logged (α × StreamWriter)} (appends : Appends ⟨⟨false, some f⟩, s'⟩ y) :
    Parallel agree (pure (v, ⟨⟨true, some f⟩, s⟩)) y := by
  obtain ⟨⟨u, slot, sink⟩, events⟩ := y
  obtain ⟨same, silent, further⟩ := appends
  cases same
  exact ⟨.stopped f (more.trans further), silent.symm, fun empty => by cases empty⟩

theorem parallel_offer (b : Bytes) (sink : Sink) :
    Parallel Eq ((offer b).run ⟨⟨true, none⟩, sink⟩) ((offer b).run ⟨⟨false, none⟩, sink⟩) := by
  have open_ : (⟨true, none⟩ : ErrorSlot).blocked = false := rfl
  have open_' : (⟨false, none⟩ : ErrorSlot).blocked = false := rfl
  cases written : sink.write b with
  | mk outcome sink' =>
    cases outcome with
    | error e =>
      rw [offer_of_error open_ written, offer_of_error open_' written]
      exact ⟨.stopped (.io e) Sink.extends_rfl, rfl, fun _ => rfl⟩
    | ok n =>
      by_cases whole : n = b.length
      · subst whole
        rw [offer_of_whole open_ written, offer_of_whole open_' written]
        exact ⟨.level sink', rfl, fun _ => rfl⟩
      · rw [offer_of_short open_ written whole, offer_of_short open_' written whole]
        exact ⟨.stopped (.shortWrite n b.length) Sink.extends_rfl, rfl, fun _ => rfl⟩

theorem parallel_offerAll (bs : List Bytes) (sink : Sink) :
    Parallel Eq ((offerAll bs).run ⟨⟨true, none⟩, sink⟩)
      ((offerAll bs).run ⟨⟨false, none⟩, sink⟩) := by
  induction bs generalizing sink with
  | nil => exact ⟨.level sink, rfl, fun _ => rfl⟩
  | cons b bs ih =>
    refine (parallel_offer b sink).bind ?_ ?_
    · rintro n _ sink' rfl
      exact (ih sink').map fun _ _ same => congrArg (n + ·) same
    · intro n n' f s s' more
      have others := (appends_offerAll (w := ⟨⟨false, some f⟩, s'⟩) rfl bs).map fun m => n' + m
      have idle :
          (do let m ← offerAll bs; pure (n + m) : Action StreamWriter Nat).run ⟨⟨true, some f⟩, s⟩ =
          pure (n, ⟨⟨true, some f⟩, s⟩) := by
        rw [StateT.run_bind, offerAll_of_blocked rfl]
        rfl
      rw [idle]
      exact parallel_stopped more n others

/-- Answers that agree but for the mode that a diagnostic text names. -/
def Reply.Agree : Reply → Reply → Prop
  | .text s, .text s' => ∃ first : Option Failure,
      s = (⟨true, first⟩ : ErrorSlot).debugText "Encoder" ∧
      s' = (⟨false, first⟩ : ErrorSlot).debugText "Encoder"
  | a, b => a = b

theorem parallel_level {c : Command} (clears : c.clears = false) (toWriter : c.toWriter = true)
    (sink : Sink) :
    Parallel Reply.Agree ((perform c).run ⟨⟨true, none⟩, sink⟩)
      ((perform c).run ⟨⟨false, none⟩, sink⟩) := by
  cases c with
  | put i =>
    have same :
        Parallel Eq ((put i).run ⟨⟨true, none⟩, sink⟩) ((put i).run ⟨⟨false, none⟩, sink⟩) := by
      cases encoded : i.buffers with
      | error f =>
        have ran (strict : Bool) : (put i).run ⟨⟨strict, none⟩, sink⟩ =
            (do note f; pure 0 : Action StreamWriter Nat).run ⟨⟨strict, none⟩, sink⟩ := by
          simp [put, StateT.run_bind, ErrorSlot.blocked, encoded]
        rw [ran, ran]
        exact ⟨.stopped f Sink.extends_rfl, rfl, fun _ => rfl⟩
      | ok bs =>
        rw [put_eq_offerAll encoded]
        exact parallel_offerAll bs sink
    refine same.map ?_
    rintro n _ rfl
    cases i <;> rfl
  | transfer b =>
    have same :
        Parallel Eq ((transfer b).run ⟨⟨true, none⟩, sink⟩)
          ((transfer b).run ⟨⟨false, none⟩, sink⟩) := by
      unfold transfer
      cases written : sink.write b with
      | mk outcome sink' =>
        cases outcome with
        | error e =>
          simp only [StateT.run_bind, StateT.run_get, pure_bind, ErrorSlot.obstacle?, written]
          exact ⟨.stopped (.io e) Sink.extends_rfl, rfl, fun _ => rfl⟩
        | ok n =>
          simp only [StateT.run_bind, StateT.run_get, pure_bind, ErrorSlot.obstacle?, written]
          exact ⟨.level sink', rfl, fun _ => rfl⟩
    refine same.map ?_
    rintro _ _ rfl
    rfl
  | flush =>
    have same : Parallel Eq (flush.run ⟨⟨true, none⟩, sink⟩) (flush.run ⟨⟨false, none⟩, sink⟩) := by
      unfold flush
      cases flushed : sink.flush with
      | mk outcome sink' =>
        cases outcome with
        | error e =>
          simp only [StateT.run_bind, StateT.run_get, pure_bind, ErrorSlot.obstacle?, flushed]
          exact ⟨.stopped (.io e) Sink.extends_rfl, rfl, fun _ => rfl⟩
        | ok u =>
          simp only [StateT.run_bind, StateT.run_get, pure_bind, ErrorSlot.obstacle?, flushed]
          exact ⟨.level sink', rfl, fun _ => rfl⟩
    refine same.map ?_
    rintro _ _ rfl
    rfl
  | error => exact ⟨.level sink, rfl, fun _ => rfl⟩
  | debug => exact ⟨.level sink, rfl, fun _ => ⟨none, rfl, rfl⟩⟩
  | reset | takeError => cases clears
  | push b => cases toWriter

theorem parallel_perform (trails : Trails w w') {c : Command} (clears : c.clears = false)
    (toWriter : c.toWriter = true) :
    Parallel Reply.Agree ((perform c).run w) ((perform c).run w') := by
  cases trails with
  | level sink => exact parallel_level clears toWriter sink
  | stopped f more =>
    rw [perform_of_kept rfl rfl clears toWriter]
    exact parallel_stopped more _ (appends_perform rfl clears toWriter)

/-- What is seen of a step of a strict writer, against what is seen of the lenient one. -/
structure Sight.Shortens (a b : Sight) : Prop where
  first : a.first = b.first
  events : a.events = b.events
  reply : b.first = none → a.reply.Agree b.reply
  calls : a.calls <+: b.calls
  data : a.data <+: b.data

theorem Trails.first (trails : Trails w w') : w.slot.first = w'.slot.first := by
  cases trails <;> rfl

theorem Trails.sink (trails : Trails w w') : w.sink.Extends w'.sink := by
  cases trails with
  | level sink => exact Sink.extends_rfl
  | stopped f more => exact more

theorem run_trails (trails : Trails w w') (cs : List Command)
    (plain : ∀ c ∈ cs, c.clears = false ∧ c.toWriter = true) :
    List.Forall₂ Sight.Shortens (run cs w).1 (run cs w').1 ∧ Trails (run cs w).2 (run cs w').2 := by
  induction cs generalizing w w' with
  | nil => exact ⟨.nil, trails⟩
  | cons c cs ih =>
    obtain ⟨clears, toWriter⟩ := plain c List.mem_cons_self
    have step := parallel_perform trails clears toWriter
    obtain ⟨others, last⟩ := ih step.trails fun d hd => plain d (List.mem_cons_of_mem c hd)
    have sink := step.trails.sink
    exact ⟨.cons ⟨step.trails.first, step.events, step.value, sink.calls, sink.data⟩ others, last⟩

end StreamWriter

/-! ## Readers -/

theorem Source.remaining_read (s : Source) (n : Nat) : (s.read n).2.remaining <:+ s.remaining := by
  obtain ⟨segments⟩ := s
  unfold read
  split
  · exact List.suffix_rfl
  · induction segments with
    | nil => exact List.suffix_rfl
    | cons x rest ih =>
      cases x with
      | pause | fault e => exact List.suffix_rfl
      | data b =>
        cases b with
        | nil => exact ih
        | cons b bs =>
          refine ⟨(b :: bs).take n, ?_⟩
          rw [readFrom, remaining_data, remaining_data, ← List.append_assoc, List.take_append_drop]

namespace StreamReader

variable {r r' : StreamReader}

structure Recedes (r : StreamReader) (x : Logged (α × StreamReader)) : Prop where
  slot : x.value.2.slot = r.slot
  events : x.events = []
  source : x.value.2.source.remaining <:+ r.source.remaining

theorem recedes_pure (v : α) : Recedes r (pure (v, r)) := ⟨rfl, rfl, List.suffix_rfl⟩

theorem Recedes.map {a : Action StreamReader α} (h : Recedes r (a.run r)) (g : α → β) :
    Recedes r ((do let v ← a; pure (g v) : Action StreamReader β).run r) := by
  rw [StateT.run_bind]
  exact ⟨h.slot, by rw [Logged.events_bind, h.events]; rfl, h.source⟩

theorem recedes_fetch (kept : r.slot.first.isSome = true) (f : Field Order) :
    Recedes r ((fetch f).run r) := by
  have came := fetched f r
  have forward := (Parse.built_parse f).forward r.source
  generalize (fetch f).run r = x at came
  cases came with
  | idle _ => exact recedes_pure _
  | read _ parsed =>
    rw [parsed] at forward
    exact ⟨rfl, rfl, forward⟩
  | failed _ parsed v s' behind _ =>
    rw [parsed] at forward
    exact ⟨ErrorSlot.keeping_of_kept kept _, if_pos kept, behind.trans forward⟩

theorem recedes_transfer (kept : r.slot.first.isSome = true) (dst : Bytes) :
    Recedes r ((transfer dst).run r) := by
  have forward := r.source.remaining_read dst.length
  cases obstacle : r.slot.obstacle? with
  | some f =>
    rw [transfer_of_obstacle obstacle]
    exact recedes_pure _
  | none =>
    cases read : r.source.read dst.length with
    | mk outcome s =>
      rw [read] at forward
      cases outcome with
      | ok b =>
        rw [transfer_of_ok obstacle read]
        exact ⟨rfl, rfl, forward⟩
      | error e =>
        rw [transfer_of_error obstacle read]
        exact ⟨ErrorSlot.keeping_of_kept kept _, if_pos kept, forward⟩

theorem recedes_perform (kept : r.slot.first.isSome = true) {c : Command}
    (clears : c.clears = false) (toReader : c.toReader = true) : Recedes r ((perform c).run r) := by
  cases c with
  | fetch f => exact (recedes_fetch kept f).map Reply.value
  | transfer dst => exact (recedes_transfer kept dst).map Reply.transferred
  | error | debug => exact recedes_pure _
  | reset | takeError => cases clears
  | push segments => cases toReader

inductive Trails : StreamReader → StreamReader → Prop
  | level (source : Source) : Trails ⟨⟨true, none⟩, source⟩ ⟨⟨false, none⟩, source⟩
  | stopped (f : Failure) {s s' : Source} (less : s'.remaining <:+ s.remaining) :
      Trails ⟨⟨true, some f⟩, s⟩ ⟨⟨false, some f⟩, s'⟩

structure Parallel (agree : α → α → Prop) (x y : Logged (α × StreamReader)) : Prop where
  trails : Trails x.value.2 y.value.2
  events : x.events = y.events
  value : y.value.2.slot.first = none → agree x.value.1 y.value.1

theorem parallel_fetch (f : Field Order) (source : Source) :
    Parallel Eq ((fetch f).run ⟨⟨true, none⟩, source⟩) ((fetch f).run ⟨⟨false, none⟩, source⟩) := by
  have came := fetched f ⟨⟨true, none⟩, source⟩
  have came' := fetched f ⟨⟨false, none⟩, source⟩
  generalize (fetch f).run ⟨⟨true, none⟩, source⟩ = x at came
  generalize (fetch f).run ⟨⟨false, none⟩, source⟩ = y at came'
  cases came with
  | idle blocked => cases blocked
  | read _ parsed =>
    cases came' with
    | idle blocked => cases blocked
    | read _ parsed' =>
      cases parsed.symm.trans parsed'
      exact ⟨.level _, rfl, fun _ => rfl⟩
    | failed _ parsed' v s' behind stops => cases parsed.symm.trans parsed'
  | failed _ parsed v s' behind stops =>
    cases came' with
    | idle blocked => cases blocked
    | read _ parsed' => cases parsed.symm.trans parsed'
    | failed _ parsed' v' s'' behind' stops' =>
      cases parsed.symm.trans parsed'
      cases stops rfl
      exact ⟨.stopped _ behind', rfl, fun empty => by cases empty⟩

theorem parallel_transfer (dst : Bytes) (source : Source) :
    Parallel Eq ((transfer dst).run ⟨⟨true, none⟩, source⟩)
      ((transfer dst).run ⟨⟨false, none⟩, source⟩) := by
  cases read : source.read dst.length with
  | mk outcome s =>
    cases outcome with
    | ok b =>
      rw [transfer_of_ok rfl read, transfer_of_ok rfl read]
      exact ⟨.level s, rfl, fun _ => rfl⟩
    | error e =>
      rw [transfer_of_error rfl read, transfer_of_error rfl read]
      exact ⟨.stopped (.io e) List.suffix_rfl, rfl, fun _ => rfl⟩

theorem Parallel.map {agree : α → α → Prop} {agree' : β → β → Prop} {a a' : Action StreamReader α}
    (h : Parallel agree (a.run r) (a'.run r')) {g : α → β}
    (keeps : ∀ u v, agree u v → agree' (g u) (g v)) :
    Parallel agree' ((do let v ← a; pure (g v) : Action StreamReader β).run r)
      ((do let v ← a'; pure (g v) : Action StreamReader β).run r') := by
  rw [StateT.run_bind, StateT.run_bind]
  refine ⟨h.trails, ?_, fun empty => keeps _ _ (h.value empty)⟩
  rw [Logged.events_bind, Logged.events_bind, h.events]
  rfl

def Reply.Agree : Reply → Reply → Prop
  | .text s, .text s' => ∃ first : Option Failure,
      s = (⟨true, first⟩ : ErrorSlot).debugText "Decoder" ∧
      s' = (⟨false, first⟩ : ErrorSlot).debugText "Decoder"
  | a, b => a = b

theorem parallel_perform (trails : Trails r r') {c : Command} (clears : c.clears = false)
    (toReader : c.toReader = true) :
    Parallel Reply.Agree ((perform c).run r) ((perform c).run r') := by
  cases trails with
  | level source =>
    cases c with
    | fetch f =>
      refine (parallel_fetch f source).map ?_
      rintro v _ rfl
      rfl
    | transfer dst =>
      refine (parallel_transfer dst source).map ?_
      rintro v _ rfl
      rfl
    | error => exact ⟨.level source, rfl, fun _ => rfl⟩
    | debug => exact ⟨.level source, rfl, fun _ => ⟨none, rfl, rfl⟩⟩
    | reset | takeError => cases clears
    | push segments => cases toReader
  | @stopped f s s' less =>
    have recedes := recedes_perform (r := ⟨⟨false, some f⟩, s'⟩) rfl clears toReader
    rw [perform_of_kept rfl rfl clears toReader]
    generalize (perform c).run ⟨⟨false, some f⟩, s'⟩ = y at recedes
    obtain ⟨⟨v, slot, source⟩, events⟩ := y
    obtain ⟨same, silent, further⟩ := recedes
    cases same
    exact ⟨.stopped f (further.trans less), silent.symm, fun empty => by cases empty⟩

structure Sight.Shortens (a b : Sight) : Prop where
  first : a.slot.first = b.slot.first
  events : a.events = b.events
  reply : b.slot.first = none → a.reply.Agree b.reply
  remaining : b.remaining <:+ a.remaining

theorem Trails.first (trails : Trails r r') : r.slot.first = r'.slot.first := by
  cases trails <;> rfl

theorem Trails.remaining (trails : Trails r r') : r'.source.remaining <:+ r.source.remaining := by
  cases trails with
  | level source => exact List.suffix_rfl
  | stopped f less => exact less

theorem Trails.misuse? (trails : Trails r r') {c : Command} {m : Misuse}
    (fault : r.misuse? c = some m) :
    r'.misuse? c = some m := by
  obtain ⟨n, rfl, unblocked, long⟩ := misuse?_eq_some fault
  cases trails with
  | level source => exact long
  | stopped f less => cases unblocked

theorem run_of_kept {f : Failure} {s : Source} (cs : List Command)
    (plain : ∀ c ∈ cs, c.clears = false ∧ c.toReader = true) :
    (run cs ⟨⟨true, some f⟩, s⟩).2 = .ok ⟨⟨true, some f⟩, s⟩ := by
  induction cs with
  | nil => rfl
  | cons c cs ih =>
    obtain ⟨clears, toReader⟩ := plain c List.mem_cons_self
    have proper : misuse? ⟨⟨true, some f⟩, s⟩ c = none := by
      cases fault : misuse? ⟨⟨true, some f⟩, s⟩ c with
      | none => rfl
      | some m =>
        obtain ⟨n, -, unblocked, -⟩ := misuse?_eq_some fault
        cases unblocked
    rw [run, step, proper, perform_of_kept rfl rfl clears toReader]
    exact ih fun d hd => plain d (List.mem_cons_of_mem c hd)

/-- How a run of a strict reader ends, against that of the lenient one; `rest` is what only the
strict one came to. -/
def Ends (rest : List Sight) : Except Misuse StreamReader → Except Misuse StreamReader → Prop
  | .ok last, .ok last' =>
    rest = [] ∧ last.slot.first = last'.slot.first ∧
      last'.source.remaining <:+ last.source.remaining
  | .error m, .error m' => rest = [] ∧ m = m'
  | .ok last, .error _ => last.slot.first.isSome = true
  | .error _, .ok _ => False

theorem run_trails (trails : Trails r r') (cs : List Command)
    (plain : ∀ c ∈ cs, c.clears = false ∧ c.toReader = true) :
    ∃ cut rest, (run cs r).1 = cut ++ rest ∧ List.Forall₂ Sight.Shortens cut (run cs r').1 ∧
      Ends rest (run cs r).2 (run cs r').2 := by
  induction cs generalizing r r' with
  | nil => exact ⟨[], [], rfl, .nil, rfl, trails.first, trails.remaining⟩
  | cons c cs ih =>
    have others : ∀ d ∈ cs, d.clears = false ∧ d.toReader = true :=
      fun d hd => plain d (List.mem_cons_of_mem c hd)
    obtain ⟨clears, toReader⟩ := plain c List.mem_cons_self
    cases fault : r.misuse? c with
    | some m =>
      have fault' := trails.misuse? fault
      rw [run, run, step, step, fault, fault']
      exact ⟨[], [], rfl, .nil, rfl, rfl⟩
    | none =>
      have both := parallel_perform trails clears toReader
      cases fault' : r'.misuse? c with
      | some m =>
        have idle : (run (c :: cs) r).2 = .ok r ∧ r.slot.first.isSome = true := by
          cases trails with
          | level source =>
            obtain ⟨n, rfl, -, long⟩ := misuse?_eq_some fault'
            cases fault.symm.trans long
          | stopped f less => exact ⟨run_of_kept (c :: cs) plain, rfl⟩
        have none_seen : run (c :: cs) r' = ([], .error m) := by rw [run, step, fault']
        rw [idle.1, none_seen]
        exact ⟨[], (run (c :: cs) r).1, rfl, .nil, idle.2⟩
      | none =>
        obtain ⟨cut, rest, sights, shortens, ends⟩ := ih both.trails others
        rw [run, run, step, step, fault, fault']
        refine ⟨_ :: cut, rest, congrArg (List.cons _) sights, .cons ?_ shortens, ends⟩
        exact ⟨both.trails.first, both.events, both.value, both.trails.remaining⟩

end StreamReader

theorem Sink.Extends.writeCount {s s' : Sink} (h : s.Extends s') : s.writeCount ≤ s'.writeCount :=
  (h.calls.filterMap _).length_le

/-- A strict run is a lenient one cut short: they are the same up to the first failure, and both
keep that one. -/
theorem strictness_only_cuts_short (sink : Sink) (writes : List StreamWriter.Command)
    (plainWrites : ∀ c ∈ writes, c.clears = false ∧ c.toWriter = true) (source : Source)
    (reads : List StreamReader.Command)
    (plainReads : ∀ c ∈ reads, c.clears = false ∧ c.toReader = true) :
    (let strict := StreamWriter.run writes (.over sink true)
      let lenient := StreamWriter.run writes (.over sink false)
      List.Forall₂ StreamWriter.Sight.Shortens strict.1 lenient.1 ∧
        strict.2.slot.first = lenient.2.slot.first ∧ strict.2.sink.data <+: lenient.2.sink.data ∧
        strict.2.sink.writeCount ≤ lenient.2.sink.writeCount) ∧
      let strict := StreamReader.run reads (.over source true)
      let lenient := StreamReader.run reads (.over source false)
      ∃ cut rest, strict.1 = cut ++ rest ∧ List.Forall₂ StreamReader.Sight.Shortens cut lenient.1 ∧
        StreamReader.Ends rest strict.2 lenient.2 := by
  obtain ⟨steps, last⟩ := StreamWriter.run_trails (.level sink) writes plainWrites
  exact ⟨⟨steps, last.first, last.sink.data, last.sink.writeCount⟩,
    StreamReader.run_trails (.level source) reads plainReads⟩

theorem strictness_only_cuts_short_torn :
    let sink := Sink.scripted none [.limit 1 1]
    let writes : List StreamWriter.Command := [.put (.complex64 .standard 1 2), .put (.bytes [9])]
    let source : Source := ⟨[.data [1, 2], .pause, .data [3, 4, 5]]⟩
    let reads : List StreamReader.Command := [.fetch (.uint .standard .b32), .fetch (.bytes 2)]
    (StreamWriter.run writes (.over sink true)).2.sink.data = [1] ∧
      (StreamWriter.run writes (.over sink false)).2.sink.data = [1, 2, 0, 0, 0, 9] ∧
      (StreamWriter.run writes (.over sink true)).2.slot.first = some (.shortWrite 1 4) ∧
      (StreamWriter.run writes (.over sink false)).2.slot.first = some (.shortWrite 1 4) ∧
      ∃ cut rest, (StreamReader.run reads (.over source true)).1 = cut ++ rest ∧
        List.Forall₂ StreamReader.Sight.Shortens cut
          (StreamReader.run reads (.over source false)).1 ∧
        StreamReader.Ends rest (StreamReader.run reads (.over source true)).2
          (StreamReader.run reads (.over source false)).2 := by
  intro sink writes source reads
  have plainWrites : ∀ c ∈ writes, c.clears = false ∧ c.toWriter = true := by decide
  have plainReads : ∀ c ∈ reads, c.clears = false ∧ c.toReader = true := by decide
  obtain ⟨⟨-, first, -, -⟩, cut⟩ :=
    strictness_only_cuts_short sink writes plainWrites source reads plainReads
  have kept : (StreamWriter.run writes (.over sink true)).2.slot.first = some (.shortWrite 1 4) :=
    rfl
  exact ⟨rfl, rfl, kept, first.symm.trans kept, cut⟩

end WireCodec
