import WireCodec.Proofs.Stream.Offering

/-!
# What a faulty sink holds

A strict writer stops at the first call that its sink fails or cuts short, wherever in an item that
call is. So the sink holds a prefix of what a sink that takes everything would hold, cut at that
call and nowhere else; the failure that the writer keeps tells the place.
-/

set_option autoImplicit false

namespace WireCodec

namespace Sink

/-- Whether a sink with that history of calls fails at a buffer or takes only a part of it. -/
def balks (s : Sink) (history : List SinkCall) (b : Bytes) : Bool :=
  match s.accept history b with
  | .error _ => true
  | .ok n => n < b.length

def faults (s : Sink) : List SinkCall → List Bytes → Nat
  | _, [] => 0
  | history, b :: bs => (if s.balks history b then 1 else 0) + s.faults (history ++ [.write b]) bs

/-- Where output stands by the failure that was kept: at the call that failed, inside the one that
was cut short, or at the end. -/
def StandsAt (s : Sink) (history : List SinkCall) (offered : List Bytes) (out ideal : Bytes) :
    Option Failure → Prop
  | some (.io e) =>
    ∃ (front : List Bytes) (b : Bytes), offered = front ++ [b] ∧ out = front.flatten ∧
      s.accept (history ++ front.map .write) b = .error e
  | some (.shortWrite written expected) => written < expected ∧ ∃ (front : List Bytes) (b : Bytes),
      offered = front ++ [b] ∧ expected = b.length ∧ out = front.flatten ++ b.take written ∧
      s.accept (history ++ front.map .write) b = .ok written
  | _ => out = ideal

theorem StandsAt.cons {s : Sink} {history : List SinkCall} {offered : List Bytes}
    {out ideal : Bytes} {f : Option Failure}
    (b : Bytes) (h : s.StandsAt (history ++ [.write b]) offered out ideal f) :
    s.StandsAt history (b :: offered) (b ++ out) (b ++ ideal) f := by
  match f with
  | some (.io e) =>
    obtain ⟨front, c, offered_eq, out_eq, refused⟩ := h
    refine ⟨b :: front, c, by rw [offered_eq]; rfl, by rw [out_eq]; rfl, ?_⟩
    rwa [List.append_assoc] at refused
  | some (.shortWrite written expected) =>
    obtain ⟨short, front, c, offered_eq, expected_eq, out_eq, taken⟩ := h
    refine ⟨short, b :: front, c, by rw [offered_eq]; rfl, expected_eq, ?_, ?_⟩
    · rw [out_eq, List.flatten_cons, List.append_assoc]
    · rwa [List.append_assoc] at taken
  | none | some (.integerOverflow ..) | some (.shortRead ..) | some (.lengthTooLarge ..)
  | some .varintOverflow
  | some (.corruptTag ..) | some (.unexpectedTag ..) | some (.outOfBounds ..)
  | some (.destinationTooSmall ..)
  | some .invalidUtf8 => exact congrArg (b ++ ·) h

theorem buffersOf_writes (bs : List Bytes) : buffersOf (bs.map .write) = bs := by
  induction bs with
  | nil => rfl
  | cons b bs ih => exact congrArg (b :: ·) ih

theorem faults_taking (s : Sink) (b : Bytes) (n : Nat) (history : List SinkCall) (bs : List Bytes) :
    (s.taking b n).faults history bs = s.faults history bs := by
  induction bs generalizing history with
  | nil => rfl
  | cons c bs ih =>
    rw [faults, faults, ih]
    rfl

theorem feed_of_error {s : Sink} {b : Bytes} {e : IoError} (h : s.accept s.calls b = .error e)
    (bs : List Bytes) :
    s.feed (b :: bs) = (some (.io e), s.taking b 0) := by
  rw [feed, write_of_error h]

theorem feed_of_short {s : Sink} {b : Bytes} {n : Nat} (h : s.accept s.calls b = .ok n)
    (short : n < b.length)
    (bs : List Bytes) : s.feed (b :: bs) = (some (.shortWrite n b.length), s.taking b n) := by
  rw [feed, write_of_ok h, Nat.min_eq_left (Nat.le_of_lt short)]
  simp only [Nat.ne_of_lt short, ite_false]

theorem feed_of_whole {s : Sink} {b : Bytes} {n : Nat} (h : s.accept s.calls b = .ok n)
    (whole : b.length ≤ n) (bs : List Bytes) : s.feed (b :: bs) = (s.taking b n).feed bs := by
  rw [feed, write_of_ok h, Nat.min_eq_right whole]
  simp only [ite_true]

theorem feed_stands (bs : List Bytes) (s : Sink) : ∃ (offered : List Bytes) (out : Bytes),
    (s.feed bs).2 = { s with calls := s.calls ++ offered.map .write, data := s.data ++ out } ∧
      offered <+: bs ∧ out <+: bs.flatten ∧
      s.faults s.calls offered = (if (s.feed bs).1.any Failure.isIo then 1 else 0) ∧
      s.StandsAt s.calls offered out bs.flatten (s.feed bs).1 := by
  induction bs generalizing s with
  | nil => exact ⟨[], [], by simp [feed], List.prefix_rfl, List.prefix_rfl, rfl, rfl⟩
  | cons b bs ih =>
    have offered_first : [b] <+: b :: bs := ⟨bs, rfl⟩
    -- Only a buffer that is taken whole is followed by others.
    cases answer : s.accept s.calls b with
    | error e =>
      have here : s.accept (s.calls ++ ([] : List Bytes).map .write) b = .error e := by
        simpa using answer
      rw [feed_of_error answer]
      refine ⟨[b], [], by simp [taking], offered_first, List.nil_prefix, ?_, [], b, rfl, rfl, here⟩
      simp [faults, balks, answer, Failure.isIo]
    | ok n =>
      by_cases short : n < b.length
      · have here : s.accept (s.calls ++ ([] : List Bytes).map .write) b = .ok n := by
          simpa using answer
        have front : b.take n <+: (b :: bs).flatten :=
          (List.take_prefix n b).trans (List.prefix_append b bs.flatten)
        rw [feed_of_short answer short]
        refine ⟨[b], b.take n, by simp [taking], offered_first, front, ?_, short, [], b, rfl,
          rfl, rfl, here⟩
        simp [faults, balks, answer, short, Failure.isIo]
      · have whole : b.length ≤ n := Nat.le_of_not_lt short
        have all : b.take n = b := List.take_of_length_le whole
        obtain ⟨offered, out, sink, buffers, bytes, count_faults, stands⟩ := ih (s.taking b n)
        rw [feed_of_whole answer whole]
        refine ⟨b :: offered, b ++ out, ?_, ?_, ?_, ?_, StandsAt.cons b stands⟩
        · rw [sink]
          simp [taking, all]
        · exact List.cons_prefix_cons.mpr ⟨rfl, buffers⟩
        · exact (List.prefix_append_right_inj b).mpr bytes
        · have willing : s.balks s.calls b = false := by simp [balks, answer, whole]
          rw [faults, willing, ← count_faults, faults_taking]
          exact Nat.zero_add _

end Sink

theorem Item.buffersOf_append (xs ys : List (Item Order)) :
    buffersOf (xs ++ ys) =
      match buffersOf xs with
      | (bs, none) => (bs ++ (buffersOf ys).1, (buffersOf ys).2)
      | (bs, some f) => (bs, some f) := by
  induction xs with
  | nil => rfl
  | cons i xs ih =>
    rw [List.cons_append, buffersOf, buffersOf]
    cases i.buffers with
    | error f => rfl
    | ok cs =>
      rw [ih]
      obtain ⟨bs, outcome⟩ := buffersOf xs
      cases outcome with
      | none => simp only [List.append_assoc]
      | some f => rfl

theorem Item.buffersOf_prefix (xs ys : List (Item Order)) :
    (buffersOf xs).1 <+: (buffersOf (xs ++ ys)).1 := by
  rw [buffersOf_append]
  match buffersOf xs with
  | (bs, none) => exact List.prefix_append bs _
  | (bs, some f) => exact List.prefix_rfl

theorem Item.buffersOf_failure {items : List (Item Order)} {f : Failure}
    (h : (buffersOf items).2 = some f) :
    ∃ value max, f = .integerOverflow value max := by
  induction items with
  | nil => simp [buffersOf] at h
  | cons i items ih =>
    rw [buffersOf] at h
    cases outcome : i.buffers with
    | ok bs =>
      simp only [outcome] at h
      exact ih h
    | error g =>
      simp only [outcome, Option.some.injEq] at h
      subst h
      have overflow (o : Order) (field : LengthField) (b : Bytes)
          (failed : counted o field b = .error g) :
          ∃ value max, g = .integerOverflow value max := by
        unfold counted at failed
        split at failed
        · exact ⟨_, _, (Except.error.inj failed).symm⟩
        · cases failed
      cases i with
      | blob o field b => exact overflow o field b outcome
      | text o field s => exact overflow o field _ outcome
      | bytes | word | bool | uint | int | uvarint | varint | float32 | float64 | complex64
      | complex128 => cases outcome

namespace StreamWriter

theorem note_first (f : Failure) (sink : Sink) :
    (note f).run ⟨.empty true, sink⟩ = ⟨((), ⟨⟨true, some f⟩, sink⟩), [.firstFailure .writer f]⟩ :=
  rfl

theorem putAll_of_blocked {w : StreamWriter} (blocked : w.slot.blocked = true)
    (items : List (Item Order)) :
    ((putAll items).run w).value.2 = w := by
  induction items with
  | nil => rfl
  | cons i items ih =>
    simp only [putAll] at ih
    simp [putAll, put, StateT.run_bind, blocked, ih]

theorem offerAll_strict (bs : List Bytes) (sink : Sink) :
    ((offerAll bs).run ⟨.empty true, sink⟩).value.2 =
      ⟨⟨true, (sink.feed bs).1⟩, (sink.feed bs).2⟩ := by
  induction bs generalizing sink with
  | nil => rfl
  | cons b bs ih =>
    have unblocked : (ErrorSlot.empty true).blocked = false := rfl
    rw [Sink.feed]
    rcases outcome : sink.write b with ⟨answer, sink'⟩
    cases answer with
    | error e =>
      have after := offerAll_of_blocked (w := ⟨⟨true, some (.io e)⟩, sink'⟩) rfl bs
      simp [offerAll, StateT.run_bind, offer_of_error unblocked outcome, note_first, after]
    | ok n =>
      by_cases whole : n = b.length
      · subst whole
        simp [offerAll, StateT.run_bind, offer_of_whole unblocked outcome, ih]
      · have after :=
          offerAll_of_blocked (w := ⟨⟨true, some (.shortWrite n b.length)⟩, sink'⟩) rfl bs
        simp [offerAll, StateT.run_bind, offer_of_short unblocked outcome whole, note_first,
          after, whole]

theorem written_strict (items : List (Item Order)) (sink : Sink) :
    written items sink true =
      ⟨⟨true, (sink.feed (Item.buffersOf items).1).1.or (Item.buffersOf items).2⟩,
      (sink.feed (Item.buffersOf items).1).2⟩ := by
  induction items generalizing sink with
  | nil => rfl
  | cons i items ih =>
    rw [Item.buffersOf]
    have unblocked : (ErrorSlot.empty true).blocked = false := rfl
    have first_put (w : StreamWriter) (after : ((put i).run (.over sink true)).value.2 = w) :
        written (i :: items) sink true = ((putAll items).run w).value.2 := by
      subst after
      simp [written, putAll, StateT.run_bind]
    cases encoded : i.buffers with
    | error f =>
      have kept : ((put i).run (.over sink true)).value.2 = ⟨⟨true, some f⟩, sink⟩ := by
        simp [put, StreamWriter.over, StateT.run_bind, unblocked, encoded, note_first]
      rw [first_put _ kept, putAll_of_blocked rfl]
      rfl
    | ok bs =>
      have offered : ((put i).run (.over sink true)).value.2 =
          ⟨⟨true, (sink.feed bs).1⟩, (sink.feed bs).2⟩ := by
        rw [← offerAll_strict]
        simp [put, StreamWriter.over, StateT.run_bind, unblocked, encoded]
      rw [first_put _ offered]
      simp only [Sink.feed_append]
      obtain ⟨fault, sink'⟩ := sink.feed bs
      cases fault with
      | none => exact ih sink'
      | some f => exact putAll_of_blocked rfl items

theorem written_accepting (items : List (Item Order)) :
    (written items .accepting true).sink =
      { Sink.accepting with
        calls := (Item.buffersOf items).1.map .write,
        data := (Item.buffersOf items).1.flatten } := by
  rw [written_strict]
  have fed := Sink.feed_accepting (Item.buffersOf items).1 [] []
  simp only [List.nil_append] at fed
  exact congrArg Prod.snd fed

/-- At every moment the sink of a strict writer holds a prefix of what a sink that takes everything
would hold, and ends where the failure tells. -/
theorem written_strict_stands (sink : Sink) (before after : List (Item Order)) :
    let w := written before sink true
    let ideal := (written before .accepting true).sink
    let whole := (written (before ++ after) .accepting true).sink
    ∃ (offered : List Bytes) (out : Bytes),
      w.sink = { sink with calls := sink.calls ++ offered.map .write, data := sink.data ++ out } ∧
      offered <+: ideal.offered ∧ out <+: ideal.data ∧ ideal.data <+: whole.data ∧
      sink.faults sink.calls offered = (if w.slot.first.any Failure.isIo then 1 else 0) ∧
      sink.StandsAt sink.calls offered out ideal.data w.slot.first := by
  intro w ideal whole
  have ideal_offered : ideal.offered = (Item.buffersOf before).1 := by
    simp only [ideal, Sink.offered, written_accepting, Sink.buffersOf_writes]
  have ideal_data : ideal.data = (Item.buffersOf before).1.flatten := by
    simp only [ideal, written_accepting]
  have further : ideal.data <+: whole.data := by
    obtain ⟨more, append⟩ := Item.buffersOf_prefix before after
    simp only [ideal_data, whole, written_accepting, ← append, List.flatten_append]
    exact List.prefix_append _ _
  obtain ⟨offered, out, fed, buffers, bytes, count, stands⟩ :=
    Sink.feed_stands (Item.buffersOf before).1 sink
  have sink_eq : w.sink = (sink.feed (Item.buffersOf before).1).2 := by
    simp only [w, written_strict]
  have first_eq : w.slot.first =
      (sink.feed (Item.buffersOf before).1).1.or (Item.buffersOf before).2 := by
    simp only [w, written_strict]
  refine ⟨offered, out, by rw [sink_eq, fed], by rwa [ideal_offered], by rwa [ideal_data],
    further, ?_⟩
  rw [first_eq, ideal_data, count]
  cases fault : (sink.feed (Item.buffersOf before).1).1 with
  | some f =>
    rw [fault] at stands
    exact ⟨rfl, stands⟩
  | none =>
    -- Nothing was torn, and a length that cannot be announced is no failure of the sink.
    rw [fault] at stands
    cases unencoded : (Item.buffersOf before).2 with
    | none => exact ⟨rfl, stands⟩
    | some f =>
      obtain ⟨value, max, f_eq⟩ := Item.buffersOf_failure unencoded
      subst f_eq
      exact ⟨rfl, stands⟩

end StreamWriter

end WireCodec
