import WireCodec.Proofs.Stream.Runs

/-!
# Offering buffers to a sink

Apart from the stream's failure, a writer offers the buffers of its items one after another.
`Sink.feed` offers buffers up to the first that is not taken whole, and says what went wrong with
that one. Where nothing goes wrong, a writer of either kind leaves the sink that feeding leaves, and
keeps no failure.
-/

set_option autoImplicit false

namespace WireCodec

namespace Sink

/-- The sink after a call in which it took the first `n` bytes of a buffer. -/
def taking (s : Sink) (b : Bytes) (n : Nat) : Sink :=
  { s with calls := s.calls ++ [.write b], data := s.data ++ b.take n }

theorem write_of_error {s : Sink} {b : Bytes} {e : IoError} (h : s.accept s.calls b = .error e) :
    s.write b = (.error e, s.taking b 0) := by
  simp [write, taking, h]

theorem write_of_ok {s : Sink} {b : Bytes} {n : Nat} (h : s.accept s.calls b = .ok n) :
    s.write b = (.ok (min n b.length), s.taking b n) := by
  simp [write, taking, h]

/-- Offers buffers up to the first that is not taken whole: what went wrong with it, and the sink
after it. -/
def feed : List Bytes → Sink → Option Failure × Sink
  | [], s => (none, s)
  | b :: bs, s =>
    match s.write b with
    | (.error e, s') => (some (.io e), s')
    | (.ok n, s') => if n = b.length then feed bs s' else (some (.shortWrite n b.length), s')

theorem feed_append (bs cs : List Bytes) (s : Sink) :
    feed (bs ++ cs) s = match feed bs s with
      | (none, s') => feed cs s'
      | (some f, s') => (some f, s') := by
  induction bs generalizing s with
  | nil => rfl
  | cons b bs ih =>
    rw [List.cons_append, feed, feed]
    match s.write b with
    | (.error e, s') => rfl
    | (.ok n, s') =>
      by_cases whole : n = b.length
      · simp only [whole, ite_true]
        exact ih s'
      · simp only [whole, ite_false]

theorem feed_accepting (bs : List Bytes) (calls : List SinkCall) (data : Bytes) :
    feed bs { accepting with calls, data } =
      (none, { accepting with calls := calls ++ bs.map .write, data := data ++ bs.flatten }) := by
  induction bs generalizing calls data with
  | nil => simp [feed]
  | cons b bs ih =>
    have whole : ({ accepting with calls, data } : Sink).write b =
        (.ok b.length, { accepting with calls := calls ++ [.write b], data := data ++ b }) := by
      simp [write, accepting]
    rw [feed, whole]
    simp only [ite_true]
    rw [ih]
    simp

end Sink

/-- The buffers of items one after another, up to the first item that cannot be encoded, and why it
cannot. -/
def Item.buffersOf : List (Item Order) → List Bytes × Option Failure
  | [] => ([], none)
  | i :: is =>
    match i.buffers with
    | .error f => ([], some f)
    | .ok bs => (bs ++ (buffersOf is).1, (buffersOf is).2)

namespace StreamWriter

theorem offer_of_whole {slot : ErrorSlot} {sink sink' : Sink} {b : Bytes}
    (unblocked : slot.blocked = false) (taken : sink.write b = (.ok b.length, sink')) :
    (offer b).run ⟨slot, sink⟩ = pure (b.length, ⟨slot, sink'⟩) := by
  simp [offer, StateT.run_bind, unblocked, taken]

theorem offer_of_short {slot : ErrorSlot} {sink sink' : Sink} {b : Bytes} {n : Nat}
    (unblocked : slot.blocked = false)
    (taken : sink.write b = (.ok n, sink')) (short : n ≠ b.length) :
    (offer b).run ⟨slot, sink⟩ = (do
      note (.shortWrite n b.length)
      pure n : Action StreamWriter Nat).run ⟨slot, sink'⟩ := by
  simp [offer, StateT.run_bind, unblocked, taken, short]

theorem offer_of_error {slot : ErrorSlot} {sink sink' : Sink} {b : Bytes} {e : IoError}
    (unblocked : slot.blocked = false) (refused : sink.write b = (.error e, sink')) :
    (offer b).run ⟨slot, sink⟩ = (do
      note (.io e)
      pure 0 : Action StreamWriter Nat).run ⟨slot, sink'⟩ := by
  simp [offer, StateT.run_bind, unblocked, refused]

theorem offerAll_of_blocked {w : StreamWriter} (blocked : w.slot.blocked = true) (bs : List Bytes) :
    (offerAll bs).run w = pure (0, w) := by
  induction bs with
  | nil => rfl
  | cons b bs ih => simp [offerAll, offer, StateT.run_bind, blocked, ih]

theorem put_eq_offerAll {i : Item Order} {bs : List Bytes} (encoded : i.buffers = .ok bs) :
    put i = offerAll bs := by
  apply StateT.ext
  intro w
  by_cases blocked : w.slot.blocked = true
  · simp [put, StateT.run_bind, blocked, offerAll_of_blocked]
  · simp [put, StateT.run_bind, blocked, encoded]

theorem offerAll_of_feed {slot : ErrorSlot} {sink sink' : Sink} {bs : List Bytes}
    (unblocked : slot.blocked = false) (fed : sink.feed bs = (none, sink')) :
    ∃ n, (offerAll bs).run ⟨slot, sink⟩ = pure (n, ⟨slot, sink'⟩) := by
  induction bs generalizing sink with
  | nil =>
    rw [Sink.feed, Prod.mk.injEq] at fed
    exact ⟨0, by rw [offerAll, fed.2]; rfl⟩
  | cons b bs ih =>
    rw [Sink.feed] at fed
    match outcome : sink.write b with
    | (.error e, middle) => simp [outcome] at fed
    | (.ok n, middle) =>
      by_cases whole : n = b.length
      · subst whole
        simp only [outcome, ite_true] at fed
        obtain ⟨m, rest⟩ := ih fed
        refine ⟨b.length + m, ?_⟩
        simp [offerAll, StateT.run_bind, offer_of_whole unblocked outcome, rest]
      · simp [outcome, whole] at fed

theorem putAll_of_feed {slot : ErrorSlot} {sink sink' : Sink} {items : List (Item Order)}
    {bs : List Bytes}
    (unblocked : slot.blocked = false) (encoded : Item.buffersOf items = (bs, none))
    (fed : sink.feed bs = (none, sink')) :
    ∃ ns, (putAll items).run ⟨slot, sink⟩ = pure (ns, ⟨slot, sink'⟩) := by
  induction items generalizing bs sink with
  | nil =>
    rw [Item.buffersOf, Prod.mk.injEq] at encoded
    rw [← encoded.1, Sink.feed, Prod.mk.injEq] at fed
    exact ⟨[], by rw [fed.2]; rfl⟩
  | cons i items ih =>
    rw [Item.buffersOf] at encoded
    cases front : i.buffers with
    | error f => simp [front] at encoded
    | ok cs =>
      simp only [front, Prod.mk.injEq] at encoded
      obtain ⟨whole, rest_encodes⟩ := encoded
      rw [← whole, Sink.feed_append] at fed
      match first : sink.feed cs with
      | (some f, middle) => simp [first] at fed
      | (none, middle) =>
        simp only [first] at fed
        obtain ⟨n, head⟩ := offerAll_of_feed unblocked first
        obtain ⟨ns, tail⟩ := ih (Prod.ext rfl rest_encodes) fed
        refine ⟨n :: ns, ?_⟩
        have put_head : (put i).run ⟨slot, sink⟩ = pure (n, ⟨slot, middle⟩) := by
          simp [put, StateT.run_bind, unblocked, front, head]
        simp only [putAll] at tail
        simp [putAll, StateT.run_bind, put_head, tail]

end StreamWriter

end WireCodec
