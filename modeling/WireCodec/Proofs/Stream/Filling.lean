import WireCodec.Proofs.Stream.Parsing

/-!
# Filling a destination

A destination is filled by reads of whatever is still missing, until it is full, a read finds
nothing or a read fails for good. An interrupted read brings nothing, but takes the interruption out
of the source, so that the loop ends on every source. It stores the next bytes of the source in
front of the destination, as many as it gets, and no byte is lost or stored twice, also where it
fails.
-/

set_option autoImplicit false

namespace WireCodec

def Stop.failure? (read expected : Nat) : Stop → Option Failure
  | .full => none
  | .ended => some (.shortRead read expected)
  | .failed e => some (.io e)

theorem Stop.failure?_eq_none {stop : Stop} {read expected : Nat} :
    stop.failure? read expected = none ↔ stop = .full := by
  cases stop <;> simp [failure?]

/-- A destination that is being filled, and how much of it has been. -/
structure Filling where
  dst : Bytes
  count : Nat
  source : Source

namespace Filling

/-- Reads until the destination is full, a read finds nothing or a read fails, unless that takes too
many turns. -/
def run : Nat → Filling → Option (Option Failure × Filling)
  | 0, _ => none
  | turns + 1, f =>
    if f.count < f.dst.length then
      match f.source.read (f.dst.length - f.count) with
      | (.ok [], source) => some (some (.shortRead f.count f.dst.length), { f with source })
      | (.ok (b :: bs), source) =>
        run turns ⟨f.dst.overlay f.count (b :: bs), f.count + (b :: bs).length, source⟩
      | (.error e, source) =>
        if e.kind = .interrupted then run turns { f with source }
          else some (some (.io e), { f with source })
    else some (none, f)

end Filling

namespace Source

theorem read_shrinks (s : Source) {n : Nat} (wanted : n ≠ 0) :
    match s.read n with
    | (.ok b, s') => s'.segments.length ≤ s.segments.length ∧ b.length ≤ n
    | (.error _, s') => s'.segments.length < s.segments.length := by
  obtain ⟨segments⟩ := s
  simp only [read, wanted, if_false]
  induction segments with
  | nil => exact ⟨Nat.le_refl 0, Nat.zero_le n⟩
  | cons x rest ih =>
    cases x with
    | pause => exact ⟨Nat.le_succ _, Nat.zero_le n⟩
    | fault e => exact Nat.lt_succ_self _
    | data b =>
      cases b with
      | nil =>
        rw [readFrom]
        cases outcome : readFrom n rest with
        | mk answer left =>
          rw [outcome] at ih
          cases answer with
          | ok b => exact ⟨Nat.le_succ_of_le ih.1, ih.2⟩
          | error e => exact Nat.lt_succ_of_lt ih
      | cons b bs => exact ⟨Nat.le_refl _, List.length_take_le n _⟩

end Source

namespace Filling

theorem run_eq {turns : Nat} {f : Filling} (inside : f.count ≤ f.dst.length)
    (enough : f.dst.length - f.count + f.source.segments.length < turns) :
    let p := f.source.pull (f.dst.length - f.count)
    let count := f.count + p.bytes.length
    run turns f =
      some (p.stop.failure? count f.dst.length,
        ⟨f.dst.overlay f.count p.bytes, count, ⟨p.rest⟩⟩) := by
  -- On the turns. Each but the last takes a segment from the source or stores a byte, so that less
  -- is missing or left to read.
  induction turns generalizing f with
  | zero => exact absurd enough (Nat.not_lt_zero _)
  | succ turns ih =>
    obtain ⟨dst, count, source⟩ := f
    dsimp only at inside enough ⊢
    rw [run]
    by_cases wanting : count < dst.length
    · have wanted : dst.length - count ≠ 0 := by omega
      have shrinks := source.read_shrinks wanted
      rw [Source.pull_eq_read source _ wanted]
      simp only [wanting, if_true]
      cases outcome : source.read (dst.length - count) with
      | mk answer source' =>
        rw [outcome] at shrinks
        cases answer with
        | error e =>
          by_cases transient : e.kind = .interrupted
          · have again := ih (f := ⟨dst, count, source'⟩) inside (by dsimp only at shrinks ⊢; omega)
            simp only [transient, if_true]
            exact again
          · simp only [transient, if_false, Bytes.overlay_nil]
            rfl
        | ok b =>
          obtain ⟨fewer, most⟩ := shrinks
          cases b with
          | nil =>
            simp only [Bytes.overlay_nil]
            rfl
          | cons b bs =>
            have pos : 0 < (b :: bs).length := Nat.succ_pos _
            have within : count + (b :: bs).length ≤ dst.length := by omega
            have same := dst.length_overlay count (b :: bs) within
            have rest : dst.length - (count + (b :: bs).length) =
                dst.length - count - (b :: bs).length := by omega
            have more := ih (f := ⟨dst.overlay count (b :: bs), count + (b :: bs).length, source'⟩)
              (by rw [same]; exact within) (by dsimp only; rw [same]; omega)
            dsimp only at more
            rw [same, rest, Bytes.overlay_append _ _ _ _ within, Nat.add_assoc,
              ← List.length_append] at more
            exact more
    · have full : dst.length - count = 0 := by omega
      rw [if_neg wanting, full, Source.pull, Source.pullFrom_zero]
      simp only [Bytes.overlay_nil]
      rfl

end Filling

namespace StreamReader

variable {r : StreamReader}

theorem draw_run (unblocked : r.slot.blocked = false) (n : Nat) :
    let p := r.source.pull n
    let failure := p.stop.failure? p.bytes.length n
    (draw n).run r = ⟨(⟨p.bytes, failure.isNone⟩, ⟨failure.elim r.slot r.slot.keeping, ⟨p.rest⟩⟩),
      failure.elim [] (r.slot.news .reader)⟩ := by
  have parsed := Parse.runOn_take n r.source
  dsimp only
  cases stop : (r.source.pull n).stop with
  | full =>
    rw [stop] at parsed
    exact draw_ok unblocked parsed
  | ended | failed e =>
    rw [stop] at parsed
    exact draw_error unblocked parsed

/-- The loop that fills a destination ends, with the next bytes of the source in front, and all of
it filled just where it meets no failure. -/
theorem filled_from_source (r : StreamReader) (unblocked : r.slot.blocked = false) (dst : Bytes) :
    let p := r.source.pull dst.length
    let n := p.bytes.length
    let failure := p.stop.failure? n dst.length
    let filled := p.bytes ++ dst.drop n
    let last : StreamReader := ⟨failure.elim r.slot r.slot.keeping, ⟨p.rest⟩⟩
    let events := failure.elim [] (r.slot.news .reader)
    (∀ turns, dst.length + r.source.segments.length < turns →
        Filling.run turns ⟨dst, 0, r.source⟩ = some (failure, ⟨filled, n, last.source⟩)) ∧
      step (.fetch (.fill dst)) r = .ok ⟨(.value (.filled n filled), last), events⟩ ∧
      (dst.length ≤ maxLength →
        step (.fetch (.bytes dst.length)) r = .ok ⟨(.value (.bytes p.bytes), last), events⟩) ∧
      r.source.remaining = p.bytes ++ last.source.remaining ∧
      n ≤ dst.length ∧ (n = dst.length ↔ failure = none) ∧
      Source.Reaches r.source.segments dst.length p := by
  intro p n failure filled last events
  have reaches : Source.Reaches r.source.segments dst.length p := Source.reaches_pullFrom _ _
  have drawn : (draw dst.length).run r = ⟨(⟨p.bytes, failure.isNone⟩, last), events⟩ :=
    draw_run unblocked dst.length
  have size := reaches.length_bytes
  refine ⟨fun turns enough => ?_, ?_, fun bounded => ?_, reaches.conserves, ?_, ?_, reaches⟩
  · have ran := Filling.run_eq (f := ⟨dst, 0, r.source⟩) (Nat.zero_le _) enough
    rw [ran]
    simp only [Bytes.overlay_zero, Nat.zero_add]
    rfl
  · have ran : (perform (.fetch (.fill dst))).run r =
        ⟨(.value (.filled n (dst.overlay 0 p.bytes)), last), events ++ []⟩ := by
      rw [perform, fetch, bind_assoc, run_bind_of drawn]
      rfl
    rw [Bytes.overlay_zero, List.append_nil] at ran
    exact congrArg Except.ok ran
  · have proper : r.misuse? (.fetch (.bytes dst.length)) = none := by
      rw [misuse?, Misuse.ofLength?, if_neg (Nat.not_lt.mpr bounded), ite_self]
    have ran : (perform (.fetch (.bytes dst.length))).run r =
        ⟨(.value (.bytes p.bytes), last), events ++ []⟩ := by
      rw [perform, fetch, bind_assoc, run_bind_of drawn]
      rfl
    rw [step, proper, ran, List.append_nil]
  · exact Source.length_pulled_le _ _
  · rw [Stop.failure?_eq_none]
    split at size
    · next full => exact iff_of_true size full
    · next early => exact iff_of_false (Nat.ne_of_lt size) early

theorem filled_from_source_torn :
    let late : IoError := ⟨.timedOut, "late"⟩
    let torn : Source :=
      ⟨[.data [1], .fault ⟨.interrupted, "again"⟩, .data [], .data [2, 3], .fault late, .data [4]]⟩
    let paused : Source := ⟨[.data [1], .pause, .data [2]]⟩
    let reader (source : Source) : StreamReader := .over source false
    (∀ source, (reader source).slot.blocked = false) ∧
      Filling.run 12 ⟨[9, 9, 9, 9, 9], 0, torn⟩ =
        some (some (.io late), ⟨[1, 2, 3, 9, 9], 3, ⟨[.data [4]]⟩⟩) ∧
      step (.fetch (.fill [9, 9, 9, 9, 9])) (reader torn) =
        .ok ⟨(.value (.filled 3 [1, 2, 3, 9, 9]),
        ⟨⟨false, some (.io late)⟩, ⟨[.data [4]]⟩⟩), [.firstFailure .reader (.io late)]⟩ ∧
      step (.fetch (.bytes 2)) (reader paused) = .ok ⟨(.value (.bytes [1]),
        ⟨⟨false, some (.shortRead 1 2)⟩, ⟨[.data [2]]⟩⟩),
          [.firstFailure .reader (.shortRead 1 2)]⟩ := by
  intro late torn paused reader
  have free (source : Source) : (reader source).slot.blocked = false := rfl
  obtain ⟨loop, filled, -⟩ := filled_from_source (reader torn) (free torn) [9, 9, 9, 9, 9]
  obtain ⟨-, -, fetched, -⟩ := filled_from_source (reader paused) (free paused) [9, 9]
  exact ⟨free, loop 12 (by decide), filled, fetched (by decide)⟩

end StreamReader

end WireCodec
