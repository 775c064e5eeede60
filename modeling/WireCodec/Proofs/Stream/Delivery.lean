import WireCodec.Stream.StreamReader

/-!
# What a pull meets

Pulling reads over bytes and interruptions, until there are bytes enough or a read finds nothing or
fails. What it brings and what it leaves are together the bytes that there were.

A source is smooth if it brings nothing but bytes and interruptions. However it cuts its bytes up,
pulling from it gives the next bytes, stops early only where they run out, and leaves a smooth
source with the bytes behind them.
-/

set_option autoImplicit false

namespace WireCodec

/-- Whether a segment brings bytes or interrupts one read, and neither fails nor ends the source. -/
def Segment.Smooth : Segment → Prop
  | .data _ => True
  | .fault e => e.kind = .interrupted
  | .pause => False

instance (s : Segment) : Decidable s.Smooth :=
  match s with
  | .data _ => inferInstanceAs (Decidable True)
  | .fault e => inferInstanceAs (Decidable (e.kind = .interrupted))
  | .pause => inferInstanceAs (Decidable False)

namespace Source

def Smooth (s : Source) : Prop := ∀ x ∈ s.segments, x.Smooth

instance (s : Source) : Decidable s.Smooth :=
  inferInstanceAs (Decidable (∀ x ∈ s.segments, x.Smooth))

theorem remaining_data (b : Bytes) (rest : List Segment) :
    remaining ⟨.data b :: rest⟩ = b ++ remaining ⟨rest⟩ := rfl

theorem remaining_single (b : Bytes) : remaining ⟨[.data b]⟩ = b := List.append_nil b

theorem remaining_fault (e : IoError) : remaining ⟨[.fault e]⟩ = [] := rfl

theorem remaining_append (front back : List Segment) :
    remaining ⟨front ++ back⟩ = remaining ⟨front⟩ ++ remaining ⟨back⟩ := List.flatMap_append

theorem Smooth.cons {x : Segment} {rest : List Segment} (first : x.Smooth)
    (others : Smooth ⟨rest⟩) : Smooth ⟨x :: rest⟩ :=
  List.forall_mem_cons.mpr ⟨first, others⟩

/-- How far pulling `n` bytes gets. The reads before the one that it stops at brought bytes or were
interrupted. -/
inductive Reaches (segments : List Segment) (n : Nat) : Pulled → Prop
  | idle (none_wanted : n = 0) : Reaches segments n ⟨[], .full, segments⟩
  | full {front back : List Segment} {b c : Bytes} (smooth : Smooth ⟨front⟩)
    (wanting : (remaining ⟨front⟩).length < n)
      (met : segments = front ++ .data (b ++ c) :: back)
      (size : (remaining ⟨front⟩ ++ b).length = n) :
      Reaches segments n ⟨remaining ⟨front⟩ ++ b, .full, .data c :: back⟩
  | drained (smooth : Smooth ⟨segments⟩) (wanting : (remaining ⟨segments⟩).length < n) :
      Reaches segments n ⟨remaining ⟨segments⟩, .ended, []⟩
  | paused {front back : List Segment} (smooth : Smooth ⟨front⟩)
    (wanting : (remaining ⟨front⟩).length < n)
      (met : segments = front ++ .pause :: back) :
        Reaches segments n ⟨remaining ⟨front⟩, .ended, back⟩
  | failed {front back : List Segment} {e : IoError} (smooth : Smooth ⟨front⟩)
    (wanting : (remaining ⟨front⟩).length < n)
      (met : segments = front ++ .fault e :: back) (lasting : e.kind ≠ .interrupted) :
      Reaches segments n ⟨remaining ⟨front⟩, .failed e, back⟩

namespace Reaches

variable {segments : List Segment} {n : Nat} {p : Pulled}

theorem cons {x : Segment} (first : x.Smooth) (pos : 0 < n) (reaches : Reaches segments n p) :
    Reaches (x :: segments) ((remaining ⟨[x]⟩).length + n)
      { p with bytes := remaining ⟨[x]⟩ ++ p.bytes } := by
  have longer (front : List Segment) (wanting : (remaining ⟨front⟩).length < n) :
      (remaining ⟨x :: front⟩).length < (remaining ⟨[x]⟩).length + n := by
    rw [← List.singleton_append, remaining_append, List.length_append]
    omega
  cases reaches with
  | idle none_wanted => omega
  | full smooth wanting met size =>
    rw [← List.append_assoc, ← remaining_append]
    refine .full (.cons first smooth) (longer _ wanting) (congrArg (x :: ·) met) ?_
    rw [List.singleton_append, ← List.singleton_append, remaining_append, List.append_assoc,
      List.length_append, size]
  | drained smooth wanting =>
    rw [← remaining_append]
    exact .drained (.cons first smooth) (longer _ wanting)
  | paused smooth wanting met =>
    rw [← remaining_append]
    exact .paused (.cons first smooth) (longer _ wanting) (congrArg (x :: ·) met)
  | failed smooth wanting met lasting =>
    rw [← remaining_append]
    exact .failed (.cons first smooth) (longer _ wanting) (congrArg (x :: ·) met) lasting

theorem conserves (reaches : Reaches segments n p) :
    remaining ⟨segments⟩ = p.bytes ++ remaining ⟨p.rest⟩ := by
  cases reaches with
  | idle => rfl
  | full _ _ met =>
    rw [met, remaining_append, remaining_data, remaining_data, List.append_assoc, List.append_assoc]
  | drained => exact (List.append_nil _).symm
  | paused _ _ met | failed _ _ met =>
    rw [met, remaining_append]
    rfl

theorem length_bytes (reaches : Reaches segments n p) :
    if p.stop = .full then p.bytes.length = n else p.bytes.length < n := by
  cases reaches with
  | idle none_wanted => exact none_wanted.symm
  | full _ _ _ size => exact size
  | drained _ wanting | paused _ wanting | failed _ wanting => exact wanting

end Reaches

theorem pullFrom_zero (segments : List Segment) : pullFrom 0 segments = ⟨[], .full, segments⟩ := by
  rw [pullFrom.eq_def, if_pos rfl]

theorem reaches_pullFrom (segments : List Segment) (n : Nat) :
    Reaches segments n (pullFrom n segments) := by
  have nothing : Smooth ⟨[]⟩ := fun _ none => (List.not_mem_nil none).elim
  -- On the segments, as the recursion goes, for any number of bytes still wanted.
  induction segments generalizing n with
  | nil =>
    by_cases none_wanted : n = 0
    · subst none_wanted
      exact .idle rfl
    · rw [pullFrom, if_neg none_wanted]
      exact .drained nothing (Nat.pos_of_ne_zero none_wanted)
  | cons x rest ih =>
    by_cases none_wanted : n = 0
    · subst none_wanted
      rw [pullFrom_zero]
      exact .idle rfl
    · have wanted := Nat.pos_of_ne_zero none_wanted
      rw [pullFrom.eq_def, if_neg none_wanted]
      cases x with
      | pause => exact .paused nothing wanted rfl
      | fault e =>
        by_cases transient : e.kind = .interrupted
        · have more := (ih n).cons (x := .fault e) transient wanted
          rw [remaining_fault, List.length_nil, Nat.zero_add] at more
          simp only [transient, if_true]
          exact more
        · simp only [transient, if_false]
          exact .failed nothing wanted rfl transient
      | data b =>
        by_cases short : b.length < n
        · have all : b.take n = b := List.take_of_length_le (Nat.le_of_lt short)
          have more := (ih (n - b.length)).cons (x := .data b) trivial (Nat.sub_pos_of_lt short)
          rw [remaining_single, Nat.add_sub_cancel' (Nat.le_of_lt short)] at more
          simp only [all, short, if_true]
          exact more
        · have size : (b.take n).length = n := List.length_take_of_le (Nat.le_of_not_lt short)
          have whole : Segment.data b :: rest = [] ++ .data (b.take n ++ b.drop n) :: rest := by
            rw [List.take_append_drop, List.nil_append]
          simp only [size, Nat.lt_irrefl, if_false]
          exact .full nothing wanted whole size

/-- What pulling `n` bytes has to give where `bytes` are all that is left. -/
structure Delivers (bytes : Bytes) (n : Nat) (p : Pulled) : Prop where
  front : p.bytes = bytes.take n
  stop : p.stop = if n ≤ bytes.length then .full else .ended
  smooth : Smooth ⟨p.rest⟩
  rest : remaining ⟨p.rest⟩ = bytes.drop n

theorem Smooth.delivers {segments : List Segment} (h : Smooth ⟨segments⟩) (n : Nat) :
    Delivers (remaining ⟨segments⟩) n (pullFrom n segments) := by
  have reaches := reaches_pullFrom segments n
  generalize pullFrom n segments = p at reaches
  have whole := reaches.conserves
  cases reaches with
  | idle none_wanted =>
    subst none_wanted
    exact ⟨rfl, rfl, h, rfl⟩
  | full smooth wanting met size =>
    dsimp only at whole
    have enough : n ≤ (remaining ⟨segments⟩).length := by
      rw [whole, List.length_append, size]
      exact Nat.le_add_right n _
    refine ⟨?_, (if_pos enough).symm, fun x mem => ?_, ?_⟩
    · rw [whole, List.take_left' size]
    · rcases List.mem_cons.mp mem with rfl | behind
      · trivial
      · exact h x (by rw [met]; exact List.mem_append_right _ (List.mem_cons_of_mem _ behind))
    · rw [whole, List.drop_left' size]
  | drained smooth wanting =>
    refine ⟨?_, (if_neg (Nat.not_le.mpr wanting)).symm, nofun, ?_⟩
    · exact (List.take_of_length_le (Nat.le_of_lt wanting)).symm
    · exact (List.drop_eq_nil_of_le (Nat.le_of_lt wanting)).symm
  | paused smooth wanting met => exact absurd (h .pause (by simp [met])) id
  | failed smooth wanting met lasting => exact absurd (h (.fault _) (by simp [met])) lasting

end Source

end WireCodec
