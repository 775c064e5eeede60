import WireCodec.Bytes
import WireCodec.Failure

/-!
# Sources

A source delivers segments: bytes, failures, and ends after which more may follow. One read takes
from one segment only. Pulling a number of bytes reads until they are there, the source ends or it
fails; an interrupted read is tried again.
-/

set_option autoImplicit false

namespace WireCodec

inductive Segment where
  | data (b : Bytes)
  /-- One read fails. -/
  | fault (e : IoError)
  /-- One read finds nothing. -/
  | pause
  deriving DecidableEq

structure Source where
  segments : List Segment
  deriving DecidableEq

inductive Stop where
  | full
  | ended
  | failed (e : IoError)
  deriving DecidableEq

/-- The bytes that were pulled, why it stopped, and what is left. -/
structure Pulled where
  bytes : Bytes
  stop : Stop
  rest : List Segment
  deriving DecidableEq

def pullFrom (n : Nat) (segments : List Segment) : Pulled :=
  if n = 0 then ⟨[], .full, segments⟩
  else
    match segments with
    | [] => ⟨[], .ended, []⟩
    | .pause :: rest => ⟨[], .ended, rest⟩
    | .fault e :: rest => if e.kind = .interrupted then pullFrom n rest else ⟨[], .failed e, rest⟩
    | .data b :: rest =>
      let front := b.take n
      if front.length < n then
        let more := pullFrom (n - front.length) rest
        { more with bytes := front ++ more.bytes }
      else ⟨front, .full, .data (b.drop n) :: rest⟩
termination_by structural segments

namespace Source

/-- Reads at most `n` bytes, from one segment; no byte means that nothing was asked for or the
source ended. -/
def readFrom (n : Nat) : List Segment → Except IoError Bytes × List Segment
  | [] => (.ok [], [])
  | .pause :: rest => (.ok [], rest)
  | .fault e :: rest => (.error e, rest)
  | .data [] :: rest => readFrom n rest
  | .data (b :: bs) :: rest => (.ok ((b :: bs).take n), .data ((b :: bs).drop n) :: rest)

def read (s : Source) (n : Nat) : Except IoError Bytes × Source :=
  if n = 0 then (.ok [], s)
  else
    let (outcome, rest) := readFrom n s.segments
    (outcome, ⟨rest⟩)

def pull (s : Source) (n : Nat) : Pulled := pullFrom n s.segments

def push (s : Source) (segments : List Segment) : Source := ⟨s.segments ++ segments⟩

def remaining (s : Source) : Bytes :=
  s.segments.flatMap fun
    | .data b => b
    | _ => []

def left (s : Source) : Nat := s.remaining.length

theorem pull_eq_read (s : Source) (n : Nat) (h : n ≠ 0) :
    s.pull n =
      match s.read n with
      | (.error e, s') => if e.kind = .interrupted then s'.pull n else ⟨[], .failed e, s'.segments⟩
      | (.ok [], s') => ⟨[], .ended, s'.segments⟩
      | (.ok (b :: bs), s') =>
        let more := s'.pull (n - (b :: bs).length)
        { more with bytes := b :: bs ++ more.bytes } := by
  obtain ⟨segments⟩ := s
  simp only [pull, read, h, ite_false]
  induction segments with
  | nil => simp [pullFrom, readFrom, h]
  | cons first rest ih =>
    cases first with
    | pause => simp [pullFrom, readFrom, h]
    | fault e => simp [pullFrom, readFrom, h]
    | data b =>
      cases b with
      | nil =>
        rw [pullFrom]
        simpa [readFrom, h, Nat.pos_of_ne_zero h] using ih
      | cons b bs =>
        obtain ⟨k, rfl⟩ := Nat.exists_eq_succ_of_ne_zero h
        rw [pullFrom]
        by_cases short : bs.length < k
        · have count : min k bs.length = bs.length := Nat.min_eq_right (by omega)
          have none_left : bs.drop k = [] := List.drop_eq_nil_of_le (by omega)
          have wanting : k - bs.length ≠ 0 := by omega
          simp [readFrom, pullFrom, count, none_left, short, wanting, Nat.pos_of_ne_zero wanting]
        · have count : min k bs.length = k := Nat.min_eq_left (by omega)
          simp [readFrom, pullFrom, count]

end Source

end WireCodec
