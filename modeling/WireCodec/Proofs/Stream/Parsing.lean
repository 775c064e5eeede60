import Mathlib.Data.List.Infix
import WireCodec.Proofs.Stream.Delivery

/-!
# Reading as parsing

A parse takes what it needs from a source and stops at its first failure; of a failure that is kept
it knows nothing. A reader that is not blocked does what the parse of a field does, and keeps the
failure if there is one; a blocked reader does nothing. `Fetched` says all that fetching a field can
come to.
-/

set_option autoImplicit false

namespace WireCodec

/-- Reading without a place to keep a failure in. The first one ends it, and leaves the source as it
is then. -/
abbrev Parse (α : Type) := ExceptT Failure (StateM Source) α

namespace Parse

variable {α β : Type}

def runOn (p : Parse α) (s : Source) : Except Failure α × Source := StateT.run (ExceptT.run p) s

def take (n : Nat) : Parse Bytes := do
  let s ← get
  let p := s.pull n
  set (⟨p.rest⟩ : Source)
  match p.stop with
  | .full => pure p.bytes
  | .ended => throw (.shortRead p.bytes.length n)
  | .failed e => throw (.io e)

def number (o : Order) (w : Width) : Parse Nat := do
  let b ← take w.bytes
  pure (o.value b)

def base128From : Nat → Leb128.Accumulator → Parse Nat
  | 0, _ => throw .varintOverflow
  | fuel + 1, a => do
    let b ← take 1
    match a.feed (b.headD 0) with
    | .done v => pure v
    | .more a' => base128From fuel a'
    | .overflow => throw .varintOverflow

def base128 : Parse Nat := base128From Leb128.maxBytes .start

def length (o : Order) (f : LengthField) : Parse Nat :=
  match f.width? with
  | some w => number o w
  | none => base128

def payload (o : Order) (f : LengthField) : Parse Bytes := do
  let n ← length o f
  if maxLength < n then throw (.lengthTooLarge n maxLength) else take n

def text (o : Order) (f : LengthField) : Parse String := do
  let b ← payload o f
  match Utf8.decode? b with
  | some s => pure s
  | none => throw .invalidUtf8

end Parse

namespace Field

def parse : Field Order → Parse Value
  | .bytes n => do
    let b ← Parse.take n
    pure (.bytes b)
  | .fill dst => do
    let b ← Parse.take dst.length
    pure (.filled b.length (dst.overlay 0 b))
  | .word o f => do
    let n ← Parse.number o f.width
    pure (.int (f.word n).toInt)
  | .bool => do
    let n ← Parse.number .standard .b8
    pure (.bool (n != 0))
  | .uint o w => do
    let n ← Parse.number o w
    pure (.int n)
  | .int o w => do
    let n ← Parse.number o w
    pure (.int (w.toSigned n))
  | .uvarint => do
    let n ← Parse.base128
    pure (.int n)
  | .varint => do
    let n ← Parse.base128
    pure (.int (Zigzag.toSigned (UInt64.ofNat n)).toInt)
  | .float32 o => do
    let n ← Parse.number o .b32
    pure (.float32 (UInt32.ofNat n))
  | .float64 o => do
    let n ← Parse.number o .b64
    pure (.float64 (UInt64.ofNat n))
  | .complex64 o => do
    let re ← Parse.number o .b32
    let im ← Parse.number o .b32
    pure (.complex64 (UInt32.ofNat re) (UInt32.ofNat im))
  | .complex128 o => do
    let re ← Parse.number o .b64
    let im ← Parse.number o .b64
    pure (.complex128 (UInt64.ofNat re) (UInt64.ofNat im))
  | .blob o f => do
    let b ← Parse.payload o f
    pure (.bytes b)
  | .text o f => do
    let s ← Parse.text o f
    pure (.text s)
  | .lossyText o f => do
    let b ← Parse.payload o f
    pure (.text (Utf8.decodeLossy b))

/-- What stands for a value of which nothing was read. -/
def zero {ω : Type} : Field ω → Value
  | .bytes _ | .blob .. => .bytes []
  | .fill dst => .filled 0 dst
  | .word .. | .uint .. | .int .. | .uvarint | .varint => .int 0
  | .bool => .bool false
  | .float32 _ => .float32 0
  | .float64 _ => .float64 0
  | .complex64 _ => .complex64 0 0
  | .complex128 _ => .complex128 0 0
  | .text .. | .lossyText .. => .text ""

/-- Whether the answer is what arrived, all that was asked for or not. -/
def mayBeShort {ω : Type} : Field ω → Bool
  | .bytes _ | .fill _ => true
  | _ => false

/-- The order and the width of both parts of a complex number, and the value that two such numbers
make. -/
def halves? : Field Order → Option (Order × Width × (Nat → Nat → Value))
  | .complex64 o => some (o, .b32, fun re im => .complex64 (UInt32.ofNat re) (UInt32.ofNat im))
  | .complex128 o => some (o, .b64, fun re im => .complex128 (UInt64.ofNat re) (UInt64.ofNat im))
  | _ => none

end Field

theorem Leb128.Accumulator.count_of_more {a a' : Accumulator} {b : UInt8}
    (unfinished : a.count < maxBytes)
    (fed : a.feed b = .more a') : a'.count = a.count + 1 ∧ a'.count < maxBytes := by
  unfold feed at fed
  split at fed
  · cases fed
  · next fits =>
    dsimp only at fed
    split at fed
    · cases fed
    · next great =>
      cases fed
      refine ⟨rfl, Nat.lt_of_le_of_ne unfinished fun tenth => fits ⟨tenth, ?_⟩⟩
      omega

namespace Source

theorem remaining_pullFrom (segments : List Segment) (n : Nat) :
    (⟨(pullFrom n segments).rest⟩ : Source).remaining <:+ (⟨segments⟩ : Source).remaining :=
  ⟨_, (reaches_pullFrom segments n).conserves.symm⟩

theorem length_pulled_le (segments : List Segment) (n : Nat) :
    (pullFrom n segments).bytes.length ≤ n := by
  have size := (reaches_pullFrom segments n).length_bytes
  split at size
  · exact size.le
  · exact Nat.le_of_lt size

theorem length_of_full {segments : List Segment} {n : Nat}
    (full : (pullFrom n segments).stop = .full) :
    (pullFrom n segments).bytes.length = n := by
  have size := (reaches_pullFrom segments n).length_bytes
  rwa [if_pos full] at size

theorem lasting_of_failed {segments : List Segment} {n : Nat} {e : IoError}
    (failed : (pullFrom n segments).stop = .failed e) : e.kind ≠ .interrupted := by
  have reaches := reaches_pullFrom segments n
  generalize pullFrom n segments = p at reaches failed
  cases reaches with
  | failed _ _ _ lasting =>
    cases failed
    exact lasting
  | idle | full | drained | paused => cases failed

end Source

namespace Parse

variable {α β : Type}

theorem runOn_pure (v : α) (s : Source) : (pure v : Parse α).runOn s = (.ok v, s) := rfl

theorem runOn_throw (e : Failure) (s : Source) : (throw e : Parse α).runOn s = (.error e, s) := rfl

theorem runOn_bind_eq (p : Parse α) (q : α → Parse β) (s : Source) : (p >>= q).runOn s =
    match p.runOn s with
    | (.ok v, mid) => (q v).runOn mid
    | (.error e, mid) => (.error e, mid) := by
  unfold runOn
  rw [ExceptT.run_bind, StateT.run_bind]
  change (match StateT.run (ExceptT.run p) s with | (outcome, mid) => _) = _
  rcases StateT.run (ExceptT.run p) s with ⟨outcome, mid⟩
  cases outcome <;> rfl

theorem runOn_bind_ok {p : Parse α} {s mid : Source} {v : α} (h : p.runOn s = (.ok v, mid))
    (q : α → Parse β) :
    (p >>= q).runOn s = (q v).runOn mid := by
  rw [runOn_bind_eq, h]

theorem runOn_bind_error {p : Parse α} {s mid : Source} {e : Failure}
    (h : p.runOn s = (.error e, mid)) (q : α → Parse β) : (p >>= q).runOn s = (.error e, mid) := by
  rw [runOn_bind_eq, h]

theorem runOn_take (n : Nat) (s : Source) : (take n).runOn s =
    (match (s.pull n).stop with
      | .full => .ok (s.pull n).bytes
      | .ended => .error (.shortRead (s.pull n).bytes.length n)
      | .failed e => .error (.io e), ⟨(s.pull n).rest⟩) := by
  change StateT.run
    (ExceptT.run (match (s.pull n).stop with | .full => _ | .ended => _ | .failed e => _)) _ = _
  cases (s.pull n).stop <;> rfl

theorem length_of_take {n : Nat} {s s' : Source} {b : Bytes}
    (taken : (take n).runOn s = (.ok b, s')) : b.length = n := by
  rw [runOn_take] at taken
  cases stop : (s.pull n).stop with
  | full =>
    rw [stop] at taken
    cases taken
    exact Source.length_of_full stop
  | ended | failed e =>
    rw [stop] at taken
    cases taken

/-- Built from reads of the source. What the source has no part in fails of the data alone. -/
inductive Built : {α : Type} → Parse α → Prop
  | pure {α : Type} (v : α) : Built (pure v : Parse α)
  | throw {α : Type} {e : Failure} (own : e.isIo = false) : Built (throw e : Parse α)
  | take (n : Nat) : Built (take n)
  | bind {α β : Type} {p : Parse α} {q : α → Parse β} (first : Built p) (then_ : ∀ v, Built (q v)) :
    Built (p >>= q)

theorem built_number (o : Order) (w : Width) : Built (number o w) :=
  (Built.take w.bytes).bind fun _ => .pure _

theorem built_base128From (fuel : Nat) (a : Leb128.Accumulator) : Built (base128From fuel a) := by
  induction fuel generalizing a with
  | zero => exact .throw rfl
  | succ fuel ih =>
    refine (Built.take 1).bind fun b => ?_
    split
    · exact .pure _
    · exact ih _
    · exact .throw rfl

theorem built_payload (o : Order) (f : LengthField) : Built (payload o f) := by
  have announced : Built (length o f) := by
    unfold length
    split
    · exact built_number o _
    · exact built_base128From _ _
  refine announced.bind fun n => ?_
  split
  · exact .throw rfl
  · exact .take n

theorem built_text (o : Order) (f : LengthField) : Built (text o f) := by
  refine (built_payload o f).bind fun b => ?_
  split
  · exact .pure _
  · exact .throw rfl

theorem built_parse (f : Field Order) : Built f.parse := by
  cases f with
  | bytes n => exact (Built.take n).bind fun _ => .pure _
  | fill dst => exact (Built.take dst.length).bind fun _ => .pure _
  | word o f => exact (built_number o f.width).bind fun _ => .pure _
  | bool => exact (built_number .standard .b8).bind fun _ => .pure _
  | uint o w | int o w => exact (built_number o w).bind fun _ => .pure _
  | uvarint | varint => exact (built_base128From _ _).bind fun _ => .pure _
  | float32 o => exact (built_number o .b32).bind fun _ => .pure _
  | float64 o => exact (built_number o .b64).bind fun _ => .pure _
  | complex64 o =>
    exact (built_number o .b32).bind fun _ => (built_number o .b32).bind fun _ => .pure _
  | complex128 o =>
    exact (built_number o .b64).bind fun _ => (built_number o .b64).bind fun _ => .pure _
  | blob o f | lossyText o f => exact (built_payload o f).bind fun _ => .pure _
  | text o f => exact (built_text o f).bind fun _ => .pure _

/-- Whatever a parse leaves is what comes behind some of the bytes. -/
def Forward (p : Parse α) : Prop := ∀ s : Source, (p.runOn s).2.remaining <:+ s.remaining

/-- A parse never fails of an interruption, which ends no pull. -/
def Lasting (p : Parse α) : Prop :=
  ∀ (s : Source) (e : IoError), (p.runOn s).1 = .error (.io e) → e.kind ≠ .interrupted

theorem Built.forward {p : Parse α} (built : Built p) : p.Forward := by
  induction built with
  | pure v => exact fun _ => List.suffix_rfl
  | throw _ => exact fun _ => List.suffix_rfl
  | take n =>
    intro s
    rw [runOn_take]
    exact Source.remaining_pullFrom s.segments n
  | @bind _ _ p q _ _ first then_ =>
    intro s
    have front := first s
    rw [runOn_bind_eq]
    cases parsed : p.runOn s with
    | mk outcome mid =>
      rw [parsed] at front
      cases outcome with
      | error e => exact front
      | ok v => exact (then_ v mid).trans front

theorem Built.lasting {p : Parse α} (built : Built p) : p.Lasting := by
  induction built with
  | pure v =>
    intro s e failed
    cases failed
  | throw own =>
    intro s e failed
    cases failed
    cases own
  | take n =>
    intro s e failed
    rw [runOn_take] at failed
    cases stop : (s.pull n).stop with
    | full | ended =>
      rw [stop] at failed
      cases failed
    | failed g =>
      rw [stop] at failed
      cases failed
      exact Source.lasting_of_failed stop
  | @bind _ _ p q _ _ first then_ =>
    intro s e failed
    rw [runOn_bind_eq] at failed
    cases parsed : p.runOn s with
    | mk outcome mid =>
      rw [parsed] at failed
      cases outcome with
      | error g =>
        cases failed
        exact first s e (congrArg Prod.fst parsed)
      | ok v => exact then_ v mid e failed

end Parse

namespace ErrorSlot

def keeping (s : ErrorSlot) (f : Failure) : ErrorSlot := { s with first := s.first.or (some f) }

/-- What is reported of a failure, which is nothing if another is kept already. -/
def news (s : ErrorSlot) (side : Side) (f : Failure) : List Event :=
  if s.first.isSome then [] else [.firstFailure side f]

theorem unblocked_of_clean {slot : ErrorSlot} (clean : slot.first = none) :
    slot.blocked = false := by
  rw [blocked, clean, Option.isSome_none, Bool.and_false]

theorem keeping_of_kept {s : ErrorSlot} (kept : s.first.isSome = true) (f : Failure) :
    s.keeping f = s := by
  obtain ⟨strict, first⟩ := s
  cases first with
  | none => cases kept
  | some g => rfl

end ErrorSlot

namespace StreamReader

variable {α β : Type}

theorem note_run (f : Failure) (r : StreamReader) :
    (note f).run r = ⟨((), ⟨r.slot.keeping f, r.source⟩), r.slot.news .reader f⟩ := by
  obtain ⟨⟨strict, first⟩, source⟩ := r
  cases first <;> rfl

theorem note_pure (f : Failure) (v : α) (r : StreamReader) :
    (do note f; pure v : Action StreamReader α).run r =
      ⟨(v, ⟨r.slot.keeping f, r.source⟩), r.slot.news .reader f⟩ := by
  rw [StateT.run_bind, note_run]
  exact Logged.ext rfl (List.append_nil _)

/-- Parses, unless the reader is blocked, and keeps the failure. -/
def attempt (p : Parse α) : Action StreamReader (Option α) := do
  let r ← get
  if r.slot.blocked then pure none
  else
    let (outcome, source) := p.runOn r.source
    set (⟨r.slot, source⟩ : StreamReader)
    match outcome with
    | .ok v => pure (some v)
    | .error f =>
      note f
      pure none

theorem attempt_blocked {r : StreamReader} (blocked : r.slot.blocked = true) (p : Parse α) :
    (attempt p).run r = pure (none, r) := by
  simp [attempt, StateT.run_bind, blocked]

theorem attempt_ok {r : StreamReader} {p : Parse α} {v : α} {s : Source}
    (unblocked : r.slot.blocked = false)
    (parsed : p.runOn r.source = (.ok v, s)) : (attempt p).run r = pure (some v, ⟨r.slot, s⟩) := by
  simp [attempt, StateT.run_bind, unblocked, parsed]

theorem attempt_error {r : StreamReader} {p : Parse α} {f : Failure} {s : Source}
    (unblocked : r.slot.blocked = false) (parsed : p.runOn r.source = (.error f, s)) :
    (attempt p).run r = ⟨(none, ⟨r.slot.keeping f, s⟩), r.slot.news .reader f⟩ := by
  have run : (attempt p).run r =
      (do note f; pure none : Action StreamReader (Option α)).run ⟨r.slot, s⟩ := by
    simp [attempt, StateT.run_bind, unblocked, parsed]
  rw [run, note_pure]

theorem attempt_pure {r : StreamReader} (unblocked : r.slot.blocked = false) (v : α) :
    (attempt (pure v)).run r = (pure (some v) : Action StreamReader (Option α)).run r :=
  attempt_ok unblocked (Parse.runOn_pure v r.source)

theorem attempt_throw {r : StreamReader} (unblocked : r.slot.blocked = false) (f : Failure) :
    (attempt (throw f : Parse α)).run r =
      (do note f; pure none : Action StreamReader (Option α)).run r := by
  rw [attempt_error unblocked (Parse.runOn_throw f r.source), note_pure]

theorem attempt_bind {p : Parse α} {q : α → Parse β} {k : α → Action StreamReader (Option β)}
    (goes_on : ∀ {s mid : Source} {v : α},
      p.runOn s = (.ok v, mid) → ∀ r : StreamReader, r.slot.blocked = false →
      (attempt (q v)).run r = (k v).run r) :
    attempt (p >>= q) = (do
      match ← attempt p with
      | none => pure none
      | some v => k v) := by
  refine StateT.ext fun r => ?_
  rw [StateT.run_bind]
  by_cases blocked : r.slot.blocked = true
  · rw [attempt_blocked blocked, attempt_blocked blocked]
    rfl
  · have unblocked : r.slot.blocked = false := Bool.eq_false_iff.mpr blocked
    cases first : p.runOn r.source with
    | mk outcome mid =>
      cases outcome with
      | error f =>
        rw [attempt_error unblocked first, attempt_error unblocked (Parse.runOn_bind_error first q)]
        exact Logged.ext rfl (List.append_nil _).symm
      | ok v =>
        rw [attempt_ok unblocked first, pure_bind]
        refine Eq.trans ?_ (goes_on first ⟨r.slot, mid⟩ unblocked)
        cases second : (q v).runOn mid with
        | mk outcome last =>
          have both := (Parse.runOn_bind_ok first q).trans second
          cases outcome with
          | error f =>
            rw [attempt_error unblocked both]
            exact (attempt_error (r := ⟨r.slot, mid⟩) unblocked second).symm
          | ok w =>
            rw [attempt_ok unblocked both]
            exact (attempt_ok (r := ⟨r.slot, mid⟩) unblocked second).symm

theorem attempt_map (p : Parse α) (g : α → β) :
    attempt (do let v ← p; pure (g v)) = (do let v ← attempt p; pure (v.map g)) := by
  rw [attempt_bind fun {_ _ v} _ r unblocked => attempt_pure unblocked (g v)]
  congr 1
  funext v
  cases v <;> rfl

theorem draw_blocked {r : StreamReader} (blocked : r.slot.blocked = true) (n : Nat) :
    (draw n).run r = pure (⟨[], false⟩, r) := by
  simp [draw, StateT.run_bind, blocked]

theorem draw_ok {r : StreamReader} {n : Nat} {b : Bytes} {s : Source}
    (unblocked : r.slot.blocked = false) (parsed : (Parse.take n).runOn r.source = (.ok b, s)) :
    (draw n).run r = pure (⟨b, true⟩, ⟨r.slot, s⟩) := by
  rw [Parse.runOn_take] at parsed
  cases stop : (r.source.pull n).stop with
  | full =>
    rw [stop] at parsed
    cases parsed
    simp [draw, StateT.run_bind, unblocked, stop]
  | ended | failed e =>
    rw [stop] at parsed
    cases parsed

theorem draw_error {r : StreamReader} {n : Nat} {f : Failure} {s : Source}
    (unblocked : r.slot.blocked = false)
    (parsed : (Parse.take n).runOn r.source = (.error f, s)) : (draw n).run r =
      ⟨(⟨(r.source.pull n).bytes, false⟩, ⟨r.slot.keeping f, s⟩), r.slot.news .reader f⟩ := by
  rw [Parse.runOn_take] at parsed
  cases stop : (r.source.pull n).stop with
  | full =>
    rw [stop] at parsed
    cases parsed
  | ended | failed e =>
    rw [stop] at parsed
    cases parsed
    rw [← note_pure _ _ ⟨r.slot, ⟨(r.source.pull n).rest⟩⟩]
    simp [draw, StateT.run_bind, unblocked, stop]

/-! ## Single reads are parses -/

theorem exactly_eq (n : Nat) : exactly? n = attempt (Parse.take n) := by
  refine StateT.ext fun r => ?_
  rw [exactly?, StateT.run_bind]
  by_cases blocked : r.slot.blocked = true
  · rw [draw_blocked blocked, attempt_blocked blocked]
    rfl
  · have unblocked : r.slot.blocked = false := Bool.eq_false_iff.mpr blocked
    cases parsed : (Parse.take n).runOn r.source with
    | mk outcome last =>
      cases outcome with
      | error f =>
        rw [draw_error unblocked parsed, attempt_error unblocked parsed]
        exact Logged.ext rfl (List.append_nil _)
      | ok b =>
        rw [draw_ok unblocked parsed, attempt_ok unblocked parsed]
        rfl

theorem number_eq (o : Order) (w : Width) : number? o w = attempt (Parse.number o w) := by
  rw [number?, exactly_eq, Parse.number, attempt_map]

/-- What the reader does with a byte of a number in base 128, of which it may read `fuel` more. -/
def digest (fuel : Nat) (a : Leb128.Accumulator) (b : UInt8) : Action StreamReader (Option Nat) :=
  match a.feed b with
  | .done v => pure (some v)
  | .more a' => base128From? fuel a'
  | .overflow => do
    note .varintOverflow
    pure none

theorem base128From_succ (fuel : Nat) (a : Leb128.Accumulator) : base128From? (fuel + 1) a = (do
    match ← exactly? 1 with
    | none => pure none
    | some v => digest fuel a (v.headD 0)) := by
  rw [base128From?, exactly_eq]
  refine StateT.ext fun r => ?_
  rw [StateT.run_bind, StateT.run_bind]
  by_cases blocked : r.slot.blocked = true
  · rw [attempt_blocked blocked]
    rfl
  · have unblocked : r.slot.blocked = false := Bool.eq_false_iff.mpr blocked
    cases taken : (Parse.take 1).runOn r.source with
    | mk outcome mid =>
      cases outcome with
      | error f =>
        rw [attempt_error unblocked taken]
        rfl
      | ok v =>
        obtain ⟨b, rfl⟩ := List.length_eq_one_iff.mp (Parse.length_of_take taken)
        rw [attempt_ok unblocked taken]
        rfl

theorem base128From_eq (fuel : Nat) (a : Leb128.Accumulator)
    (room : fuel + a.count = Leb128.maxBytes) (unfinished : a.count < Leb128.maxBytes) :
    base128From? fuel a = attempt (Parse.base128From fuel a) := by
  induction fuel generalizing a with
  | zero => omega
  | succ fuel ih =>
    rw [base128From_succ, exactly_eq, Parse.base128From,
      attempt_bind (k := fun v => digest fuel a (v.headD 0))]
    · congr 1
      funext v
      cases v <;> rfl
    · intro s mid v _ r unblocked
      unfold digest
      cases fed : a.feed (v.headD 0) with
      | done v => exact attempt_pure unblocked v
      | overflow => exact attempt_throw unblocked _
      | more a' =>
        obtain ⟨count, unfinished'⟩ := Leb128.Accumulator.count_of_more unfinished fed
        exact congrArg (fun x => x.run r) (ih a' (by omega) unfinished').symm

theorem base128_eq : base128? = attempt Parse.base128 := base128From_eq _ _ rfl (by decide)

theorem length_eq (o : Order) (f : LengthField) : length? o f = attempt (Parse.length o f) := by
  unfold length? Parse.length
  cases f.width? with
  | some w => exact number_eq o w
  | none => exact base128_eq

theorem payload_eq (o : Order) (f : LengthField) : payload? o f = attempt (Parse.payload o f) := by
  rw [payload?, length_eq, Parse.payload, attempt_bind (k := fun n =>
    if maxLength < n then do
      note (.lengthTooLarge n maxLength)
      pure none
    else exactly? n)]
  · congr 1
    funext n
    cases n <;> rfl
  · intro s mid n _ r unblocked
    split
    · exact attempt_throw unblocked _
    · rw [exactly_eq]

/-! ## What fetching comes to -/

theorem attempt_kept {p : Parse α} (forward : p.Forward) {r : StreamReader}
    (kept : r.slot.first.isSome = true) :
    ∃ (v : Option α) (s : Source),
      (attempt p).run r = pure (v, ⟨r.slot, s⟩) ∧ s.remaining <:+ r.source.remaining ∧
      (r.slot.strict = true → s = r.source) := by
  by_cases blocked : r.slot.blocked = true
  · exact ⟨none, r.source, attempt_blocked blocked p, List.suffix_rfl, fun _ => rfl⟩
  · have unblocked : r.slot.blocked = false := Bool.eq_false_iff.mpr blocked
    have lenient (strict : r.slot.strict = true) : False :=
      blocked (by simp [ErrorSlot.blocked, strict, kept])
    have behind := forward r.source
    cases parsed : p.runOn r.source with
    | mk outcome last =>
      rw [parsed] at behind
      refine ⟨outcome.toOption, last, ?_, behind, fun strict => (lenient strict).elim⟩
      cases outcome with
      | ok v => exact attempt_ok unblocked parsed
      | error g =>
        rw [attempt_error unblocked parsed, ErrorSlot.keeping_of_kept kept, ErrorSlot.news,
          if_pos kept]
        rfl

/-- All that fetching a field comes to. After its first failure a lenient reader may still go on, a
strict one stops there. -/
inductive Fetched (f : Field Order) (r : StreamReader) : Logged (Value × StreamReader) → Prop
  | idle (blocked : r.slot.blocked = true) : Fetched f r (pure (f.zero, r))
  | read {v : Value} {s : Source} (unblocked : r.slot.blocked = false)
    (parsed : f.parse.runOn r.source = (.ok v, s)) :
      Fetched f r (pure (v, ⟨r.slot, s⟩))
  | failed {g : Failure} {s : Source} (unblocked : r.slot.blocked = false)
      (parsed : f.parse.runOn r.source = (.error g, s)) (v : Value) (s' : Source)
      (behind : s'.remaining <:+ s.remaining) (stops : r.slot.strict = true → s' = s) :
      Fetched f r ⟨(v, ⟨r.slot.keeping g, s'⟩), r.slot.news .reader g⟩

theorem run_bind_of {a : Action StreamReader α} {r mid : StreamReader} {v : α} {events : List Event}
    (ran : a.run r = ⟨(v, mid), events⟩) (k : α → Action StreamReader β) :
    (a >>= k).run r = ⟨((k v).run mid).value, events ++ ((k v).run mid).events⟩ := by
  rw [StateT.run_bind, ran]
  rfl

theorem fetched_single {f : Field Order} {p : Parse α} {g : Option α → Value}
    (fetch_eq : fetch f = (do let v ← attempt p; pure (g v)))
    (parse_eq : f.parse = (do let v ← p; pure (g (some v))))
    (zero : g none = f.zero) (r : StreamReader) : Fetched f r ((fetch f).run r) := by
  rw [fetch_eq]
  by_cases blocked : r.slot.blocked = true
  · rw [run_bind_of (attempt_blocked blocked p), zero]
    exact .idle blocked
  · have unblocked : r.slot.blocked = false := Bool.eq_false_iff.mpr blocked
    cases parsed : p.runOn r.source with
    | mk outcome last =>
      cases outcome with
      | ok v =>
        rw [run_bind_of (attempt_ok unblocked parsed)]
        refine .read unblocked ?_
        rw [parse_eq, Parse.runOn_bind_ok parsed]
        rfl
      | error e =>
        have whole : f.parse.runOn r.source = (.error e, last) := by
          rw [parse_eq, Parse.runOn_bind_error parsed]
        rw [run_bind_of (attempt_error unblocked parsed), StateT.run_pure, Logged.events_pure,
          List.append_nil]
        exact .failed unblocked whole _ last List.suffix_rfl fun _ => rfl

theorem fetched_pair {f : Field Order} {p : Parse Nat} {g : Nat → Nat → Value}
    (fetch_eq : fetch f = (do let a ← attempt p; let b ← attempt p; pure (g (a.getD 0) (b.getD 0))))
    (parse_eq : f.parse = (do let a ← p; let b ← p; pure (g a b))) (zero : g 0 0 = f.zero)
    (forward : p.Forward) (r : StreamReader) : Fetched f r ((fetch f).run r) := by
  rw [fetch_eq]
  by_cases blocked : r.slot.blocked = true
  · rw [run_bind_of (attempt_blocked blocked p), run_bind_of (attempt_blocked blocked p),
      Option.getD_none, zero]
    exact .idle blocked
  · have unblocked : r.slot.blocked = false := Bool.eq_false_iff.mpr blocked
    cases first : p.runOn r.source with
    | mk outcome mid =>
      cases outcome with
      | error e =>
        have whole : f.parse.runOn r.source = (.error e, mid) := by
          rw [parse_eq, Parse.runOn_bind_error first]
        have kept : (r.slot.keeping e).first.isSome = true := by simp [ErrorSlot.keeping]
        obtain ⟨b, last, ran, behind, stops⟩ :=
          attempt_kept forward (r := ⟨r.slot.keeping e, mid⟩) kept
        rw [run_bind_of (attempt_error unblocked first), run_bind_of ran, StateT.run_pure]
        simp only [Logged.events_pure, List.append_nil]
        exact .failed unblocked whole _ last behind stops
      | ok a =>
        rw [run_bind_of (attempt_ok unblocked first)]
        cases second : p.runOn mid with
        | mk outcome last =>
          cases outcome with
          | error e =>
            have whole : f.parse.runOn r.source = (.error e, last) := by
              rw [parse_eq, Parse.runOn_bind_ok first, Parse.runOn_bind_error second]
            rw [run_bind_of (attempt_error (r := ⟨r.slot, mid⟩) unblocked second), StateT.run_pure]
            simp only [Logged.events_pure, List.append_nil]
            exact .failed unblocked whole _ last List.suffix_rfl fun _ => rfl
          | ok b =>
            have whole : f.parse.runOn r.source = (.ok (g a b), last) := by
              rw [parse_eq, Parse.runOn_bind_ok first, Parse.runOn_bind_ok second, Parse.runOn_pure]
            rw [run_bind_of (attempt_ok (r := ⟨r.slot, mid⟩) unblocked second)]
            exact .read unblocked whole

theorem fetched_draw {f : Field Order} {n : Nat} {g : Bytes → Value}
    (fetch_eq : fetch f = (do let d ← draw n; pure (g d.bytes)))
    (parse_eq : f.parse = (do let b ← Parse.take n; pure (g b)))
    (zero : g [] = f.zero) (r : StreamReader) : Fetched f r ((fetch f).run r) := by
  rw [fetch_eq]
  by_cases blocked : r.slot.blocked = true
  · rw [run_bind_of (draw_blocked blocked n), zero]
    exact .idle blocked
  · have unblocked : r.slot.blocked = false := Bool.eq_false_iff.mpr blocked
    cases parsed : (Parse.take n).runOn r.source with
    | mk outcome last =>
      cases outcome with
      | ok b =>
        rw [run_bind_of (draw_ok unblocked parsed)]
        refine .read unblocked ?_
        rw [parse_eq, Parse.runOn_bind_ok parsed, Parse.runOn_pure]
      | error e =>
        have whole : f.parse.runOn r.source = (.error e, last) := by
          rw [parse_eq, Parse.runOn_bind_error parsed]
        rw [run_bind_of (draw_error unblocked parsed), StateT.run_pure, Logged.events_pure,
          List.append_nil]
        exact .failed unblocked whole _ last List.suffix_rfl fun _ => rfl

theorem fetch_text_eq (o : Order) (f : LengthField) :
    fetch (.text o f) = (do let s ← attempt (Parse.text o f); pure (.text (s.getD ""))) := by
  rw [fetch, payload_eq, Parse.text, attempt_bind (k := fun b =>
    match Utf8.decode? b with
    | some s => pure (some s)
    | none => do
      note .invalidUtf8
      pure none), bind_assoc]
  · congr 1
    funext b
    cases b with
    | none => simp only [pure_bind, Option.getD_none]
    | some b =>
      cases decoded :
        Utf8.decode? b <;> simp only [decoded, bind_assoc, pure_bind, Option.getD_none,
          Option.getD_some]
  · intro s mid b _ r unblocked
    cases Utf8.decode? b with
    | some s => exact attempt_pure unblocked s
    | none => exact attempt_throw unblocked _

/-- How a field is fetched, beside its parse: in one read, in two of one kind, or as what
arrives. -/
inductive Shape (f : Field Order) : Prop
  | one {α : Type} (p : Parse α) (g : Option α → Value) (whole : f.halves? = none)
      (fetch_eq : fetch f = (do let v ← attempt p; pure (g v)))
      (parse_eq : f.parse = (do let v ← p; pure (g (some v)))) (zero : g none = f.zero)
  | two {o : Order} {w : Width} {pair : Nat → Nat → Value} (halves : f.halves? = some (o, w, pair))
      (fetch_eq : fetch f = (do
        let re ← attempt (Parse.number o w)
        let im ← attempt (Parse.number o w)
        pure (pair (re.getD 0) (im.getD 0))))
      (parse_eq : f.parse =
        (do let re ← Parse.number o w; let im ← Parse.number o w; pure (pair re im)))
      (zero : pair 0 0 = f.zero)
  | drawn (n : Nat) (g : Bytes → Value) (short : f.mayBeShort = true)
      (fetch_eq : fetch f = (do let d ← draw n; pure (g d.bytes)))
      (parse_eq : f.parse = (do let b ← Parse.take n; pure (g b))) (zero : g [] = f.zero)

theorem shape (f : Field Order) : Shape f := by
  cases f with
  | bytes n => exact .drawn n .bytes rfl rfl rfl rfl
  | fill dst =>
    refine .drawn dst.length (fun b => .filled b.length (dst.overlay 0 b)) rfl rfl rfl ?_
    simp [Bytes.overlay, Field.zero]
  | word o f =>
    refine .one (Parse.number o f.width) (fun n => .int (f.word (n.getD 0)).toInt) rfl ?_ rfl ?_
    · simp only [fetch, word, number_eq, bind_assoc, pure_bind]
    · obtain ⟨signed, width⟩ := f
      cases signed <;> cases width <;> rfl
  | bool =>
    refine .one (Parse.number .standard .b8) (fun n => .bool (n.getD 0 != 0)) rfl ?_ rfl rfl
    rw [fetch, number_eq]
  | uint o w =>
    refine .one (Parse.number o w) (fun n => .int (n.getD 0 : Nat)) rfl ?_ rfl rfl
    rw [fetch, number_eq]
  | int o w =>
    refine .one (Parse.number o w) (fun n => .int (w.toSigned (n.getD 0))) rfl ?_ rfl ?_
    · rw [fetch, number_eq]
    · cases w <;> rfl
  | uvarint =>
    refine .one Parse.base128 (fun n => .int (n.getD 0 : Nat)) rfl ?_ rfl rfl
    rw [fetch, base128_eq]
  | varint =>
    refine .one Parse.base128 (fun n => .int (Zigzag.toSigned (UInt64.ofNat (n.getD 0))).toInt)
      rfl ?_ rfl rfl
    rw [fetch, base128_eq]
  | float32 o =>
    refine .one (Parse.number o .b32) (fun n => .float32 (UInt32.ofNat (n.getD 0))) rfl ?_ rfl rfl
    simp only [fetch, pattern32, number_eq, bind_assoc, pure_bind]
  | float64 o =>
    refine .one (Parse.number o .b64) (fun n => .float64 (UInt64.ofNat (n.getD 0))) rfl ?_ rfl rfl
    simp only [fetch, pattern64, number_eq, bind_assoc, pure_bind]
  | complex64 o =>
    refine .two rfl ?_ rfl rfl
    simp only [fetch, pattern32, number_eq, bind_assoc, pure_bind]
  | complex128 o =>
    refine .two rfl ?_ rfl rfl
    simp only [fetch, pattern64, number_eq, bind_assoc, pure_bind]
  | blob o f =>
    refine .one (Parse.payload o f) (fun b => .bytes (b.getD [])) rfl ?_ rfl rfl
    rw [fetch, payload_eq]
  | text o f =>
    exact .one (Parse.text o f) (fun s => .text (s.getD "")) rfl (fetch_text_eq o f) rfl rfl
  | lossyText o f =>
    refine .one (Parse.payload o f) (fun b => .text (Utf8.decodeLossy (b.getD []))) rfl ?_ rfl rfl
    rw [fetch, payload_eq]

theorem fetched (f : Field Order) (r : StreamReader) : Fetched f r ((fetch f).run r) := by
  cases shape f with
  | one p g _ fetch_eq parse_eq zero => exact fetched_single fetch_eq parse_eq zero r
  | @two o w pair _ fetch_eq parse_eq zero =>
    exact fetched_pair fetch_eq parse_eq zero (Parse.built_number o w).forward r
  | drawn n g _ fetch_eq parse_eq zero => exact fetched_draw fetch_eq parse_eq zero r

end StreamReader

end WireCodec
