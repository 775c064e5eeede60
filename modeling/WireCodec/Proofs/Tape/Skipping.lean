import WireCodec.Proofs.Tape.Extents

/-!
# Skipping and reading

Skipping a value sees nothing of it but its tag and its length, reading decodes it. Both end at the
same place on any bytes, whoever wrote them: a value is skipped if and only if its payload is all
there, and then its reader reads it.
-/

set_option autoImplicit false

namespace WireCodec

open Tape (Command Reply Request Load)

/-- The command that reads a value with one tag; a payload of variable size goes into a
destination. -/
def Tag.reader (dst : Bytes) : Tag → Command
  | .integer f => .read (.taggedWord f)
  | .blob c => .load (.taggedBlob c) dst
  | .string _ => .load .stringBytes dst
  | .float32 => .read .taggedFloat32
  | .float64 => .read .taggedFloat64
  | .complex64 => .read .complex64
  | .complex128 => .read .complex128

namespace Tape

def Reply.failure? : Reply → Option Failure
  | .plain (.ok _) => none
  | .plain (.error f) => some f
  | .loaded (.ok _) _ => none
  | .loaded (.error f) _ => some f

/-- Whether a command succeeds, and does no more to the tape than move its head to `q`. -/
def Lands (c : Command) (t : Tape) (q : Nat) : Prop :=
  ∃ reply : Reply, reply.failure? = none ∧ step c t = .ok (pure (reply, { t with pos := q }))

def Skips (t : Tape) (g : Tag) (q : Nat) : Prop :=
  step (.read .skip) t = .ok (pure (.plain (.ok (.tag g)), { t with pos := q }))

/-- Whether a destination holds the payload that is announced behind a tag at the head, if its
length is there. -/
def Holds (dst : Bytes) (t : Tape) (g : Tag) : Prop :=
  ∀ c, g.layout = .counted c → c.bytes ≤ t.length - (t.pos + 1) →
    t.bytes.announced (t.pos + 1) c ≤ dst.length

theorem step_read_eq_ok {r : Request} {t : Tape} {a : Answer} {q : Nat} :
    step (.read r) t = .ok (pure (.plain (.ok a), { t with pos := q })) ↔
      r.scan.runFrom t.bytes t.pos = pure (.ok (a, q)) := by
  constructor
  · intro h
    rcases outcome : r.scan.runFrom t.bytes t.pos with ⟨result, events⟩
    cases result with
    | error f =>
      rw [step_read_of_error outcome] at h
      cases h
    | ok result =>
      rw [step_read_of_ok outcome] at h
      cases h
      rfl
  · exact step_read

theorem lands_read {r : Request} {t : Tape} {q : Nat} :
    Lands (.read r) t q ↔ r.scan.Reaches t.bytes t.pos q := by
  constructor
  · rintro ⟨reply, success, h⟩
    rcases outcome : r.scan.runFrom t.bytes t.pos with ⟨result, events⟩
    cases result with
    | error f =>
      rw [step_read_of_error outcome] at h
      obtain ⟨rfl, -⟩ := Prod.mk.inj (congrArg Logged.value (Except.ok.inj h))
      cases success
    | ok result =>
      rw [step_read_of_ok outcome] at h
      cases h
      exact ⟨result.1, outcome⟩
  · rintro ⟨a, h⟩
    exact ⟨_, rfl, step_read h⟩

theorem lands_load {l : Load} (answers : ∀ payload, ∃ a, l.answer payload = .ok a) {dst : Bytes}
    {t : Tape} {q : Nat} :
    Lands (.load l dst) t q ↔ (l.scan dst.length).Reaches t.bytes t.pos q := by
  constructor
  · rintro ⟨reply, success, h⟩
    rcases outcome : (l.scan dst.length).runFrom t.bytes t.pos with ⟨result, events⟩
    cases result with
    | error f =>
      rw [step_load_of_error outcome] at h
      obtain ⟨rfl, -⟩ := Prod.mk.inj (congrArg Logged.value (Except.ok.inj h))
      cases success
    | ok result =>
      rw [step_load_of_ok outcome] at h
      cases h
      exact ⟨result.1, outcome⟩
  · rintro ⟨payload, h⟩
    obtain ⟨a, answer⟩ := answers payload
    exact ⟨_, by rw [answer]; rfl, step_load h⟩

theorem reaches_scan_skip {array : Bytes} {pos q : Nat} {g : Tag} :
    Request.skip.scan.runFrom array pos = pure (.ok (.tag g, q)) ↔
      Scan.skip.runFrom array pos = pure (.ok (g, q)) := by
  rw [Request.scan, Scan.runFrom_bind_eq_ok]
  constructor
  · rintro ⟨found, mid, first, second⟩
    cases second
    exact first
  · exact fun first => ⟨g, q, first, rfl⟩

theorem skips_iff {t : Tape} {g : Tag} {q : Nat} :
    t.Skips g q ↔ t.bytes[t.pos]? = some g.code ∧ g.layout.Ends t.bytes (t.pos + 1) q := by
  rw [Skips, step_read_eq_ok, reaches_scan_skip, Scan.runFrom_skip_eq_ok]

theorem lands_reader {t : Tape} {g : Tag} {q : Nat} {dst : Bytes}
    (here : t.bytes[t.pos]? = some g.code)
    (holds : Holds dst t g) : Lands (g.reader dst) t q ↔ g.layout.Ends t.bytes (t.pos + 1) q := by
  have strict {α : Type} {s : Scan α} (payload : s.Reaches t.bytes (t.pos + 1) q ↔
      g.layout.Ends t.bytes (t.pos + 1) q) :
      (do Scan.expect g; s).Reaches t.bytes t.pos q ↔ g.layout.Ends t.bytes (t.pos + 1) q := by
    rw [Scan.reaches_expect_bind, payload]
    exact and_iff_right here
  cases g with
  | integer f =>
    rw [Tag.reader, lands_read]
    exact (Scan.reaches_map fun v : Word => Answer.int v.toInt).trans
      (strict ((Scan.reaches_map f.word).trans (Scan.reaches_number f.width)))
  | blob c =>
    rw [Tag.reader, lands_load fun payload => ⟨_, rfl⟩]
    exact strict (Scan.reaches_counted (holds c rfl))
  | string c =>
    rw [Tag.reader, lands_load fun payload => ⟨_, rfl⟩]
    exact (Scan.reaches_tag_bind here).trans (Scan.reaches_counted (holds c rfl))
  | float32 =>
    rw [Tag.reader, lands_read]
    exact (Scan.reaches_map Answer.float32).trans (strict Scan.reaches_pattern32)
  | float64 =>
    rw [Tag.reader, lands_read]
    exact (Scan.reaches_map Answer.float64).trans (strict Scan.reaches_pattern64)
  | complex64 =>
    rw [Tag.reader, lands_read]
    exact (Scan.reaches_map fun p : UInt32 × UInt32 => Answer.complex64 p.1 p.2).trans
      (strict (Scan.reaches_pair fun _ _ => Scan.reaches_pattern32))
  | complex128 =>
    rw [Tag.reader, lands_read]
    exact (Scan.reaches_map fun p : UInt64 × UInt64 => Answer.complex128 p.1 p.2).trans
      (strict (Scan.reaches_pair fun _ _ => Scan.reaches_pattern64))

theorem lands_number {t : Tape} {g : Tag} {q : Nat} {r : Request}
    (here : t.bytes[t.pos]? = some g.code)
    (number : g.isNumber = true) (generic : r = .integer ∨ r = .float) :
    Lands (.read r) t q ↔ g.layout.Ends t.bytes (t.pos + 1) q := by
  rw [lands_read]
  rcases generic with rfl | rfl
  · refine (Scan.reaches_map fun v : Int64 => Answer.int v.toInt).trans
      ((Scan.reaches_tag_bind here).trans ?_)
    cases g with
    | integer f => exact (Scan.reaches_map _).trans (Scan.reaches_number f.width)
    | float32 => exact (Scan.reaches_map _).trans Scan.reaches_pattern32
    | float64 => exact (Scan.reaches_map _).trans Scan.reaches_pattern64
    | blob c | string c | complex64 | complex128 => cases number
  · refine (Scan.reaches_map fun p : UInt64 => Answer.float64 p).trans
      ((Scan.reaches_tag_bind here).trans ?_)
    cases g with
    | integer f => exact (Scan.reaches_map _).trans (Scan.reaches_number f.width)
    | float32 => exact (Scan.reaches_map _).trans Scan.reaches_pattern32
    | float64 => exact Scan.reaches_pattern64
    | blob c | string c | complex64 | complex128 => cases number

theorem step_readTag_eq_ok {t : Tape} {g : Tag} :
    step .readTag t = .ok (pure (.plain (.ok (.tag g)), { t with pos := t.pos + 1 })) ↔
      t.bytes[t.pos]? = some g.code := by
  rw [step_readTag_eq, Except.ok.injEq]
  cases here : t.bytes[t.pos]? with
  | none =>
    constructor
    · intro h
      cases congrArg (fun l : Logged (Reply × Tape) => l.value.1) h
    · intro h
      cases h
  | some code =>
    rw [Option.some.injEq, ← Tag.ofCode?_eq_some]
    dsimp only
    cases Tag.ofCode? code with
    | none =>
      constructor
      · intro h
        cases congrArg Logged.events h
      · intro h
        cases h
    | some g' =>
      constructor
      · intro h
        cases congrArg (fun l : Logged (Reply × Tape) => l.value.1) h
        rfl
      · intro h
        cases h
        rfl

theorem step_drain_eq_ok {t : Tape} {g : Tag} {n q : Nat} :
    step (.read (.drain g)) t = .ok (pure (.plain (.ok (.count n)), { t with pos := q })) ↔
      g.layout.Ends t.bytes t.pos q ∧ n = q - t.pos := by
  rw [step_read_eq_ok, Request.scan, Scan.runFrom_bind_eq_ok, ← Scan.runFrom_drain_eq_ok]
  constructor
  · rintro ⟨found, mid, first, second⟩
    cases second
    exact first
  · exact fun first => ⟨n, q, first, rfl⟩

theorem skips_iff_drain {t : Tape} {g : Tag} {q : Nat} : t.Skips g q ↔
    step .readTag t = .ok (pure (.plain (.ok (.tag g)), { t with pos := t.pos + 1 })) ∧
      step (.read (.drain g)) { t with pos := t.pos + 1 } =
        .ok (pure (.plain (.ok (.count (q - t.pos - 1))), { t with pos := q })) := by
  have behind : step (.read (.drain g)) { t with pos := t.pos + 1 } =
      .ok (pure (.plain (.ok (.count (q - t.pos - 1))), { t with pos := q })) ↔
        g.layout.Ends t.bytes (t.pos + 1) q ∧ q - t.pos - 1 = q - (t.pos + 1) :=
    step_drain_eq_ok (t := { t with pos := t.pos + 1 })
  rw [skips_iff, step_readTag_eq_ok, behind, Nat.sub_sub, eq_self, and_true]

theorem step_skip_of_not_skips {t : Tape} (stuck : ∀ g q, ¬ t.Skips g q) :
    ∃ f events, step (.read .skip) t = .ok ⟨(.plain (.error f), t), events⟩ := by
  rcases outcome : Request.skip.scan.runFrom t.bytes t.pos with ⟨result, events⟩
  cases result with
  | error f => exact ⟨f, events, step_read_of_error outcome⟩
  | ok result =>
    have quiet : Request.skip.scan.Quiet :=
      Scan.quiet_skip.bind fun g => Scan.quiet_pure (Answer.tag g)
    obtain ⟨a, q⟩ := result
    obtain rfl := quiet _ _ _ _ outcome
    obtain ⟨g, mid, first, second⟩ := Scan.runFrom_bind_eq_ok.mp outcome
    cases second
    exact absurd (step_read outcome) (stuck g q)

theorem run_skips {t : Tape} (inside : t.pos ≤ t.length) :
    ∃ (tags : List Tag) (marks : List Nat) (last : Tape),
      2 * tags.length ≤ t.remaining ∧ marks.length = tags.length ∧
      run (List.replicate tags.length (.read .skip)) t =
        .ok (pure ((tags.map fun g => Reply.plain (.ok (.tag g))).zip marks, last)) ∧
      last.bytes = t.bytes ∧
      (last.pos = last.length ∨ last.pos < last.length ∧
        ∃ f events, step (.read .skip) last = .ok ⟨(.plain (.error f), last), events⟩) := by
  -- On the bytes that are left, of which every skip takes two at least.
  induction left : t.remaining using Nat.strongRecOn generalizing t with
  | _ left ih =>
    by_cases ended : t.pos = t.length
    · exact ⟨[], [], t, Nat.zero_le _, rfl, rfl, rfl, .inl ended⟩
    · by_cases stuck : ∀ g q, ¬ t.Skips g q
      · exact ⟨[], [], t, Nat.zero_le _, rfl, rfl, rfl,
          .inr ⟨by omega, step_skip_of_not_skips stuck⟩⟩
      · simp only [not_forall, not_not] at stuck
        obtain ⟨g, q, skips⟩ := stuck
        obtain ⟨far, within⟩ := Tag.ends_bounds (skips_iff.mp skips).2
        have fewer : ({ t with pos := q } : Tape).remaining + 2 ≤ t.remaining := by
          simp only [remaining, length] at left far within inside ⊢
          omega
        obtain ⟨tags, marks, last, count, same_count, others, same_bytes, stop⟩ :=
          ih _ (by omega) (t := { t with pos := q }) within rfl
        refine ⟨g :: tags, q :: marks, last, ?_, ?_, ?_, same_bytes, stop⟩
        · rw [List.length_cons]
          omega
        · rw [List.length_cons, List.length_cons, same_count]
        · rw [List.length_cons, List.replicate_succ, run_cons skips, others]
          rfl

/-- On any bytes, a value is skipped to the same place to which its reader reads it, and skipping on
and on comes to an end. -/
theorem skip_iff_read {t : Tape} (inside : t.pos ≤ t.length) :
    (∀ (g : Tag) (q : Nat),
      (∀ dst,
        Holds dst t g → (t.Skips g q ↔ t.bytes[t.pos]? = some g.code ∧ Lands (g.reader dst) t q)) ∧
      (g.isNumber = true → ∀ r : Request, r = .integer ∨ r = .float →
        (t.Skips g q ↔ t.bytes[t.pos]? = some g.code ∧ Lands (.read r) t q)) ∧
      (t.Skips g q ↔
        step .readTag t = .ok (pure (.plain (.ok (.tag g)), { t with pos := t.pos + 1 })) ∧
        step (.read (.drain g)) { t with pos := t.pos + 1 } =
          .ok (pure (.plain (.ok (.count (q - t.pos - 1))), { t with pos := q }))) ∧
      (t.Skips g q → t.pos + 2 ≤ q ∧ q ≤ t.length)) ∧
    ∃ (tags : List Tag) (marks : List Nat) (last : Tape),
      2 * tags.length ≤ t.remaining ∧ marks.length = tags.length ∧
      run (List.replicate tags.length (.read .skip)) t =
        .ok (pure ((tags.map fun g => Reply.plain (.ok (.tag g))).zip marks, last)) ∧
      last.bytes = t.bytes ∧
      (last.pos = last.length ∨ last.pos < last.length ∧
        ∃ f events, step (.read .skip) last = .ok ⟨(.plain (.error f), last), events⟩) := by
  refine ⟨fun g q => ⟨?_, ?_, skips_iff_drain, ?_⟩, run_skips inside⟩
  · intro dst holds
    rw [skips_iff]
    exact and_congr_right fun here => (lands_reader here holds).symm
  · intro number r generic
    rw [skips_iff]
    exact and_congr_right fun here => (lands_number here number generic).symm
  · intro skips
    exact Tag.ends_bounds (skips_iff.mp skips).2

theorem skip_iff_read_blob :
    let t : Tape := ⟨[17, 2, 7, 8, 25, 1], 0⟩
    let behind : Tape := { t with pos := 4 }
    t.pos ≤ t.length ∧ Holds [0, 0, 9] t (.blob .b8) ∧ t.Skips (.blob .b8) 4 ∧
      Lands ((Tag.blob .b8).reader [0, 0, 9]) t 4 ∧
      step (.read (.drain (.blob .b8))) { t with pos := 1 } =
        .ok (pure (.plain (.ok (.count 3)), behind)) ∧
      behind.pos ≤ behind.length ∧ ∀ q,
        ¬ behind.Skips .float32 q ∧ ¬ Lands (.read .float) behind q := by
  have skips : Skips ⟨[17, 2, 7, 8, 25, 1], 0⟩ (.blob .b8) 4 := rfl
  intro t behind
  have inside : t.pos ≤ t.length := by decide
  have inside' : behind.pos ≤ behind.length := by decide
  have holds : Holds [0, 0, 9] t (.blob .b8) := by
    intro c layout _
    cases layout
    decide
  obtain ⟨read, -, drained, -⟩ := (skip_iff_read inside).1 (.blob .b8) 4
  refine ⟨inside, holds, skips, ((read _ holds).mp skips).2, (drained.mp skips).2, inside',
    fun q => ?_⟩
  obtain ⟨-, number, -, -⟩ := (skip_iff_read inside').1 .float32 q
  have stuck : ¬ behind.Skips .float32 q :=
    fun h => by cases congrArg (Except.map fun l => l.value.1) h
  exact ⟨stuck, fun lands => stuck ((number rfl .float (.inr rfl)).mpr ⟨rfl, lands⟩)⟩

end Tape
end WireCodec
