import WireCodec.Proofs.Tape.Effects

/-!
# Commands that fail

A command that fails, at whatever point, leaves the tape and its destination as they were. It is
told beforehand whether an entry can be stored: its payload has to be as short as the length field
allows, and all of it has to fit behind the head.
-/

set_option autoImplicit false

namespace WireCodec

namespace Entry

/-- The payload behind a length field, and the class of the field. -/
def payload? : Entry → Option (LengthClass × Bytes)
  | blob c b | taggedBlob c b => some (c, b)
  | anyBlob b => some (.ofLength b.length, b)
  | text s => some (.ofLength (Utf8.encode s).length, Utf8.encode s)
  | _ => none

def overlong? (e : Entry) : Option Failure := do
  let (c, b) ← e.payload?
  if c.maxLength < b.length then some (.integerOverflow b.length c.maxLength) else none

def sizeOfInteger (v : Int64) : Nat := 1 + (IntFormat.narrowest v.toInt).width.bytes

/-- The size of an entry, with its tag and its length field. -/
def size : Entry → Nat
  | bytes b => b.length
  | word w => w.format.width.bytes
  | uint w _ => w.bytes
  | float32 _ => 4
  | float64 _ => 8
  | blob c b => c.bytes + b.length
  | tag _ => 1
  | taggedWord w => 1 + w.format.width.bytes
  | taggedFloat32 _ => 5
  | taggedFloat64 _ => 9
  | complex64 .. => 9
  | complex128 .. => 17
  | taggedBlob c b => 1 + c.bytes + b.length
  | integer v => sizeOfInteger v
  | float p =>
    match FloatForm.narrowest p with
    | .integer v => sizeOfInteger v
    | .single _ => 5
    | .double _ => 9
  | anyBlob b => 1 + (LengthClass.ofLength b.length).bytes + b.length
  | text s => 1 + (LengthClass.ofLength (Utf8.encode s).length).bytes + (Utf8.encode s).length

theorem length_tagged (t : Tag) (width n : Nat) : (tagged t width n).length = 1 + width := by
  rw [tagged, List.length_cons, length_littleDigits, Nat.add_comm]

theorem length_encode {e : Entry} {b : Bytes} (h : e.encode = .ok b) : b.length = e.size := by
  cases e with
  | bytes _ =>
    cases h
    rfl
  | word w =>
    cases h
    rw [Word.encode_eq_digits]
    exact length_littleDigits _ _
  | uint w v =>
    cases h
    exact length_littleDigits _ _
  | float32 p | float64 p =>
    cases h
    exact length_littleDigits _ _
  | tag t =>
    cases h
    rfl
  | taggedWord w =>
    cases h
    exact length_tagged _ _ _
  | taggedFloat32 p | taggedFloat64 p | complex64 re im =>
    cases h
    exact length_tagged _ _ _
  | integer v =>
    cases h
    exact length_tagged _ _ _
  | complex128 re im =>
    cases h
    simp [length_littleDigits, size]
  | float p =>
    rw [encode] at h
    rw [size]
    cases form : FloatForm.narrowest p with
    | integer v | single q | double q =>
      simp only [form] at h
      cases h
      exact length_tagged _ _ _
  | blob c payload =>
    obtain ⟨-, rfl⟩ := counted_eq_ok h
    rw [List.length_append, length_littleDigits]
    rfl
  | taggedBlob c payload | anyBlob payload | text s =>
    obtain ⟨-, rfl⟩ := counted_map_eq_ok h
    rw [List.length_cons, List.length_append, length_littleDigits, size]
    omega

theorem counted_eq_error {c : LengthClass} {payload : Bytes} {f : Failure} :
    counted c payload = .error f ↔
      c.maxLength < payload.length ∧ f = .integerOverflow payload.length c.maxLength := by
  unfold counted
  by_cases great : c.maxLength < payload.length
  · simp [great, eq_comm]
  · simp [great]

theorem overlong?_of_payload {e : Entry} {c : LengthClass} {b : Bytes}
    (h : e.payload? = some (c, b)) {f : Failure} :
    e.overlong? = some f ↔ c.maxLength < b.length ∧ f = .integerOverflow b.length c.maxLength := by
  unfold overlong?
  rw [h]
  by_cases great : c.maxLength < b.length
  · simp [great, eq_comm]
  · simp [great]

theorem overlong?_of_plain {e : Entry} (h : e.payload? = none) : e.overlong? = none := by
  rw [overlong?, h]
  rfl

theorem encode_eq_error {e : Entry} {f : Failure} : e.encode = .error f ↔ e.overlong? = some f := by
  have behindTag (code : UInt8) (c : LengthClass) (b : Bytes) :
      (counted c b).map (code :: ·) = .error f ↔ counted c b = .error f := by
    cases counted c b <;> simp [Except.map]
  cases e with
  | blob c b => exact counted_eq_error.trans (overlong?_of_payload rfl).symm
  | taggedBlob c b | anyBlob b | text s =>
    exact (behindTag _ _ _).trans (counted_eq_error.trans (overlong?_of_payload rfl).symm)
  | float p =>
    rw [overlong?_of_plain rfl, encode]
    cases FloatForm.narrowest p <;> simp
  | bytes _ | word _ | uint _ _ | float32 _ | float64 _ | tag _ | taggedWord _ | taggedFloat32 _
  | taggedFloat64 _
  | complex64 _ _ | complex128 _ _ | integer _ =>
    rw [overlong?_of_plain rfl, encode]
    simp

end Entry

namespace Drive

open Tape (Command Reply)

def Fails (c : Command) (t : Tape) (f : Failure) : Prop :=
  ∃ (reply : Reply) (t' : Tape) (events : List Event),
    step c t = .ok ⟨(reply, t'), events⟩ ∧ reply.failure? = some f

variable {t : Tape}

theorem fails_of_step {c : Command} {f : Failure} {reply : Reply} {t' : Tape} {events : List Event}
    (ran : step c t = .ok ⟨(reply, t'), events⟩) : Fails c t f ↔ reply.failure? = some f := by
  constructor
  · rintro ⟨_, _, _, again, failed⟩
    rw [ran] at again
    cases again
    exact failed
  · exact fun failed => ⟨reply, t', events, ran, failed⟩

theorem fails_put_iff (inside : t.pos ≤ t.length) (fits : t.length ≤ maxLength) {e : Entry}
    {f : Failure} :
    Fails (.put e) t f ↔
      e.overlong? = some f ∨ e.overlong? = none ∧ t.remaining < e.size ∧
      f = .outOfBounds t.pos e.size t.length := by
  have ran := step_eq inside fits (.put e)
  rw [Tape.step_put] at ran
  cases encoded : e.encode with
  | error g =>
    have overlong := Entry.encode_eq_error.mp encoded
    simp only [encoded] at ran
    rw [fails_of_step ran, overlong]
    simp [Reply.failure?]
  | ok b =>
    have short : e.overlong? = none := by
      cases overlong : e.overlong? with
      | none => rfl
      | some g =>
        rw [Entry.encode_eq_error.mpr overlong] at encoded
        cases encoded
    rw [short, ← Entry.length_encode encoded]
    by_cases full : t.remaining < b.length
    · simp only [encoded, if_pos full] at ran
      rw [fails_of_step ran]
      simp [Reply.failure?, full, eq_comm]
    · simp only [encoded, if_neg full] at ran
      rw [fails_of_step ran]
      simp [Reply.done, Reply.failure?, full]

theorem fails_writeUInt_iff (inside : t.pos ≤ t.length) (fits : t.length ≤ maxLength) {width : Nat}
    {v : UInt64} {f : Failure} : Fails (.writeUInt width v) t f ↔
      t.remaining < width ∧ f = .outOfBounds t.pos width t.length := by
  have ran := step_eq inside fits (.writeUInt width v)
  rw [Tape.step_writeUInt_eq] at ran
  by_cases full : t.remaining < width
  · rw [if_pos full] at ran
    rw [fails_of_step ran]
    simp [Reply.failure?, full, eq_comm]
  · rw [if_neg full] at ran
    cases known : Width.ofBytes? width with
    | none =>
      simp only [known] at ran
      constructor
      · rintro ⟨_, _, _, again, -⟩
        rw [ran] at again
        cases again
      · exact fun h => absurd h.1 full
    | some w =>
      simp only [known] at ran
      rw [fails_of_step ran]
      simp [Reply.done, Reply.failure?, full]

theorem step_of_tape (inside : t.pos ≤ t.length) (fits : t.length ≤ maxLength) {c : Command}
    {r : Logged (Reply × Tape)} :
    step c t = .ok r ↔ Tape.step c t = .ok r := by
  rw [step_eq inside fits, mapError_eq_ok]

theorem step_text_of_illFormed {dst dst' payload : Bytes} {t' : Tape} {events : List Event}
    (taken : Tape.step (.load .stringBytes dst) t =
      .ok ⟨(.loaded (.ok (.bytes payload)) dst', t'), events⟩)
    (illFormed : Utf8.decode? payload = none) :
    Tape.step (.load .text dst) t = .ok ⟨(.loaded (.error .invalidUtf8) dst', t'), events⟩ := by
  rcases scanned :
    (Tape.Load.stringBytes.scan dst.length).runFrom t.bytes t.pos with ⟨f | ⟨found, pos⟩, noted⟩
  · rw [Tape.step_load_of_error scanned] at taken
    cases taken
  · rw [Tape.step_load_of_ok scanned] at taken
    cases taken
    have text := @Tape.step_load_of_ok .text dst _ _ _ _ scanned
    rw [Tape.Load.answer, illFormed] at text
    exact text

/-- A command that fails leaves the tape and its destination alone, but for a byte that is no tag
and a text that is not well-formed. -/
theorem failed_step_leaves_all (inside : t.pos ≤ t.length) (fits : t.length ≤ maxLength) :
    (∀ c, step c t = (Tape.step c t).mapError Trap.misuse) ∧
    (∀ (c : Command) (reply : Reply) (t' : Tape) (events : List Event) (f : Failure),
      step c t = .ok ⟨(reply, t'), events⟩ → reply.failure? = some f →
        t' = t ∧ reply = c.reply (.error f) c.destination ∨
        (∃ code, c = .readTag ∧ f = .corruptTag code ∧ t.bytes[t.pos]? = some code ∧
          Tag.ofCode? code = none ∧
          t' = { t with pos := t.pos + 1 }) ∨
        ∃ dst dst' payload, c = .load .text dst ∧ f = .invalidUtf8 ∧
          reply = .loaded (.error f) dst' ∧
          Utf8.decode? payload = none ∧
          step (.load .stringBytes dst) t =
            .ok ⟨(.loaded (.ok (.bytes payload)) dst', t'), events⟩) ∧
    (∀ code, t.bytes[t.pos]? = some code → Tag.ofCode? code = none →
      step .readTag t =
        .ok ⟨(.plain (.error (.corruptTag code)), { t with pos := t.pos + 1 }),
          [.corruptTag code t.pos]⟩) ∧
    (∀ (dst dst' payload : Bytes) (t' : Tape) (events : List Event),
      step (.load .stringBytes dst) t = .ok ⟨(.loaded (.ok (.bytes payload)) dst', t'), events⟩ →
      Utf8.decode? payload = none →
        step (.load .text dst) t = .ok ⟨(.loaded (.error .invalidUtf8) dst', t'), events⟩) ∧
    (∀ (e : Entry) (f : Failure), Fails (.put e) t f ↔
      e.overlong? = some f ∨ e.overlong? = none ∧ t.remaining < e.size ∧
      f = .outOfBounds t.pos e.size t.length) ∧
    ∀ (width : Nat) (v : UInt64) (f : Failure), Fails (.writeUInt width v) t f ↔
      t.remaining < width ∧ f = .outOfBounds t.pos width t.length := by
  refine ⟨step_eq inside fits, ?_, ?_, ?_,
    fun _ _ => fails_put_iff inside fits, fun _ _ _ => fails_writeUInt_iff inside fits⟩
  · intro c reply t' events f ran failed
    have effect := Tape.effect_of_step inside fits ((step_of_tape inside fits).mp ran)
    cases effect with
    | moved a dst pos events reads inside =>
      rw [Tape.failure?_reply_ok] at failed
      cases failed
    | stored b encoded room => cases failed
    | refused g =>
      rw [Tape.failure?_reply_error] at failed
      cases failed
      exact .inl ⟨rfl, rfl⟩
    | corrupt code asked here unknown =>
      cases failed
      exact .inr (.inl ⟨code, asked, rfl, here, unknown, rfl⟩)
    | illFormed dst payload pos events asked taken illFormed =>
      cases failed
      have taken := (step_of_tape inside fits).mpr taken
      exact .inr (.inr ⟨dst, _, payload, asked, rfl, rfl, illFormed, taken⟩)
  · intro code here unknown
    rw [step_of_tape inside fits, Tape.step_readTag_eq]
    simp only [here, unknown]
  · intro dst dst' payload t' events taken illFormed
    rw [step_of_tape inside fits] at taken ⊢
    exact step_text_of_illFormed taken illFormed

theorem failed_step_leaves_all_halfway :
    let t : Tape := ⟨[27, 1, 0, 0, 0, 9], 0⟩
    let ill : Tape := ⟨[21, 1, 255], 0⟩
    t.pos ≤ t.length ∧ t.length ≤ maxLength ∧ ill.pos ≤ ill.length ∧ ill.length ≤ maxLength ∧
      Fails (.read .complex64) t (.outOfBounds 5 4 6) ∧
      (∀ reply t' events, step (.read .complex64) t = .ok ⟨(reply, t'), events⟩ → t' = t) ∧
      Fails (.put (.taggedBlob .b8 [1, 2, 3, 4, 5])) t (.outOfBounds 0 7 6) ∧
      step (.load .text [0, 8]) ill =
        .ok ⟨(.loaded (.error .invalidUtf8) [255, 8], ⟨[21, 1, 255], 3⟩), []⟩ := by
  have missing : Tape.step (.read .complex64) ⟨[27, 1, 0, 0, 0, 9], 0⟩ =
      .ok ⟨(.plain (.error (.outOfBounds 5 4 6)), ⟨[27, 1, 0, 0, 0, 9], 0⟩), []⟩ := rfl
  have found : Tape.step (.load .stringBytes [0, 8]) ⟨[21, 1, 255], 0⟩ =
      .ok ⟨(.loaded (.ok (.bytes [255])) [255, 8], ⟨[21, 1, 255], 3⟩), []⟩ := rfl
  intro t ill
  have inside : t.pos ≤ t.length := by decide
  have fits : t.length ≤ maxLength := by decide
  have inside' : ill.pos ≤ ill.length := by decide
  have fits' : ill.length ≤ maxLength := by decide
  obtain ⟨-, failed, -, -, puts, -⟩ := failed_step_leaves_all inside fits
  obtain ⟨-, -, -, text, -, -⟩ := failed_step_leaves_all inside' fits'
  have halfway := (step_of_tape inside fits).mpr missing
  have taken := (step_of_tape inside' fits').mpr found
  refine ⟨inside, fits, inside', fits', ⟨_, _, _, halfway, rfl⟩, ?_, ?_,
    text [0, 8] _ [255] _ _ taken (by decide)⟩
  · intro reply t' events ran
    have failure : reply.failure? = some (.outOfBounds 5 4 6) := by
      rw [halfway] at ran
      cases ran
      rfl
    rcases failed _ _ _ _ _ ran failure with ⟨same, -⟩ | ⟨code, asked, -⟩ | ⟨dst, dst',
      payload, asked, -⟩
    · exact same
    · cases asked
    · cases asked
  · exact (puts _ _).mpr (.inr ⟨rfl, by decide, rfl⟩)

end Drive

end WireCodec
