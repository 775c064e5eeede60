import WireCodec.Proofs.Tape.Atomicity

/-!
# What a tape reports

A tag is read before anything else, and nothing but a byte that stands for no tag is ever reported.
So a command writes to the log if and only if that byte is its failure, and the byte stood at the
head when the command began, wherever the head is put then.
-/

set_option autoImplicit false

namespace WireCodec

theorem forall_byte {P : UInt8 → Prop} (cases : ∀ n : Fin 256, P (UInt8.ofNat n))
    (b : UInt8) : P b := by
  have here := cases ⟨b.toNat, b.toNat_lt⟩
  rwa [UInt8.ofNat_toNat] at here

theorem Tag.ofCode?_eq_none {code : UInt8} : ofCode? code = none ↔ code = 0 ∨ 28 < code.toNat := by
  have all : ∀ code : UInt8, ofCode? code = none ↔ code = 0 ∨ 28 < code.toNat :=
    forall_byte (by decide +kernel)
  exact all code

/-- What is reported of a failure, if the byte at the position is read for a tag first of all. -/
inductive Tells (array : Bytes) (pos : Nat) : Option Failure → List Event → Prop
  | corrupt (code : UInt8) (here : array[pos]? = some code) (unknown : Tag.ofCode? code = none) :
      Tells array pos (some (.corruptTag code)) [.corruptTag code pos]
  | silent {f : Option Failure} (intact : ∀ code, f ≠ some (.corruptTag code)) :
    Tells array pos f []

def Failure.of? {α : Type} : Except Failure α → Option Failure
  | .ok _ => none
  | .error f => some f

namespace Scan

variable {α β : Type}

/-- Whether a scan reads no tag: it reports nothing, and does not fail of one. -/
def Mute (s : Scan α) : Prop :=
  ∀ (array : Bytes) (pos : Nat), (s.runFrom array pos).events = [] ∧
    ∀ code, Failure.of? (s.runFrom array pos).value ≠ some (.corruptTag code)

/-- Whether a scan reports the byte that it fails of, where it stands for no tag. -/
def Truthful (s : Scan α) : Prop :=
  ∀ (array : Bytes) (pos : Nat),
    Tells array pos (Failure.of? (s.runFrom array pos).value) (s.runFrom array pos).events

theorem mute_of_pure {s : Scan α} {outcome : Bytes → Nat → Except Failure (α × Nat)}
    (ran : ∀ array pos, s.runFrom array pos = pure (outcome array pos))
    (intact : ∀ array pos code, Failure.of? (outcome array pos) ≠ some (.corruptTag code)) :
    s.Mute := by
  intro array pos
  rw [ran]
  exact ⟨rfl, intact array pos⟩

theorem mute_pure (v : α) : (pure v : Scan α).Mute :=
  mute_of_pure (fun _ _ => rfl) fun _ _ _ => nofun

theorem mute_get : (get : Scan Nat).Mute := mute_of_pure (fun _ _ => rfl) fun _ _ _ => nofun

theorem mute_set (pos : Nat) : (set pos : Scan PUnit).Mute :=
  mute_of_pure (fun _ _ => rfl) fun _ _ _ => nofun

theorem mute_throw {f : Failure} (intact : ∀ code, f ≠ .corruptTag code) :
    (throw f : Scan α).Mute :=
  fun _ _ => ⟨rfl, fun code same => intact code (Option.some.inj same)⟩

theorem Mute.bind {s : Scan α} {f : α → Scan β} (first : s.Mute) (second : ∀ v, (f v).Mute) :
    (s >>= f).Mute := by
  intro array pos
  obtain ⟨silent, intact⟩ := first array pos
  rw [runFrom_bind_eq]
  rcases outcome : s.runFrom array pos with ⟨e | ⟨v, mid⟩, events⟩
  · rw [outcome] at silent intact
    exact ⟨silent, intact⟩
  · rw [outcome] at silent
    obtain rfl := silent
    exact second v array mid

theorem Mute.map {s : Scan α} (h : s.Mute) (g : α → β) : (do let v ← s; pure (g v)).Mute :=
  h.bind fun v => mute_pure (g v)

theorem Mute.truthful {s : Scan α} (h : s.Mute) : s.Truthful := by
  intro array pos
  obtain ⟨silent, intact⟩ := h array pos
  rw [silent]
  exact .silent intact

theorem Truthful.bind {s : Scan α} {f : α → Scan β} (first : s.Truthful)
    (second : ∀ v, (f v).Mute) :
    (s >>= f).Truthful := by
  intro array pos
  have told := first array pos
  rw [runFrom_bind_eq]
  rcases outcome : s.runFrom array pos with ⟨e | ⟨v, mid⟩, events⟩
  · rw [outcome] at told
    exact told
  · rw [outcome] at told
    generalize ended : Failure.of? (Except.ok (v, mid) : Except Failure (α × Nat)) = f? at told
    cases told with
    | corrupt => cases ended
    | silent =>
      obtain ⟨silent, intact⟩ := second v array mid
      dsimp only
      rw [silent]
      exact .silent intact

theorem Truthful.map {s : Scan α} (h : s.Truthful) (g : α → β) :
    (do let v ← s; pure (g v)).Truthful :=
  h.bind fun v => mute_pure (g v)

/-! ## Scans without a tag -/

theorem mute_advance (n : Nat) : (advance n).Mute := by
  refine mute_of_pure (runFrom_advance n) fun array pos code => ?_
  split <;> exact nofun

theorem mute_bytes (n : Nat) : (bytes n).Mute := by
  refine mute_of_pure (runFrom_bytes n) fun array pos code => ?_
  split <;> exact nofun

theorem mute_number (w : Width) : (number w).Mute := (mute_bytes w.bytes).map littleValue

theorem mute_word (f : IntFormat) : (word f).Mute := (mute_number f.width).map f.word

theorem mute_pattern32 : pattern32.Mute := (mute_number .b32).map UInt32.ofNat

theorem mute_pattern64 : pattern64.Mute := (mute_number .b64).map UInt64.ofNat

theorem mute_counted (c : LengthClass) (capacity : Nat) : (counted c capacity).Mute := by
  refine (mute_number c.width).bind fun n => ?_
  split
  · exact mute_throw nofun
  · exact mute_bytes n

theorem mute_drain (g : Tag) : (drain g).Mute := by
  refine mute_get.bind fun start => ?_
  have behind : (do let pos ← get; pure (pos - start) : Scan Nat).Mute :=
    mute_get.map fun pos => pos - start
  cases g.layout with
  | fixed n => exact (mute_advance n).bind fun _ => behind
  | counted c => exact (mute_number c.width).bind fun n => (mute_advance n).bind fun _ => behind

/-! ## Scans of a tag and what it announces -/

theorem truthful_tag : tag.Truthful := by
  intro array pos
  rw [runFrom_tag]
  cases here : array[pos]? with
  | none => exact .silent nofun
  | some code =>
    cases unknown : Tag.ofCode? code with
    | some g =>
      simp only [unknown]
      exact .silent nofun
    | none =>
      simp only [unknown]
      exact .corrupt code here unknown

theorem truthful_peek : peek.Truthful := by
  intro array pos
  rw [peek, runFrom_bind (runFrom_get array pos)]
  exact (truthful_tag.bind fun g => (mute_set pos).bind fun _ => mute_pure g) array pos

theorem truthful_expect (g : Tag) : (expect g).Truthful := by
  refine truthful_tag.bind fun found => ?_
  split
  · exact mute_pure ()
  · exact mute_throw nofun

theorem truthful_strict (g : Tag) {s : Scan α} (h : s.Mute) : (do expect g; s).Truthful :=
  (truthful_expect g).bind fun _ => h

theorem mute_pair {s : Scan α} (h : s.Mute) : (do let re ← s; let im ← s; pure (re, im)).Mute :=
  h.bind fun re => h.map fun im => (re, im)

theorem truthful_skip : skip.Truthful := truthful_tag.bind fun g => (mute_drain g).map fun _ => g

theorem truthful_integer : integer.Truthful := by
  refine truthful_tag.bind fun g => ?_
  cases g with
  | integer f => exact (mute_number f.width).map _
  | float32 => exact mute_pattern32.map _
  | float64 => exact mute_pattern64.map _
  | blob c | string c | complex64 | complex128 => exact mute_throw nofun

theorem truthful_float : float.Truthful := by
  refine truthful_tag.bind fun g => ?_
  cases g with
  | integer f => exact (mute_number f.width).map _
  | float32 => exact mute_pattern32.map _
  | float64 => exact mute_pattern64
  | blob c | string c | complex64 | complex128 => exact mute_throw nofun

theorem truthful_anyBlob (capacity : Nat) : (anyBlob capacity).Truthful := by
  refine truthful_tag.bind fun g => ?_
  cases g with
  | blob c => exact mute_counted c capacity
  | integer f | string c | float32 | float64 | complex64 | complex128 => exact mute_throw nofun

theorem truthful_anyString (capacity : Nat) : (anyString capacity).Truthful := by
  refine truthful_tag.bind fun g => ?_
  cases g with
  | string c => exact mute_counted c capacity
  | integer f | blob c | float32 | float64 | complex64 | complex128 => exact mute_throw nofun

end Scan

namespace Tape

theorem Request.truthful_scan (r : Request) : r.scan.Truthful := by
  cases r with
  | word w => exact ((Scan.mute_word (.unsigned w)).map _).truthful
  | float32 => exact (Scan.mute_pattern32.map _).truthful
  | float64 => exact (Scan.mute_pattern64.map _).truthful
  | bytes n => exact ((Scan.mute_bytes n).map _).truthful
  | taggedWord f => exact (Scan.truthful_strict (.integer f) (Scan.mute_word f)).map _
  | taggedFloat32 => exact (Scan.truthful_strict .float32 Scan.mute_pattern32).map _
  | taggedFloat64 => exact (Scan.truthful_strict .float64 Scan.mute_pattern64).map _
  | complex64 => exact (Scan.truthful_strict .complex64 (Scan.mute_pair Scan.mute_pattern32)).map _
  | complex128 =>
    exact (Scan.truthful_strict .complex128 (Scan.mute_pair Scan.mute_pattern64)).map _
  | integer => exact Scan.truthful_integer.map _
  | float => exact Scan.truthful_float.map _
  | peek => exact Scan.truthful_peek.map _
  | expect g => exact (Scan.truthful_expect g).map _
  | drain g => exact ((Scan.mute_drain g).map _).truthful
  | skip => exact Scan.truthful_skip.map _
  | advance n => exact ((Scan.mute_advance n).map _).truthful

theorem Load.truthful_scan (l : Load) (capacity : Nat) : (l.scan capacity).Truthful := by
  cases l with
  | slice => exact (Scan.mute_bytes capacity).truthful
  | blob c => exact (Scan.mute_counted c capacity).truthful
  | taggedBlob c => exact Scan.truthful_strict (.blob c) (Scan.mute_counted c capacity)
  | anyBlob => exact Scan.truthful_anyBlob capacity
  | stringBytes | text => exact Scan.truthful_anyString capacity

theorem Load.answer_intact (l : Load) (payload : Bytes) (code : UInt8) :
    Failure.of? (l.answer payload) ≠ some (.corruptTag code) := by
  cases l with
  | text =>
    rw [answer]
    cases Utf8.decode? payload <;> simp [Failure.of?]
  | slice | blob c | taggedBlob c | anyBlob | stringBytes => simp [answer, Failure.of?]

variable {t t' : Tape} {reply : Reply} {events : List Event}

theorem tells_read {r : Request} (stepped : step (.read r) t = .ok ⟨(reply, t'), events⟩) :
    Tells t.bytes t.pos reply.failure? events := by
  have told := r.truthful_scan t.bytes t.pos
  rcases outcome : r.scan.runFrom t.bytes t.pos with ⟨f | ⟨a, q⟩, noted⟩
  · rw [step_read_of_error outcome] at stepped
    cases stepped
    rwa [outcome] at told
  · rw [step_read_of_ok outcome] at stepped
    cases stepped
    rwa [outcome] at told

theorem tells_load {l : Load} {dst : Bytes}
    (stepped : step (.load l dst) t = .ok ⟨(reply, t'), events⟩) :
    Tells t.bytes t.pos reply.failure? events := by
  have told := l.truthful_scan dst.length t.bytes t.pos
  rcases outcome : (l.scan dst.length).runFrom t.bytes t.pos with ⟨f | ⟨payload, q⟩, noted⟩
  · rw [step_load_of_error outcome] at stepped
    cases stepped
    rwa [outcome] at told
  · rw [step_load_of_ok outcome] at stepped
    cases stepped
    rw [outcome] at told
    -- The scan came through, so it told nothing; what the answer may still fail of is the text.
    cases told
    refine .silent fun code => ?_
    have intact := l.answer_intact payload code
    cases answer : l.answer payload <;> rwa [answer] at intact

theorem tells_readTag (stepped : step .readTag t = .ok ⟨(reply, t'), events⟩) :
    Tells t.bytes t.pos reply.failure? events := by
  rw [step_readTag_eq] at stepped
  cases here : t.bytes[t.pos]? with
  | none =>
    simp only [here] at stepped
    cases stepped
    exact .silent nofun
  | some code =>
    cases known : Tag.ofCode? code with
    | some g =>
      simp only [here, known] at stepped
      cases stepped
      exact .silent nofun
    | none =>
      simp only [here, known] at stepped
      cases stepped
      exact .corrupt code here known

theorem tells_readUInt {width : Nat}
    (stepped : step (.readUInt width) t = .ok ⟨(reply, t'), events⟩) :
    Tells t.bytes t.pos reply.failure? events := by
  rw [step_readUInt_eq] at stepped
  split at stepped
  · cases stepped
    exact .silent nofun
  · split at stepped <;> cases stepped
    exact .silent nofun

theorem tells_writeUInt {width : Nat} {v : UInt64}
    (stepped : step (.writeUInt width v) t = .ok ⟨(reply, t'), events⟩) :
    Tells t.bytes t.pos reply.failure? events := by
  rw [step_writeUInt_eq] at stepped
  split at stepped
  · cases stepped
    exact .silent nofun
  · split at stepped <;> cases stepped
    exact .silent nofun

theorem tells_put {e : Entry} (stepped : step (.put e) t = .ok ⟨(reply, t'), events⟩) :
    Tells t.bytes t.pos reply.failure? events := by
  rw [step_put] at stepped
  cases encoded : e.encode with
  | error f =>
    simp only [encoded] at stepped
    cases stepped
    refine .silent fun code same => ?_
    obtain rfl := Option.some.inj same
    have overlong := Entry.encode_eq_error.mp encoded
    cases payload : e.payload? with
    | none =>
      rw [Entry.overlong?_of_plain payload] at overlong
      cases overlong
    | some p => cases ((Entry.overlong?_of_payload payload).mp overlong).2
  | ok b =>
    simp only [encoded] at stepped
    split at stepped <;> cases stepped <;> exact .silent nofun

theorem tells_seek {pos : Nat} (stepped : step (.seek pos) t = .ok ⟨(reply, t'), events⟩) :
    Tells t.bytes t.pos reply.failure? events := by
  rw [step_seek] at stepped
  split at stepped <;> cases stepped <;> exact .silent nofun

theorem tells_of_step {c : Command} (stepped : step c t = .ok ⟨(reply, t'), events⟩) :
    Tells t.bytes t.pos reply.failure? events := by
  cases c with
  | read r => exact tells_read stepped
  | readTag => exact tells_readTag stepped
  | readUInt width => exact tells_readUInt stepped
  | load l dst => exact tells_load stepped
  | put e => exact tells_put stepped
  | writeUInt width v => exact tells_writeUInt stepped
  | seek pos => exact tells_seek stepped
  | rewind =>
    cases stepped
    exact .silent nofun

end Tape

end WireCodec
