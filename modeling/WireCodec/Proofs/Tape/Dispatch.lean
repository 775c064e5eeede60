import WireCodec.Proofs.Accesses
import WireCodec.Proofs.Tape.Classes
import WireCodec.Proofs.Tape.Reporting
import WireCodec.Proofs.Tape.Skipping

/-!
# Dispatch on tags

A reader of tagged values looks at the tag and throws at each that it does not take. Some readers
take one tag; the generic ones share the tags out among them, so a value that is all there is read
by one of them and refused by the others. A machine tells the tags of numbers, and their widths, by
the ranges of their codes.
-/

set_option autoImplicit false

namespace WireCodec

open Tape (Answer Command Load Reply Request)

/-! ## Kinds of values -/

inductive ValueKind where
  | number | blob | string | complex64 | complex128
  deriving DecidableEq

def Tag.kind : Tag → ValueKind
  | .integer _ | .float32 | .float64 => .number
  | .blob _ => .blob
  | .string _ => .string
  | .complex64 => .complex64
  | .complex128 => .complex128

namespace ValueKind

def wanted : ValueKind → Wanted
  | .number => .number
  | .blob => .blob
  | .string => .string
  | .complex64 => .tag .complex64
  | .complex128 => .tag .complex128

def reader (dst : Bytes) : ValueKind → Command
  | .number => .read .integer
  | .blob => .load .anyBlob dst
  | .string => .load .stringBytes dst
  | .complex64 => .read .complex64
  | .complex128 => .read .complex128

end ValueKind

namespace Tape

/-- The readers that take one tag and read the value behind it. -/
inductive Strict (dst : Bytes) : Command → Tag → Prop where
  | word (f : IntFormat) : Strict dst (.read (.taggedWord f)) (.integer f)
  | float32 : Strict dst (.read .taggedFloat32) .float32
  | float64 : Strict dst (.read .taggedFloat64) .float64
  | complex64 : Strict dst (.read .complex64) .complex64
  | complex128 : Strict dst (.read .complex128) .complex128
  | blob (c : LengthClass) : Strict dst (.load (.taggedBlob c) dst) (.blob c)

/-- The tags that a reader takes, and what it says it wanted where it finds another. -/
inductive Picks (dst : Bytes) : Command → (Tag → Prop) → Wanted → Prop where
  | strict {c : Command} {g : Tag} (strict : Strict dst c g) : Picks dst c (· = g) (.tag g)
  | expect (g : Tag) : Picks dst (.read (.expect g)) (· = g) (.tag g)
  | generic (k : ValueKind) : Picks dst (k.reader dst) (fun g => g.kind = k) k.wanted
  | float : Picks dst (.read .float) (fun g => g.kind = .number) .number

end Tape

/-! ## Codes -/

namespace Tag

/-- The tag of a code, by its place in the table. -/
def lookUp? (code : UInt8) : Option Tag :=
  if 1 ≤ code ∧ code ≤ 28 then all[code.toNat - 1]? else none

def inRange (first last g : Tag) : Bool := first.code ≤ g.code && g.code ≤ last.code

def ranksInteger : Tag → Bool :=
  inRange (.integer (.unsigned .b8)) (.integer (.twosComplement .b64))

def ranksSigned : Tag → Bool :=
  inRange (.integer (.twosComplement .b8)) (.integer (.twosComplement .b64))

def codeWidth? (g : Tag) : Option Nat :=
  if g.ranksInteger then some (if g.ranksSigned then g.code.toNat - 8 else g.code.toNat) else none

theorem lookUp?_eq : ∀ code : UInt8, lookUp? code = ofCode? code := forall_byte (by decide +kernel)

theorem exists_code_iff {code : UInt8} : (∃ g : Tag, g.code = code) ↔ 1 ≤ code ∧ code ≤ 28 := by
  have known : (∃ g : Tag, g.code = code) ↔ ofCode? code ≠ none := by
    rw [Option.ne_none_iff_exists']
    exact exists_congr fun g => eq_comm.trans ofCode?_eq_some.symm
  have zero : code = 0 ↔ code.toNat = 0 := UInt8.toNat_inj.symm
  rw [known, Ne, ofCode?_eq_none, zero, UInt8.le_iff_toNat_le, UInt8.le_iff_toNat_le]
  change ¬ (code.toNat = 0 ∨ 28 < code.toNat) ↔ 1 ≤ code.toNat ∧ code.toNat ≤ 28
  omega

theorem told_by_code (g : Tag) :
    g.ranksInteger = g.isInteger ∧ g.ranksSigned = g.isSigned ∧
    g.codeWidth? = g.intWidth?.map Width.bytes := by
  cases g with
  | integer f =>
    obtain ⟨signed, w⟩ := f
    cases signed <;> cases w <;> exact ⟨rfl, rfl, rfl⟩
  | blob c | string c => cases c <;> exact ⟨rfl, rfl, rfl⟩
  | float32 | float64 | complex64 | complex128 => exact ⟨rfl, rfl, rfl⟩

theorem told_by_kind (g : Tag) :
    (g.isNumber = true ↔ g.kind = .number) ∧ (g.isBlob = true ↔ g.kind = .blob) ∧
    (g.isString = true ↔ g.kind = .string) := by
  cases g <;> simp [isNumber, isBlob, isString, kind]

end Tag

/-- A stored integer in a word of 64 bits: shifts give it its sign, if its format has one. -/
def IntFormat.extend (f : IntFormat) (n : Nat) : Int64 :=
  if f.signed then signExtend (UInt64.ofNat n) f.width.bits else (UInt64.ofNat n).toInt64

theorem IntFormat.extend_eq (f : IntFormat) {n : Nat} (small : n < f.width.modulus) :
    f.extend n = Int64.ofInt (f.read n) := by
  obtain ⟨signed, w⟩ := f
  cases signed with
  | false => rfl
  | true =>
    have extended := toInt_signExtend_ofNat w small
    change signExtend (UInt64.ofNat n) w.bits = Int64.ofInt (w.toSigned n)
    rw [← extended, Int64.ofInt_toInt]

theorem IntFormat.toInt_extend {f : IntFormat} {n : Nat} (small : n < f.width.modulus)
    (narrow : f ≠ unsigned .b64) :
    (f.extend n).toInt = f.read n := by
  obtain ⟨signed, w⟩ := f
  cases signed with
  | true => exact toInt_signExtend_ofNat w small
  | false =>
    have below : n < 2 ^ 63 := by
      refine small.trans_le ?_
      cases w with
      | b64 => exact absurd rfl narrow
      | b8 | b16 | b24 | b32 | b40 | b48 | b56 => decide
    exact Int64.toInt_ofNat_of_lt below

namespace Drive

def integerPayload (g : Tag) : Op (Option Int64) :=
  match g.codeWidth? with
  | none => pure none
  | some width => do
    let n ← number width
    pure (some
      (if g.ranksSigned then signExtend (UInt64.ofNat n) (8 * width)
      else (UInt64.ofNat n).toInt64))

def integerByCode : Op Int64 := restoring do
  let g ← tag
  match ← integerPayload g with
  | some v => pure v
  | none =>
    match g with
    | .float32 => do
      let p ← pattern32
      pure (Ieee754.binary32.decode p.toNat).toInt64
    | .float64 => do
      let p ← pattern64
      pure (Ieee754.binary64.decode p.toNat).toInt64
    | found => throw (.unexpectedTag .number found)

def floatByCode : Op UInt64 := restoring do
  let g ← tag
  match g with
  | .float32 => do
    let p ← pattern32
    pure (UInt64.ofNat (Ieee754.convert Ieee754.binary32 Ieee754.binary64 p.toNat))
  | .float64 => pattern64
  -- The widest unsigned integers must not pass through a signed word.
  | .integer ⟨false, .b64⟩ => do
    let n ← number 8
    pure (UInt64.ofNat (Ieee754.binary64.round (.ofInt n)))
  | g =>
    match ← integerPayload g with
    | some v => pure (UInt64.ofNat (Ieee754.binary64.round (.ofInt v.toInt)))
    | none => throw (.unexpectedTag .number g)

def prefixedByTag (g : Tag) : Op Nat := restoring do
  expect g
  readPrefixed ((g.lengthWidth?.map Width.bytes).getD 4)

theorem number_congr {α : Type} {w : Width} {k k' : Nat → Op α}
    (same : ∀ n < w.modulus, k n = k' n) :
    (do let n ← number w.bytes; k n) = (do let n ← number w.bytes; k' n) := by
  rw [number, bind_assoc, bind_assoc]
  congr 1
  funext b
  rw [Accesses.getUInt_bytes]
  cases led : b.leading w.bytes with
  | error m => rfl
  | ok d =>
    have size := Bytes.leading_eq_ok led
    have short : d.length ≤ 8 := size.trans_le w.bytes_le
    have small := (Order.fixed .little).value_lt_modulus size
    rw [← (Order.fixed .little).toNat_value short] at small
    exact same _ small

theorem integerPayload_integer (f : IntFormat) :
    integerPayload (.integer f) = (do let n ← number f.width.bytes; pure (some (f.extend n))) := by
  obtain ⟨-, signed, width⟩ := Tag.told_by_code (.integer f)
  rw [integerPayload, width, signed]
  rfl

theorem integerPayload_eq_none {g : Tag} (plain : g.intWidth? = none) :
    integerPayload g = pure none := by
  obtain ⟨-, -, width⟩ := Tag.told_by_code g
  rw [integerPayload, width, plain]
  rfl

theorem integerByCode_eq : integerByCode = integer := by
  rw [integerByCode, integer]
  congr 2
  funext g
  cases g with
  | integer f =>
    rw [integerPayload_integer, bind_assoc]
    refine number_congr fun n small => ?_
    rw [pure_bind, f.extend_eq small]
  | blob | string | float32 | float64 | complex64 | complex128 =>
    rw [integerPayload_eq_none rfl, pure_bind]

theorem floatByCode_eq : floatByCode = float := by
  rw [floatByCode, float]
  congr 2
  funext g
  -- All other integers keep their value in a signed word of 64 bits.
  have narrow {f : IntFormat} (apart : f ≠ .unsigned .b64) :
      (do
        match ← integerPayload (.integer f) with
        | some v => pure (UInt64.ofNat (Ieee754.binary64.round (.ofInt v.toInt)))
        | none => throw (.unexpectedTag .number (.integer f)) : Op UInt64) =
      (do
        let n ← number f.width.bytes
        pure (UInt64.ofNat (Ieee754.binary64.round (.ofInt (f.read n))))) := by
    rw [integerPayload_integer, bind_assoc]
    refine number_congr fun n small => ?_
    rw [pure_bind]
    dsimp only
    rw [IntFormat.toInt_extend small apart]
  cases g with
  | integer f =>
    obtain ⟨signed, w⟩ := f
    cases signed with
    | true => cases w <;> exact narrow nofun
    | false =>
      cases w with
      | b64 => rfl
      | b8 | b16 | b24 | b32 | b40 | b48 | b56 => exact narrow nofun
  | float32 | float64 => rfl
  | blob | string | complex64 | complex128 =>
    dsimp only
    rw [integerPayload_eq_none rfl, pure_bind]

end Drive

/-! ## Scans that pick tags -/

namespace Scan

variable {α β : Type} {accepts : Tag → Prop} {w : Wanted}

/-- The scan reads a tag first of all, and throws at each that it does not accept. -/
def Picks (s : Scan α) (accepts : Tag → Prop) (w : Wanted) : Prop :=
  ∃ k : Tag → Scan α, s = tag >>= k ∧ ∀ g, ¬ accepts g → k g = throw (.unexpectedTag w g)

theorem Picks.bind {s : Scan α} (h : s.Picks accepts w) (f : α → Scan β) :
    (s >>= f).Picks accepts w := by
  obtain ⟨k, rfl, throws⟩ := h
  refine ⟨fun g => k g >>= f, bind_assoc _ _ _, fun g unwanted => ?_⟩
  dsimp only
  rw [throws g unwanted]
  rfl

theorem Picks.mono {s : Scan α} {accepts' : Tag → Prop} (h : s.Picks accepts w)
    (more : ∀ g, accepts g → accepts' g) :
    s.Picks accepts' w := by
  obtain ⟨k, first, throws⟩ := h
  exact ⟨k, first, fun g unwanted => throws g fun wanted => unwanted (more g wanted)⟩

theorem picks_expect (g : Tag) : (expect g).Picks (· = g) (.tag g) :=
  ⟨_, rfl, fun _ unwanted => if_neg unwanted⟩

theorem picks_integer : integer.Picks (fun g => g.kind = .number) .number := by
  refine ⟨_, rfl, fun g unwanted => ?_⟩
  cases g with
  | integer | float32 | float64 => exact absurd rfl unwanted
  | blob | string | complex64 | complex128 => rfl

theorem picks_float : float.Picks (fun g => g.kind = .number) .number := by
  refine ⟨_, rfl, fun g unwanted => ?_⟩
  cases g with
  | integer | float32 | float64 => exact absurd rfl unwanted
  | blob | string | complex64 | complex128 => rfl

theorem picks_anyBlob (capacity : Nat) :
    (anyBlob capacity).Picks (fun g => g.kind = .blob) .blob := by
  refine ⟨_, rfl, fun g unwanted => ?_⟩
  cases g with
  | blob => exact absurd rfl unwanted
  | integer | float32 | float64 | string | complex64 | complex128 => rfl

theorem picks_anyString (capacity : Nat) :
    (anyString capacity).Picks (fun g => g.kind = .string) .string := by
  refine ⟨_, rfl, fun g unwanted => ?_⟩
  cases g with
  | string => exact absurd rfl unwanted
  | integer | float32 | float64 | blob | complex64 | complex128 => rfl

variable {s : Scan α} {array : Bytes} {pos q : Nat}

theorem Picks.runFrom_none (h : s.Picks accepts w) (ended : array[pos]? = none) :
    s.runFrom array pos = ⟨.error (.outOfBounds pos 1 array.length), []⟩ := by
  obtain ⟨k, rfl, -⟩ := h
  rw [runFrom_bind_eq, runFrom_tag, ended]
  rfl

theorem Picks.runFrom_corrupt (h : s.Picks accepts w) {code : UInt8}
    (here : array[pos]? = some code) (unknown : Tag.ofCode? code = none) :
    s.runFrom array pos = ⟨.error (.corruptTag code), [.corruptTag code pos]⟩ := by
  obtain ⟨k, rfl, -⟩ := h
  rw [runFrom_bind_eq, runFrom_tag, here]
  dsimp only
  rw [unknown]

theorem Picks.runFrom_other (h : s.Picks accepts w) {g : Tag} (here : array[pos]? = some g.code)
    (unwanted : ¬ accepts g) :
    s.runFrom array pos = ⟨.error (.unexpectedTag w g), []⟩ := by
  obtain ⟨k, rfl, throws⟩ := h
  have tagged := runFrom_tag_eq_ok.mpr ⟨here, rfl⟩
  rw [runFrom_bind tagged, throws g unwanted]
  rfl

/-- Where a scan ends or of what it fails, and what it reports: all but the value. -/
def course (s : Scan α) (array : Bytes) (pos : Nat) : Logged (Except Failure Nat) :=
  ⟨(s.runFrom array pos).value.map Prod.snd, (s.runFrom array pos).events⟩

theorem course_bind_congr {γ : Type} {f : α → Scan β} {h : α → Scan γ}
    (same : ∀ v, (f v).course = (h v).course) :
    (s >>= f).course = (s >>= h).course := by
  funext array pos
  rw [course, course, runFrom_bind_eq, runFrom_bind_eq]
  rcases s.runFrom array pos with ⟨e | ⟨v, mid⟩, events⟩
  · rfl
  · have rest := congrFun (congrFun (same v) array) mid
    have value := congrArg Logged.value rest
    have noted := congrArg Logged.events rest
    exact Logged.ext value (congrArg (events ++ ·) noted)

theorem course_map (p : α → β) : (do let v ← s; pure (p v) : Scan β).course = s.course := by
  funext array pos
  rw [course, course, runFrom_map]
  rcases s.runFrom array pos with ⟨e | ⟨v, mid⟩, events⟩ <;> rfl

theorem course_integer : integer.course = float.course := by
  refine course_bind_congr fun g => ?_
  cases g with
  | integer f => exact (course_map _).trans (course_map _).symm
  | float32 => exact (course_map _).trans (course_map _).symm
  | float64 => exact course_map _
  | blob | string | complex64 | complex128 => rfl

theorem reaches_iff_course : s.Reaches array pos q ↔ s.course array pos = pure (.ok q) := by
  rw [course]
  constructor
  · rintro ⟨v, ran⟩
    rw [ran]
    rfl
  · intro ran
    rcases outcome : s.runFrom array pos with ⟨e | ⟨v, stop⟩, events⟩
    · rw [outcome] at ran
      cases ran
    · rw [outcome] at ran
      cases ran
      exact ⟨v, outcome⟩

end Scan

/-! ## Commands that pick tags -/

namespace Tape

variable {t : Tape} {dst : Bytes} {c : Command} {g : Tag} {q : Nat}

theorem Strict.eq_reader (strict : Strict dst c g) : c = g.reader dst := by cases strict <;> rfl

theorem lands_expect (here : t.bytes[t.pos]? = some g.code) :
    Lands (.read (.expect g)) t (t.pos + 1) :=
  lands_read.mpr (Scan.reaches_expect_bind.mpr ⟨here, (Scan.reaches_pure Answer.done).mpr rfl⟩)

theorem lands_kind (here : t.bytes[t.pos]? = some g.code) (holds : Holds dst t g) :
    Lands (g.kind.reader dst) t q ↔ g.layout.Ends t.bytes (t.pos + 1) q := by
  cases g with
  | integer f => exact lands_number here rfl (.inl rfl)
  | float32 | float64 => exact lands_number here rfl (.inl rfl)
  | string c => exact lands_reader here holds
  | complex64 | complex128 => exact lands_reader here holds
  | blob c =>
    refine (lands_load fun payload => ⟨_, rfl⟩).trans ?_
    exact (Scan.reaches_tag_bind here).trans (Scan.reaches_counted (holds c rfl))

end Tape

namespace Drive

variable {t : Tape} {dst : Bytes} {c : Command} {accepts : Tag → Prop} {w : Wanted}
variable {f : Failure} {events : List Event} {q : Nat}

/-- Whether a command succeeds, reports nothing, and does no more to the tape than move its head to
`q`. -/
def Lands (c : Command) (t : Tape) (q : Nat) : Prop :=
  ∃ reply : Reply, reply.failure? = none ∧ step c t = .ok (pure (reply, { t with pos := q }))

/-- Whether a command fails of `f`, reports the events, and leaves the tape and its destination
alone. -/
def Refuses (c : Command) (t : Tape) (f : Failure) (events : List Event) : Prop :=
  step c t = .ok ⟨(c.reply (.error f) c.destination, t), events⟩

theorem lands_iff (inside : t.pos ≤ t.length) (fits : t.length ≤ maxLength) :
    Lands c t q ↔ Tape.Lands c t q := by
  unfold Lands Tape.Lands
  simp only [step_of_tape inside fits]

theorem Refuses.not_lands (refused : Refuses c t f events) : ¬ Lands c t q := by
  rintro ⟨reply, success, stepped⟩
  rw [refused] at stepped
  obtain ⟨rfl, -⟩ := Prod.mk.inj (congrArg Logged.value (Except.ok.inj stepped))
  rw [Tape.failure?_reply_error] at success
  cases success

theorem lands_unique {q' : Nat} (lands : Lands c t q) (lands' : Lands c t q') : q' = q := by
  obtain ⟨reply, -, stepped⟩ := lands
  obtain ⟨reply', -, stepped'⟩ := lands'
  rw [stepped] at stepped'
  cases stepped'
  rfl

theorem refuses_read_iff (inside : t.pos ≤ t.length) (fits : t.length ≤ maxLength) {r : Request} :
    Refuses (.read r) t f events ↔ r.scan.course t.bytes t.pos = ⟨.error f, events⟩ := by
  rw [Refuses, step_of_tape inside fits, Scan.course]
  rcases outcome : r.scan.runFrom t.bytes t.pos with ⟨e | ⟨a, stop⟩, noted⟩
  · rw [Tape.step_read_of_error outcome]
    constructor
    · intro same
      cases same
      rfl
    · intro same
      cases same
      rfl
  · rw [Tape.step_read_of_ok outcome]
    constructor
    · intro same
      cases same
    · intro same
      cases same

theorem lands_read_iff (inside : t.pos ≤ t.length) (fits : t.length ≤ maxLength) {r : Request} :
    Lands (.read r) t q ↔ r.scan.course t.bytes t.pos = pure (.ok q) := by
  rw [lands_iff inside fits, Tape.lands_read, Scan.reaches_iff_course]

theorem refuses_of_picks (inside : t.pos ≤ t.length) (fits : t.length ≤ maxLength)
    (picks : Tape.Picks dst c accepts w)
    (fails : ∀ {α : Type} {s : Scan α},
      s.Picks accepts w → s.runFrom t.bytes t.pos = ⟨.error f, events⟩) :
    Refuses c t f events := by
  have read {r : Request} (h : r.scan.Picks accepts w) : Refuses (.read r) t f events :=
    (step_of_tape inside fits).mpr (Tape.step_read_of_error (fails h))
  have load {l : Load} (h : (l.scan dst.length).Picks accepts w) :
      Refuses (.load l dst) t f events :=
    (step_of_tape inside fits).mpr (Tape.step_load_of_error (fails h))
  cases picks with
  | @strict c g strict =>
    cases strict with
    | word | float32 | float64 | complex64 | complex128 =>
      exact read (((Scan.picks_expect _).bind _).bind _)
    | blob c => exact load ((Scan.picks_expect _).bind _)
  | expect g => exact read ((Scan.picks_expect g).bind _)
  | generic k =>
    cases k with
    | number => exact read (Scan.picks_integer.bind _)
    | blob => exact load (Scan.picks_anyBlob _)
    | string => exact load (Scan.picks_anyString _)
    | complex64 =>
      exact read ((((Scan.picks_expect .complex64).bind _).bind _).mono fun _ => congrArg Tag.kind)
    | complex128 =>
      exact read ((((Scan.picks_expect .complex128).bind _).bind _).mono fun _ => congrArg Tag.kind)
  | float => exact read (Scan.picks_float.bind _)

theorem refuses_others (inside : t.pos ≤ t.length) (fits : t.length ≤ maxLength)
    (picks : Tape.Picks dst c accepts w) :
    (t.bytes[t.pos]? = none → Refuses c t (.outOfBounds t.pos 1 t.length) []) ∧
    (∀ code, t.bytes[t.pos]? = some code → ¬ (1 ≤ code ∧ code ≤ 28) →
      Refuses c t (.corruptTag code) [.corruptTag code t.pos]) ∧
    ∀ g : Tag, t.bytes[t.pos]? = some g.code → ¬ accepts g →
      Refuses c t (.unexpectedTag w g) [] := by
  refine ⟨fun ended => ?_, fun code here outside => ?_, fun g here unwanted => ?_⟩
  · exact refuses_of_picks inside fits picks fun scan => scan.runFrom_none ended
  · have unknown : Tag.ofCode? code = none := Option.eq_none_iff_forall_ne_some.mpr fun g known =>
      outside (Tag.exists_code_iff.mp ⟨g, (Tag.ofCode?_eq_some.mp known).symm⟩)
    exact refuses_of_picks inside fits picks fun scan => scan.runFrom_corrupt here unknown
  · exact refuses_of_picks inside fits picks fun scan => scan.runFrom_other here unwanted

/-- A value is read by the readers of its tag and by the generic reader of its kind; every other
reader refuses it and leaves everything alone. -/
theorem tags_picked_exactly (inside : t.pos ≤ t.length) (fits : t.length ≤ maxLength) :
    (integerByCode = integer ∧ floatByCode = float ∧
      readClass PayloadKind.blob.tags .blob = anyBlob ∧
      readClass PayloadKind.string.tags .string = fillString ∧ ∀ c,
        prefixedByTag (.blob c) = taggedBlob c) ∧
    (∀ code, Tag.lookUp? code = Tag.ofCode? code ∧
      ((∃ g : Tag, g.code = code) ↔ 1 ≤ code ∧ code ≤ 28)) ∧
    (∀ g : Tag,
      (g.ranksInteger = g.isInteger ∧ g.ranksSigned = g.isSigned ∧
        g.codeWidth? = g.intWidth?.map Width.bytes) ∧
      (g.isNumber = true ↔ g.kind = .number) ∧ (g.isBlob = true ↔ g.kind = .blob) ∧
      (g.isString = true ↔ g.kind = .string)) ∧
    (∀ dst c accepts w, Tape.Picks dst c accepts w →
      (t.bytes[t.pos]? = none → Refuses c t (.outOfBounds t.pos 1 t.length) []) ∧
      (∀ code, t.bytes[t.pos]? = some code → ¬ (1 ≤ code ∧ code ≤ 28) →
        Refuses c t (.corruptTag code) [.corruptTag code t.pos]) ∧
      ∀ g : Tag, t.bytes[t.pos]? = some g.code → ¬ accepts g →
        Refuses c t (.unexpectedTag w g) []) ∧
    (∀ (g : Tag) (q : Nat) (dst : Bytes),
      t.bytes[t.pos]? = some g.code → g.layout.Ends t.bytes (t.pos + 1) q →
      Tape.Holds dst t g →
        (∀ c, Tape.Strict dst c g → Lands c t q) ∧ Lands (.read (.expect g)) t (t.pos + 1) ∧
        (∀ (k : ValueKind) (stop : Nat), Lands (k.reader dst) t stop ↔ k = g.kind ∧ stop = q) ∧
        ∀ k : ValueKind, k ≠ g.kind → Refuses (k.reader dst) t (.unexpectedTag k.wanted g) []) ∧
    (∀ q, Lands (.read .float) t q ↔ Lands (.read .integer) t q) ∧
    ∀ f events, Refuses (.read .float) t f events ↔ Refuses (.read .integer) t f events := by
  have course : Request.float.scan.course = Request.integer.scan.course :=
    (Scan.course_map _).trans (Scan.course_integer.symm.trans (Scan.course_map _).symm)
  refine ⟨⟨integerByCode_eq, floatByCode_eq, readClass_blob, readClass_string, fun c => rfl⟩, ?_,
    ?_, ?_, ?_, ?_, ?_⟩
  · exact fun code => ⟨Tag.lookUp?_eq code, Tag.exists_code_iff⟩
  · exact fun g => ⟨g.told_by_code, g.told_by_kind⟩
  · intro dst c accepts w picks
    exact refuses_others inside fits picks
  · intro g q dst here ends holds
    have lands {c : Command} {stop : Nat} : Lands c t stop ↔ Tape.Lands c t stop :=
      lands_iff inside fits
    have own : Lands (g.kind.reader dst) t q := lands.mpr ((Tape.lands_kind here holds).mpr ends)
    have refused (k : ValueKind) (other : k ≠ g.kind) :
        Refuses (k.reader dst) t (.unexpectedTag k.wanted g) [] :=
      (refuses_others inside fits (.generic k)).2.2 g here other.symm
    refine ⟨fun c strict => ?_, lands.mpr (Tape.lands_expect here),
      fun k stop => ⟨fun landed => ?_, ?_⟩, refused⟩
    · rw [strict.eq_reader]
      exact lands.mpr ((Tape.lands_reader here holds).mpr ends)
    · by_cases same : k = g.kind
      · subst same
        exact ⟨rfl, lands_unique own landed⟩
      · exact absurd landed (refused k same).not_lands
    · rintro ⟨rfl, rfl⟩
      exact own
  · intro q
    rw [lands_read_iff inside fits, lands_read_iff inside fits, course]
  · intro f events
    rw [refuses_read_iff inside fits, refuses_read_iff inside fits, course]

theorem tags_picked_exactly_blob :
    let t : Tape := ⟨[17, 2, 7, 8, 99], 0⟩
    let dst : Bytes := [0, 0, 9]
    t.pos ≤ t.length ∧ t.length ≤ maxLength ∧ Tape.Holds dst t (.blob .b8) ∧
      (Tag.blob .b8).layout.Ends t.bytes (t.pos + 1) 4 ∧
      Lands (.load (.taggedBlob .b8) dst) t 4 ∧ Lands (.load .anyBlob dst) t 4 ∧
      Lands (.read (.expect (.blob .b8))) t 1 ∧
      Refuses (.read .integer) t (.unexpectedTag .number (.blob .b8)) [] ∧
      Refuses (.load .stringBytes dst) t (.unexpectedTag .string (.blob .b8)) [] ∧
      Refuses (.load (.taggedBlob .b16) dst) t (.unexpectedTag (.tag (.blob .b16)) (.blob .b8)) [] ∧
      Refuses (.read .complex128) { t with pos := 4 } (.corruptTag 99) [.corruptTag 99 4] ∧
      Refuses (.read (.taggedWord (.unsigned .b24))) { t with pos := 5 }
        (.outOfBounds 5 1 5) [] := by
  intro t dst
  have inside : t.pos ≤ t.length := by decide
  have fits : t.length ≤ maxLength := by decide
  have holds : Tape.Holds dst t (.blob .b8) := by
    intro c layout _
    cases layout
    decide
  have ends : (Tag.blob .b8).layout.Ends t.bytes (t.pos + 1) 4 := by
    refine ⟨?_, ?_, ?_⟩ <;> decide
  obtain ⟨-, -, -, picks, whole, -, -⟩ := tags_picked_exactly inside fits
  obtain ⟨strict, expected, generic, refused⟩ := whole (.blob .b8) 4 dst rfl ends holds
  obtain ⟨-, -, other⟩ := picks dst _ _ _ (.strict (.blob .b16))
  obtain ⟨-, -, -, behind, -⟩ := tags_picked_exactly (t := { t with pos := 4 }) (by decide) fits
  obtain ⟨-, corrupt, -⟩ := behind dst _ _ _ (.strict .complex128)
  obtain ⟨-, -, -, ended, -⟩ := tags_picked_exactly (t := { t with pos := 5 }) (by decide) fits
  obtain ⟨short, -, -⟩ := ended dst _ _ _ (.strict (.word (.unsigned .b24)))
  exact ⟨inside, fits, holds, ends, strict _ (.blob .b8),
    (generic .blob 4).mpr ⟨rfl, rfl⟩, expected, refused .number nofun, refused .string nofun,
    other (.blob .b8) rfl nofun, corrupt 99 rfl (by decide), short rfl⟩

end Drive

end WireCodec
