import WireCodec.Proofs.Tape.Driving
import WireCodec.Proofs.Tape.Encoding

/-!
# What a drive writes

A drive writes an entry piece by piece, each one behind the last. Where it has made sure that there
is room for all of the pieces, what it leaves is what one write of the whole encoding would leave;
otherwise it leaves everything as it was. So a drive carries out every command as its tape does, and
is stopped only by what is a misuse of the tape.
-/

set_option autoImplicit false

namespace WireCodec

namespace Drive

open Tape (Command Reply)

def laid (d : Drive) (b : Bytes) : Drive :=
  ⟨⟨d.tape.bytes.overlay d.tape.pos b, d.tape.pos + b.length⟩, d.destination⟩

/-- The operation writes the bytes, if there is room for them. -/
def Lays (b : Bytes) (a : Op Unit) : Prop :=
  ∀ d, d.Sound → b.length ≤ d.tape.remaining → runOn a d = pure (.ok (.ok (), d.laid b))

/-- It also finds out by itself whether there is room. -/
def Stores (b : Bytes) (a : Op Unit) : Prop :=
  ∀ d, d.Sound → runOn a d = pure (.ok (
    if d.tape.remaining < b.length then (.error (.outOfBounds d.tape.pos b.length d.tape.length), d)
    else (.ok (), d.laid b)))

variable {b c : Bytes} {first second : Op Unit}

theorem Stores.lays (h : Stores b first) : Lays b first := by
  intro d sound room
  have ran := h d sound
  rwa [if_neg (Nat.not_lt.mpr room)] at ran

theorem length_laid {d : Drive} (behind : d.tape.pos + b.length ≤ d.tape.length) :
    (d.laid b).tape.length = d.tape.length :=
  d.tape.bytes.length_overlay d.tape.pos b behind

theorem Sound.laid {d : Drive} (sound : d.Sound) (room : b.length ≤ d.tape.remaining) :
    (d.laid b).Sound := by
  have behind := sound.behind room
  have same := length_laid behind
  constructor
  · rwa [same]
  · rw [same]
    exact sound.fits

theorem remaining_laid {d : Drive} (sound : d.Sound) (room : b.length ≤ d.tape.remaining) :
    (d.laid b).tape.remaining = d.tape.remaining - b.length := by
  rw [Tape.remaining, length_laid (sound.behind room), Tape.remaining, Nat.sub_sub]
  rfl

theorem Lays.append (h : Lays b first) (h' : Lays c second) : Lays (b ++ c) (do first; second) := by
  intro d sound room
  rw [List.length_append] at room
  have front : b.length ≤ d.tape.remaining := by omega
  have rest : c.length ≤ (d.laid b).tape.remaining := by
    rw [remaining_laid sound front]
    omega
  rw [runOn_bind (h d sound front), h' _ (sound.laid front) rest]
  have both := d.tape.bytes.overlay_append b c d.tape.pos (sound.behind front)
  simp only [laid, both, List.length_append, Nat.add_assoc]

theorem Lays.ensured {n : Nat} (h : Lays b first) (size : n = b.length) :
    Stores b (do ensure n; first) := by
  subst size
  intro d sound
  have room := runOn_ensure sound b.length
  by_cases short : d.tape.remaining < b.length
  · rw [if_pos short] at room ⊢
    exact runOn_bind_error room _
  · rw [if_neg short] at room ⊢
    rw [runOn_bind room, h d sound (Nat.le_of_not_lt short)]

/-! ## Pieces -/

theorem stores_writeSlice (b : Bytes) : Stores b (writeSlice b) := by
  intro d sound
  have claimed := runOn_claim sound b.length
  rw [writeSlice]
  by_cases short : d.tape.remaining < b.length
  · rw [if_pos short] at claimed ⊢
    exact runOn_bind_error claimed _
  · rw [if_neg short] at claimed ⊢
    rw [runOn_bind claimed]
    dsimp only
    rw [if_pos (length_window (Nat.le_of_not_lt short)).symm]
    rfl

theorem stores_writeByte (x : UInt8) : Stores [x] (writeByte x) := by
  intro d sound
  have claimed := runOn_claim sound 1
  rw [writeByte, List.length_singleton]
  by_cases short : d.tape.remaining < 1
  · rw [if_pos short] at claimed ⊢
    exact runOn_bind_error claimed _
  · rw [if_neg short] at claimed ⊢
    have one := length_window (Nat.le_of_not_lt short)
    rw [runOn_bind claimed]
    generalize (d.tape.bytes.drop d.tape.pos).take 1 = window at one ⊢
    obtain ⟨old, rfl⟩ := List.length_eq_one_iff.mp one
    rfl

theorem runOn_writeNumber {d : Drive} (sound : d.Sound) (width : Nat) (v : UInt64) :
    runOn (writeNumber width v) d =
    if d.tape.remaining < width then
      pure (.ok (.error (.outOfBounds d.tape.pos width d.tape.length), d))
    else
      match Width.ofBytes? width with
      | none => ⟨.error (.misuse (.width width)), []⟩
      | some _ => pure (.ok (.ok (), d.laid (littleDigits width v.toNat))) := by
  have claimed := runOn_claim sound width
  rw [writeNumber]
  by_cases short : d.tape.remaining < width
  · rw [if_pos short] at claimed ⊢
    exact runOn_bind_error claimed _
  · rw [if_neg short] at claimed ⊢
    rw [runOn_bind claimed]
    cases known : Width.ofBytes? width with
    | none =>
      simp only [Order.putUInt, Width.ofBytes, known]
      rfl
    | some w =>
      obtain rfl := Width.bytes_of_ofBytes? known
      have full := length_window (Nat.le_of_not_lt short)
      simp only [putUInt_of_length full]
      rw [ofMisuse, runOn_bind (runOn_pure _ _)]
      simp only [laid, length_littleDigits]
      rfl

theorem stores_writeNumber (w : Width) (v : UInt64) :
    Stores (littleDigits w.bytes v.toNat) (writeNumber w.bytes v) := by
  intro d sound
  rw [runOn_writeNumber sound, w.ofBytes?_bytes, length_littleDigits]
  split <;> rfl

theorem stores_writeWord (w : Word) : Stores (w.encode (.fixed .little)) (writeWord w) := by
  have number := stores_writeNumber w.format.width w.bits
  cases w with
  -- The one word that is stored without going through its digits.
  | u8 v => exact stores_writeByte v
  | _ =>
    rw [Word.encode_eq_digits]
    exact number

/-! ## Entries -/

theorem stores_writeTagged (g : Tag) (w : Width) (bits : UInt64) :
    Stores (Entry.tagged g w.bytes bits.toNat) (writeTagged g w.bytes bits) := by
  have pieces := (stores_writeByte g.code).lays.append (stores_writeNumber w bits).lays
  have whole : Stores (Entry.tagged g w.bytes bits.toNat)
      (do ensure (1 + w.bytes); writeByte g.code; writeNumber w.bytes bits) := by
    apply Lays.ensured pieces
    rw [List.length_append, length_littleDigits, List.length_singleton]
  intro d sound
  have width := w.bytes_le
  have small : 1 + w.bytes ≤ maxLength := Nat.le_trans (by omega) (by decide : 9 ≤ maxLength)
  rw [writeTagged, runOn_bind (runOn_sum_small small d)]
  exact whole d sound

theorem maxLength_le (c : LengthClass) : 1 + c.bytes + c.maxLength ≤ WireCodec.maxLength := by
  cases c <;> decide

/-- Writing a payload is told by what the encoding is: the failure of a length that is too great, or
the bytes. -/
def Puts (e : Except Failure Bytes) (a : Op Unit) : Prop :=
  match e with
  | .ok b => Stores b a
  | .error f => ∀ d, runOn a d = pure (.ok (.error f, d))

theorem stores_writeCounted {cls : LengthClass} (fits : b.length ≤ cls.maxLength) :
    Stores (littleDigits cls.bytes b.length ++ b) (writeCounted cls b) := by
  have bound := maxLength_le cls
  have far : maxLength < UInt64.size := by decide
  have number : (UInt64.ofNat b.length).toNat = b.length := UInt64.toNat_ofNat_of_lt' (by omega)
  have field := (stores_writeNumber cls.width (UInt64.ofNat b.length)).lays
  rw [number] at field
  have whole : Stores (littleDigits cls.bytes b.length ++ b)
      (do
        ensure (cls.bytes + b.length)
        writeNumber cls.bytes (UInt64.ofNat b.length)
        writeSlice b) := by
    apply (field.append (stores_writeSlice b).lays).ensured
    rw [List.length_append, length_littleDigits]
    rfl
  intro d sound
  rw [writeCounted, if_neg (Nat.not_lt.mpr fits), runOn_bind (runOn_sum_small (by omega) d)]
  exact whole d sound

theorem puts_writeCounted (cls : LengthClass) (b : Bytes) :
    Puts (Entry.counted cls b) (writeCounted cls b) := by
  unfold Entry.counted
  by_cases great : cls.maxLength < b.length
  · rw [if_pos great]
    intro d
    rw [writeCounted, if_pos great]
    rfl
  · rw [if_neg great]
    exact stores_writeCounted (Nat.le_of_not_lt great)

theorem puts_writeTaggedCounted (g : Tag) (cls : LengthClass) (b : Bytes) :
    Puts ((Entry.counted cls b).map (g.code :: ·)) (writeTaggedCounted g cls b) := by
  unfold Entry.counted
  by_cases great : cls.maxLength < b.length
  · rw [if_pos great]
    intro d
    rw [writeTaggedCounted, if_pos great]
    rfl
  · rw [if_neg great]
    have fits := Nat.le_of_not_lt great
    have bound := maxLength_le cls
    have pieces := (stores_writeByte g.code).lays.append (stores_writeCounted fits).lays
    have whole : Stores ([g.code] ++ (littleDigits cls.bytes b.length ++ b))
        (do ensure (1 + cls.bytes + b.length); writeByte g.code; writeCounted cls b) := by
      apply pieces.ensured
      rw [List.length_append, List.length_append, length_littleDigits, List.length_singleton,
        Nat.add_assoc]
    intro d sound
    rw [writeTaggedCounted, if_neg great, runOn_bind (runOn_sum_small (by omega) d),
      runOn_bind (runOn_sum_small (by omega) d)]
    exact whole d sound

theorem toNat_halves (re im : UInt32) :
    (re.toUInt64 ||| im.toUInt64 <<< 32).toNat = re.toNat + im.toNat * 2 ^ 32 := by
  have low := re.toNat_lt
  have high := im.toNat_lt
  have apart := Nat.shiftLeft_add_eq_or_of_lt low im.toNat
  have whole : im.toNat <<< 32 % 2 ^ 64 = im.toNat <<< 32 := by
    rw [Nat.shiftLeft_eq]
    omega
  have width : (32 : UInt64).toNat % 64 = 32 := by decide
  rw [UInt64.toNat_or, UInt64.toNat_shiftLeft, UInt32.toNat_toUInt64, UInt32.toNat_toUInt64, width,
    whole, Nat.or_comm, ← apart, Nat.shiftLeft_eq, Nat.add_comm]

theorem stores_writeInteger (v : Int64) : Stores (Entry.taggedInteger v) (writeInteger v) :=
  stores_writeTagged (.integer (.narrowest v.toInt)) (IntFormat.narrowest v.toInt).width v.toUInt64

theorem stores_complex128 (re im : UInt64) :
    Stores (Tag.complex128.code :: (littleDigits 8 re.toNat ++ littleDigits 8 im.toNat))
      (write (.complex128 re im)) := by
  have parts := (stores_writeNumber .b64 re).lays.append (stores_writeNumber .b64 im).lays
  apply ((stores_writeByte Tag.complex128.code).lays.append parts).ensured
  rw [List.length_append, List.length_append, length_littleDigits, length_littleDigits]
  rfl

theorem puts_write (e : Entry) : Puts e.encode (write e) := by
  cases e with
  | bytes b => exact stores_writeSlice b
  | word w => exact stores_writeWord w
  | uint w v => exact stores_writeNumber w v
  | float32 p => exact stores_writeNumber .b32 p.toUInt64
  | float64 p => exact stores_writeNumber .b64 p
  | blob c b => exact puts_writeCounted c b
  | tag g => exact stores_writeByte g.code
  | taggedWord w => exact stores_writeTagged _ w.format.width w.bits
  | taggedFloat32 p => exact stores_writeTagged .float32 .b32 p.toUInt64
  | taggedFloat64 p => exact stores_writeTagged .float64 .b64 p
  | complex64 re im =>
    have stored := stores_writeTagged .complex64 .b64 (re.toUInt64 ||| im.toUInt64 <<< 32)
    rw [toNat_halves] at stored
    exact stored
  | complex128 re im => exact stores_complex128 re im
  | taggedBlob c b => exact puts_writeTaggedCounted (.blob c) c b
  | integer v => exact stores_writeInteger v
  | float p =>
    rw [Entry.encode, write]
    cases FloatForm.narrowest p with
    | integer v => exact stores_writeInteger v
    | single q => exact stores_writeTagged .float32 .b32 q.toUInt64
    | double q => exact stores_writeTagged .float64 .b64 q
  | anyBlob b => exact puts_writeTaggedCounted (.blob (.ofLength b.length)) (.ofLength b.length) b
  | text t =>
    exact puts_writeTaggedCounted (.string (.ofLength (Utf8.encode t).length))
      (.ofLength (Utf8.encode t).length) (Utf8.encode t)

/-! ## Commands -/

theorem runOn_tag {d : Drive} (sound : d.Sound) : runOn tag d =
    match d.tape.bytes[d.tape.pos]? with
    | none => pure (.ok (.error (.outOfBounds d.tape.pos 1 d.tape.length), d))
    | some code =>
      match Tag.ofCode? code with
      | some g => pure (.ok (.ok g, d.movedTo (d.tape.pos + 1)))
      | none =>
        ⟨.ok (.error (.corruptTag code), d.movedTo (d.tape.pos + 1)),
          [.corruptTag code d.tape.pos]⟩ := by
  have first := restores_byte.runOn_eq sound
  rw [Scan.runFrom_byte] at first
  rw [tag, runOn_bind (runOn_head d)]
  cases here : d.tape.bytes[d.tape.pos]? with
  | none =>
    rw [here] at first
    exact runOn_bind_error first _
  | some code =>
    rw [here] at first
    rw [runOn_bind first]
    dsimp only [keep]
    cases Tag.ofCode? code with
    | some g => rfl
    | none => rfl

theorem step_of_runOn (c : Command) {t : Tape} {outcome : Except Failure Tape.Answer} {d : Drive}
    {events : List Event} (h : runOn (perform c) ⟨t, c.destination⟩ = ⟨.ok (outcome, d), events⟩) :
    step c t = .ok ⟨(c.reply outcome d.destination, d.tape), events⟩ := by
  rw [step, h]
  rfl

theorem step_of_trap (c : Command) {t : Tape} {x : Trap} {events : List Event}
    (h : runOn (perform c) ⟨t, c.destination⟩ = ⟨.error x, events⟩) : step c t = .error x := by
  rw [step, h]
  rfl

theorem step_read_eq {t : Tape} (sound : (⟨t, []⟩ : Drive).Sound) (r : Tape.Request) :
    step (.read r) t = (Tape.step (.read r) t).mapError Trap.misuse := by
  have ran := (restores_request r).runOn_eq sound
  rcases scanned : r.scan.runFrom t.bytes t.pos with ⟨f | ⟨a, pos⟩, events⟩
  · rw [scanned] at ran
    rw [step_of_runOn (.read r) ran, Tape.step_read_of_error scanned]
    rfl
  · rw [scanned] at ran
    rw [step_of_runOn (.read r) ran, Tape.step_read_of_ok scanned]
    rfl

theorem step_load_eq {t : Tape} {dst : Bytes} (sound : (⟨t, dst⟩ : Drive).Sound) (l : Tape.Load) :
    step (.load l dst) t = (Tape.step (.load l dst) t).mapError Trap.misuse := by
  have ran := runOn_load l sound
  rcases scanned : (l.scan dst.length).runFrom t.bytes t.pos with ⟨f | ⟨payload, pos⟩, events⟩
  · rw [scanned] at ran
    rw [step_of_runOn (.load l dst) ran, Tape.step_load_of_error scanned]
    rfl
  · rw [scanned] at ran
    rw [step_of_runOn (.load l dst) ran, Tape.step_load_of_ok scanned]
    rfl

theorem step_readTag_eq {t : Tape} (sound : (⟨t, []⟩ : Drive).Sound) :
    step .readTag t = (Tape.step .readTag t).mapError Trap.misuse := by
  have ran : runOn (perform .readTag) ⟨t, []⟩ = _ := runOn_map tag Tape.Answer.tag ⟨t, []⟩
  rw [runOn_tag sound] at ran
  rw [Tape.step_readTag_eq]
  cases here : t.bytes[t.pos]? with
  | none =>
    simp only [here] at ran
    rw [step_of_runOn .readTag ran]
    rfl
  | some code =>
    simp only [here] at ran ⊢
    cases known : Tag.ofCode? code with
    | some g =>
      simp only [known] at ran ⊢
      rw [step_of_runOn .readTag ran]
      rfl
    | none =>
      simp only [known] at ran ⊢
      rw [step_of_runOn .readTag ran]
      rfl

theorem step_readUInt_eq {t : Tape} (sound : (⟨t, []⟩ : Drive).Sound) (width : Nat) :
    step (.readUInt width) t = (Tape.step (.readUInt width) t).mapError Trap.misuse := by
  have ran : runOn (perform (.readUInt width)) ⟨t, []⟩ = _ :=
    runOn_map (number width) (fun n => Tape.Answer.int n) ⟨t, []⟩
  rw [runOn_number sound] at ran
  rw [Tape.step_readUInt_eq]
  by_cases short : t.remaining < width
  · rw [if_pos short] at ran ⊢
    rw [step_of_runOn (.readUInt width) ran]
    rfl
  · rw [if_neg short] at ran ⊢
    cases known : Width.ofBytes? width with
    | none =>
      simp only [known] at ran
      rw [step_of_trap (.readUInt width) ran]
      rfl
    | some w =>
      simp only [known] at ran
      rw [step_of_runOn (.readUInt width) ran]
      rfl

theorem step_put_eq {t : Tape} (sound : (⟨t, []⟩ : Drive).Sound) (e : Entry) :
    step (.put e) t = (Tape.step (.put e) t).mapError Trap.misuse := by
  have ran : runOn (perform (.put e)) ⟨t, []⟩ = _ :=
    runOn_map (write e) (fun _ => Tape.Answer.done) ⟨t, []⟩
  have wrote := puts_write e
  rw [Tape.step_put]
  cases encoded : e.encode with
  | error f =>
    rw [encoded] at wrote
    rw [wrote ⟨t, []⟩] at ran
    rw [step_of_runOn (.put e) ran]
    rfl
  | ok b =>
    rw [encoded] at wrote
    rw [wrote ⟨t, []⟩ sound] at ran
    by_cases short : t.remaining < b.length
    · rw [if_pos short] at ran
      rw [step_of_runOn (.put e) ran]
      dsimp only
      rw [if_pos short]
      rfl
    · rw [if_neg short] at ran
      rw [step_of_runOn (.put e) ran]
      dsimp only
      rw [if_neg short]
      rfl

theorem step_writeUInt_eq {t : Tape} (sound : (⟨t, []⟩ : Drive).Sound) (width : Nat) (v : UInt64) :
    step (.writeUInt width v) t = (Tape.step (.writeUInt width v) t).mapError Trap.misuse := by
  have ran : runOn (perform (.writeUInt width v)) ⟨t, []⟩ = _ :=
    runOn_map (writeNumber width v) (fun _ => Tape.Answer.done) ⟨t, []⟩
  rw [runOn_writeNumber sound] at ran
  rw [Tape.step_writeUInt_eq]
  by_cases short : t.remaining < width
  · rw [if_pos short] at ran ⊢
    rw [step_of_runOn (.writeUInt width v) ran]
    rfl
  · rw [if_neg short] at ran ⊢
    cases known : Width.ofBytes? width with
    | none =>
      simp only [known] at ran
      rw [step_of_trap (.writeUInt width v) ran]
      rfl
    | some w =>
      simp only [known] at ran
      rw [step_of_runOn (.writeUInt width v) ran]
      simp only [laid, length_littleDigits]
      rfl

theorem step_seek_eq (pos : Nat) (t : Tape) :
    step (.seek pos) t = (Tape.step (.seek pos) t).mapError Trap.misuse := by
  rw [Tape.step_seek]
  have ran : runOn (perform (.seek pos)) ⟨t, []⟩ = _ :=
    runOn_map (seek pos) (fun _ => Tape.Answer.done) ⟨t, []⟩
  rw [seek, runOn_bind (runOn_get _)] at ran
  by_cases beyond : t.length < pos
  · rw [if_pos beyond] at ran ⊢
    rw [step_of_runOn (.seek pos) ran]
    rfl
  · rw [if_neg beyond] at ran ⊢
    rw [step_of_runOn (.seek pos) ran]
    rfl

theorem step_eq {t : Tape} (inside : t.pos ≤ t.length) (fits : t.length ≤ maxLength) (c : Command) :
    step c t = (Tape.step c t).mapError Trap.misuse := by
  have sound (dst : Bytes) : (⟨t, dst⟩ : Drive).Sound := ⟨inside, fits⟩
  cases c with
  | read r => exact step_read_eq (sound []) r
  | readTag => exact step_readTag_eq (sound [])
  | readUInt width => exact step_readUInt_eq (sound []) width
  | load l dst => exact step_load_eq (sound dst) l
  | put e => exact step_put_eq (sound []) e
  | writeUInt width v => exact step_writeUInt_eq (sound []) width v
  | seek pos => exact step_seek_eq pos t
  | rewind => rfl

theorem mapError_eq_ok {α : Type} {x : Except Misuse α} {a : α} :
    x.mapError Trap.misuse = .ok a ↔ x = .ok a := by
  cases x <;> simp [Except.mapError]

theorem mapError_eq_error {α : Type} {x : Except Misuse α} {y : Trap} :
    x.mapError Trap.misuse = .error y ↔ ∃ m, x = .error m ∧ y = .misuse m := by
  cases x <;> simp [Except.mapError, eq_comm]

end Drive

end WireCodec
