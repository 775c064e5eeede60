import WireCodec.Proofs.Words
import WireCodec.Tape.Tagged

/-!
# What a scan decodes

A scan decodes some bytes to a value if, on any array that holds those bytes from the position on,
it returns the value and the position behind them, and reports nothing. What stands before or behind
the bytes plays no part in it. Scans in sequence decode bytes in sequence, so what a scan of a
tagged value decodes is put together from its parts.
-/

set_option autoImplicit false

namespace WireCodec

/-- The bytes `b` stand in the array from a position on. -/
def Bytes.HasAt (array : Bytes) (pos : Nat) (b : Bytes) : Prop := b <+: array.drop pos

namespace Bytes.HasAt

variable {array b c : Bytes} {pos : Nat}

theorem parts (h : array.HasAt pos (b ++ c)) :
    array.HasAt pos b ∧ array.HasAt (pos + b.length) c := by
  obtain ⟨rest, whole⟩ := h
  rw [List.append_assoc] at whole
  have behind : array.drop (pos + b.length) = c ++ rest := by
    rw [← List.drop_drop, ← whole, List.drop_left]
  exact ⟨⟨c ++ rest, whole⟩, ⟨rest, behind.symm⟩⟩

theorem take_eq (h : array.HasAt pos b) : (array.drop pos).take b.length = b :=
  (List.prefix_iff_eq_take.mp h).symm

theorem length_le (h : array.HasAt pos b) : b.length ≤ array.length - pos := by
  have le := List.IsPrefix.length_le h
  rwa [List.length_drop] at le

theorem of_take {front : Bytes} (h : array.take (front.length + b.length) = front ++ b) :
    array.take front.length = front ∧ array.HasAt front.length b := by
  have whole := List.take_append_drop (front.length + b.length) array
  rw [h, List.append_assoc] at whole
  rw [← whole]
  refine ⟨List.take_left, ?_⟩
  unfold HasAt
  rw [List.drop_left]
  exact List.prefix_append b _

end Bytes.HasAt

/-- Whether a payload has the size that a layout sets, or the length that its length field
announces. -/
def Layout.Spans (b : Bytes) : Layout → Prop
  | .fixed size => b.length = size
  | .counted c => ∃ payload : Bytes,
    payload.length ≤ c.maxLength ∧ b = littleDigits c.bytes payload.length ++ payload

namespace Scan

variable {α β : Type}

/-- On any array that holds the bytes `b` at the position, the scan returns `v` and moves behind
them. -/
def Decodes (s : Scan α) (b : Bytes) (v : α) : Prop :=
  ∀ (array : Bytes) (pos : Nat),
    array.HasAt pos b → s.runFrom array pos = pure (.ok (v, pos + b.length))

theorem runFrom_bind {s : Scan α} {f : α → Scan β} {array : Bytes} {pos pos' : Nat} {v : α}
    (h : s.runFrom array pos = pure (.ok (v, pos'))) :
    (s >>= f).runFrom array pos = (f v).runFrom array pos' := by
  unfold runFrom at h ⊢
  rw [ReaderT.run_bind, StateT.run_bind, ExceptT.run_bind, h]
  rfl

theorem runFrom_read (array : Bytes) (pos : Nat) :
    (read : Scan Bytes).runFrom array pos = pure (.ok (array, pos)) := rfl

theorem runFrom_get (array : Bytes) (pos : Nat) :
    (get : Scan Nat).runFrom array pos = pure (.ok (pos, pos)) := rfl

theorem runFrom_set (array : Bytes) (pos pos' : Nat) :
    (set pos' : Scan PUnit).runFrom array pos = pure (.ok (⟨⟩, pos')) := rfl

theorem decodes_pure (v : α) : Decodes (pure v) [] v := fun _ _ _ => rfl

theorem Decodes.bind {s : Scan α} {f : α → Scan β} {b c : Bytes} {v : α} {w : β} (h : Decodes s b v)
    (h' : Decodes (f v) c w) : Decodes (s >>= f) (b ++ c) w := by
  intro array pos stands
  obtain ⟨front, back⟩ := stands.parts
  rw [runFrom_bind (h array pos front), h' array _ back, List.length_append, Nat.add_assoc]

theorem Decodes.map {s : Scan α} {b : Bytes} {v : α} (h : Decodes s b v) (g : α → β) :
    Decodes (do let x ← s; pure (g x)) b (g v) := by
  have both : Decodes (s >>= fun x => pure (g x)) (b ++ []) (g v) := h.bind (decodes_pure (g v))
  rwa [List.append_nil] at both

theorem decodes_advance (b : Bytes) : Decodes (advance b.length) b () := by
  intro array pos stands
  have room : ¬ array.length - pos < b.length := Nat.not_lt.mpr stands.length_le
  rw [advance, runFrom_bind (runFrom_read array pos), runFrom_bind (runFrom_get array pos),
    if_neg room]
  exact runFrom_set array pos (pos + b.length)

theorem decodes_bytes (b : Bytes) : Decodes (bytes b.length) b b := by
  intro array pos stands
  have moved := decodes_advance b array pos stands
  rw [bytes, runFrom_bind (runFrom_read array pos), runFrom_bind (runFrom_get array pos),
    runFrom_bind moved, stands.take_eq]
  rfl

theorem decodes_byte (b : UInt8) : Decodes byte [b] b := (decodes_bytes [b]).map fun b => b.headD 0

theorem decodes_payload {w : Width} {b : Bytes} (size : b.length = w.bytes) :
    Decodes (number w) b (littleValue b) := by
  have h := (decodes_bytes b).map littleValue
  rwa [size] at h

theorem decodes_number (w : Width) (n : Nat) :
    Decodes (number w) (littleDigits w.bytes n) (n % w.modulus) := by
  have h := decodes_payload (length_littleDigits w.bytes n)
  rwa [littleValue_littleDigits] at h

theorem decodes_word (f : IntFormat) (n : Nat) :
    Decodes (word f) (littleDigits f.width.bytes n) (f.word (n % f.width.modulus)) :=
  (decodes_number f.width n).map f.word

theorem decodes_pattern32 (p : UInt32) : Decodes pattern32 (littleDigits 4 p.toNat) p := by
  have h := (decodes_number .b32 p.toNat).map UInt32.ofNat
  rw [ofNat_toNat_mod32] at h
  exact h

theorem decodes_pattern64 (p : UInt64) : Decodes pattern64 (littleDigits 8 p.toNat) p := by
  have h := (decodes_number .b64 p.toNat).map UInt64.ofNat
  rw [ofNat_toNat_mod64] at h
  exact h

theorem decodes_length {c : LengthClass} {n : Nat} (fits : n ≤ c.maxLength) :
    Decodes (number c.width) (littleDigits c.bytes n) n := by
  have pos := c.width.modulus_pos
  have h := decodes_number c.width n
  unfold LengthClass.maxLength Width.maxUnsigned at fits
  rwa [Nat.mod_eq_of_lt (by omega)] at h

theorem decodes_counted {c : LengthClass} {capacity : Nat} {b : Bytes}
    (fits : b.length ≤ c.maxLength) (room : b.length ≤ capacity) :
    Decodes (counted c capacity) (littleDigits c.bytes b.length ++ b) b := by
  unfold counted
  refine (decodes_length fits).bind ?_
  rw [if_neg (Nat.not_lt.mpr room)]
  exact decodes_bytes b

theorem decodes_tag (t : Tag) : Decodes tag [t.code] t := by
  intro array pos stands
  rw [tag, runFrom_bind (runFrom_get array pos),
    runFrom_bind (decodes_byte t.code array pos stands)]
  simp only [Tag.ofCode?_code]
  rfl

theorem decodes_expect (t : Tag) : Decodes (expect t) [t.code] () := by
  refine (decodes_tag t).bind (c := []) ?_
  rw [if_pos rfl]
  exact decodes_pure ()

theorem decodes_drain {t : Tag} {b : Bytes} (spans : t.layout.Spans b) :
    Decodes (drain t) b b.length := by
  intro array pos stands
  have measured :
      (do let behind ← get; pure (behind - pos) : Scan Nat).runFrom array (pos + b.length) =
      pure (.ok (b.length, pos + b.length)) := by
    rw [runFrom_bind (runFrom_get array _), Nat.add_sub_cancel_left]
    rfl
  rw [drain, runFrom_bind (runFrom_get array pos)]
  match layout : t.layout with
  | .fixed size =>
    rw [layout] at spans
    have size_eq : b.length = size := spans
    subst size_eq
    have moved := decodes_advance b array pos stands
    simp only [runFrom_bind moved]
    exact measured
  | .counted c =>
    rw [layout] at spans
    obtain ⟨payload, fits, b_eq⟩ := spans
    subst b_eq
    obtain ⟨field, behind⟩ := stands.parts
    have announced := decodes_length fits array pos field
    have moved := decodes_advance payload array _ behind
    simp only [runFrom_bind announced, runFrom_bind moved]
    rw [Nat.add_assoc, ← List.length_append]
    exact measured

theorem decodes_skip {t : Tag} {b : Bytes} (spans : t.layout.Spans b) :
    Decodes skip (t.code :: b) t := by
  refine (decodes_tag t).bind ?_
  exact (decodes_drain spans).map fun _ => t

theorem decodes_taggedWord (w : Word) :
    ∃ v : Word, v.toInt = w.format.reduce w.toInt ∧ Decodes (taggedWord w.format)
      ((Tag.integer w.format).code :: littleDigits w.format.width.bytes w.bits.toNat) v := by
  refine ⟨_, w.toInt_word_bits, ?_⟩
  exact (decodes_expect (.integer w.format)).bind (decodes_word w.format w.bits.toNat)

theorem decodes_taggedFloat32 (p : UInt32) :
    Decodes taggedFloat32 (Tag.float32.code :: littleDigits 4 p.toNat) p :=
  (decodes_expect .float32).bind (decodes_pattern32 p)

theorem decodes_taggedFloat64 (p : UInt64) :
    Decodes taggedFloat64 (Tag.float64.code :: littleDigits 8 p.toNat) p :=
  (decodes_expect .float64).bind (decodes_pattern64 p)

theorem decodes_complex64 (re im : UInt32) :
    Decodes complex64 (Tag.complex64.code :: (littleDigits 4 re.toNat ++ littleDigits 4 im.toNat))
      (re, im) := by
  have second := (decodes_pattern32 im).map fun im => (re, im)
  exact (decodes_expect .complex64).bind ((decodes_pattern32 re).bind second)

theorem decodes_complex128 (re im : UInt64) :
    Decodes complex128 (Tag.complex128.code :: (littleDigits 8 re.toNat ++ littleDigits 8 im.toNat))
      (re, im) := by
  have second := (decodes_pattern64 im).map fun im => (re, im)
  exact (decodes_expect .complex128).bind ((decodes_pattern64 re).bind second)

theorem decodes_integer_payload {f : IntFormat} {b : Bytes} (size : b.length = f.width.bytes) :
    Decodes integer ((Tag.integer f).code :: b) (Int64.ofInt (f.read (littleValue b))) :=
  (decodes_tag (.integer f)).bind ((decodes_payload size).map fun n => Int64.ofInt (f.read n))

theorem decodes_integer (f : IntFormat) (n : Nat) : Decodes integer
    ((Tag.integer f).code :: littleDigits f.width.bytes n)
      (Int64.ofInt (f.read (n % f.width.modulus))) := by
  have h := decodes_integer_payload (length_littleDigits f.width.bytes n)
  rwa [littleValue_littleDigits] at h

section Payloads

variable {c : LengthClass} {capacity : Nat} {b : Bytes}

theorem decodes_taggedBlob (fits : b.length ≤ c.maxLength) (room : b.length ≤ capacity) :
    Decodes (taggedBlob c capacity) ((Tag.blob c).code :: (littleDigits c.bytes b.length ++ b)) b :=
  (decodes_expect (.blob c)).bind (decodes_counted fits room)

theorem decodes_anyBlob (fits : b.length ≤ c.maxLength) (room : b.length ≤ capacity) :
    Decodes (anyBlob capacity) ((Tag.blob c).code :: (littleDigits c.bytes b.length ++ b)) b :=
  (decodes_tag (.blob c)).bind (decodes_counted fits room)

theorem decodes_anyString (fits : b.length ≤ c.maxLength) (room : b.length ≤ capacity) :
    Decodes (anyString capacity) ((Tag.string c).code :: (littleDigits c.bytes b.length ++ b)) b :=
  (decodes_tag (.string c)).bind (decodes_counted fits room)

end Payloads

end Scan

end WireCodec
