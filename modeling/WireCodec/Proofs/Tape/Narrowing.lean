import WireCodec.Proofs.FloatForm
import WireCodec.Proofs.Tape.Classes
import WireCodec.Proofs.Tape.Numbers

/-!
# Floats in their narrowest form

A float that is an integer of 64 bits is stored as the integer is, byte for byte, and is read back
with its own pattern, but for the negative zero; one beyond them is stored as the last of them on
its side. Any float and the opposite one are stored in the same kind of form, since only the
magnitude decides; whatever the form is, skipping it or reading it takes as many bytes as it has.
-/

set_option autoImplicit false

namespace WireCodec

open Ieee754 (Format binary32 binary64)
open FloatForm (NearWhole opposite)

namespace Scan

theorem decodes_float_integer (v : Int64) :
    Decodes float (Entry.taggedInteger v) (UInt64.ofNat (binary64.round (.ofInt v.toInt))) := by
  have payload := (decodes_number (IntFormat.narrowest v.toInt).width v.toUInt64.toNat).map fun n =>
    UInt64.ofNat (binary64.round (.ofInt ((IntFormat.narrowest v.toInt).read n)))
  rw [IntFormat.read_bits, IntFormat.reduce_narrowest] at payload
  exact (decodes_tag (.integer (.narrowest v.toInt))).bind payload

theorem decodes_float_single (q : UInt32) :
    Decodes float (Tag.float32.code :: littleDigits 4 q.toNat)
      (UInt64.ofNat (Ieee754.convert binary32 binary64 q.toNat)) :=
  (decodes_tag .float32).bind
    ((decodes_pattern32 q).map fun q => UInt64.ofNat (Ieee754.convert binary32 binary64 q.toNat))

theorem decodes_float_double (p : UInt64) :
    Decodes float (Tag.float64.code :: littleDigits 8 p.toNat) p :=
  (decodes_tag .float64).bind (decodes_pattern64 p)

end Scan

/-! ## The tag of a form -/

namespace FloatForm

def tag : FloatForm → Tag
  | integer v => .integer (.narrowest v.toInt)
  | single _ => .float32
  | double _ => .float64

theorem tag?_float (p : UInt64) : (Entry.float p).tag? = some (narrowest p).tag := by
  rw [Entry.tag?]
  cases narrowest p <;> rfl

theorem Chosen.tag_isInteger {p : UInt64} {form : FloatForm} (chosen : Chosen p form) :
    form.tag.isInteger = true ↔
      binary64.IsFinite p.toNat ∧ NearWhole (binary64.magnitude p.toNat) := by
  cases chosen with
  | endless endless => exact iff_of_false Bool.false_ne_true fun h => endless h.1
  | whole finite near => exact iff_of_true rfl ⟨finite, near⟩
  | few _ _ apart _ | full _ _ apart _ => exact iff_of_false Bool.false_ne_true fun h => apart h.2

theorem Chosen.tag_eq_float32 {p : UInt64} {form : FloatForm} {g : Nat} (chosen : Chosen p form)
    (finite : binary64.IsFinite p.toNat)
    (nearest : binary64.Nearest (1000 * binary64.magnitude p.toNat) g) :
    form.tag = .float32 ↔
      ¬ NearWhole (binary64.magnitude p.toNat) ∧ NearWhole (binary64.ideal g) := by
  cases chosen with
  | endless endless => exact absurd finite endless
  | whole _ near => exact iff_of_false (by rintro ⟨⟩) fun h => h.1 near
  | few _ nearest' apart near =>
    obtain rfl := nearest.unique nearest'
    exact iff_of_true rfl ⟨apart, near⟩
  | full _ nearest' _ apart =>
    obtain rfl := nearest.unique nearest'
    exact iff_of_false (by rintro ⟨⟩) fun h => apart h.2

/-- Whether a tag is of an integer, a float of 32 bits or one of 64. -/
def SameKind (t u : Tag) : Prop :=
  t.isInteger = true ∧ u.isInteger = true ∨ t = .float32 ∧ u = .float32 ∨
    t = .float64 ∧ u = .float64

theorem Chosen.sameKind {p q : UInt64} {form form' : FloatForm} (chosen : Chosen p form)
    (chosen' : Chosen q form') (magnitude : binary64.magnitude q.toNat = binary64.magnitude p.toNat)
    (finite_iff : binary64.IsFinite q.toNat ↔ binary64.IsFinite p.toNat) :
    SameKind form.tag form'.tag := by
  have whole_iff : form.tag.isInteger = true ↔ form'.tag.isInteger = true := by
    rw [chosen.tag_isInteger, chosen'.tag_isInteger, magnitude, finite_iff]
  cases chosen with
  | whole _ _ => exact .inl ⟨rfl, whole_iff.mp rfl⟩
  | endless endless =>
    cases chosen' with
    | endless _ => exact .inr (.inr ⟨rfl, rfl⟩)
    | whole finite _ | few finite _ _ _ | full finite _ _ _ =>
      exact absurd (finite_iff.mp finite) endless
  | few finite nearest apart near =>
    rw [← magnitude] at nearest apart
    have single := (chosen'.tag_eq_float32 (finite_iff.mpr finite) nearest).mpr ⟨apart, near⟩
    exact .inr (.inl ⟨rfl, single⟩)
  | full finite nearest apart apart' =>
    cases chosen' with
    | endless endless => exact absurd (finite_iff.mpr finite) endless
    | whole _ _ => cases whole_iff.mpr rfl
    | few _ nearest' _ near =>
      rw [magnitude] at nearest'
      obtain rfl := nearest.unique nearest'
      exact absurd near apart'
    | full _ _ _ _ => exact .inr (.inr ⟨rfl, rfl⟩)

end FloatForm

theorem Entry.encode_float (p : UInt64) :
    ∃ (b : Bytes) (v : UInt64), (Entry.float p).encode = .ok b ∧ 2 ≤ b.length ∧
      b.length ≤ 9 ∧ Scan.float.Decodes b v ∧
      ((FloatForm.narrowest p).tag = .float64 →
        b = Tag.float64.code :: littleDigits 8 p.toNat ∧ v = p) := by
  have chosen := FloatForm.chosen_narrowest p
  rw [Entry.encode]
  generalize FloatForm.narrowest p = form at chosen ⊢
  cases form with
  | integer v =>
    have widths : ∀ w : Width, 1 ≤ w.bytes ∧ w.bytes ≤ 8 := by
      intro w
      cases w <;> decide
    obtain ⟨least, most⟩ := widths (IntFormat.narrowest v.toInt).width
    have size :=
      Entry.length_tagged (.integer (.narrowest v.toInt)) (IntFormat.narrowest v.toInt).width.bytes
        v.toUInt64.toNat
    refine ⟨_, _, rfl, ?_, ?_, Scan.decodes_float_integer v, by rintro ⟨⟩⟩
    · rw [Entry.taggedInteger, size]
      omega
    · rw [Entry.taggedInteger, size]
      omega
  | single q =>
    exact ⟨_, _, rfl, Nat.le_add_left 2 3, Nat.le_add_left 5 4, Scan.decodes_float_single q,
      by rintro ⟨⟩⟩
  | double q =>
    obtain rfl : q = p := by cases chosen <;> rfl
    exact ⟨_, _, rfl, Nat.le_add_left 2 7, Nat.le_add_left 9 0, Scan.decodes_float_double q,
      fun _ => ⟨rfl, rfl⟩⟩

namespace Drive

open Tape (Answer Request)

section Stored

variable {t : Tape} (inside : t.pos ≤ t.length) (fits : t.length ≤ maxLength) {b : Bytes}
include inside fits

theorem step_put_of_full {e : Entry} (encoded : e.encode = .ok b) (full : t.remaining < b.length) :
    step (.put e) t = .ok (pure (.plain (.error (.outOfBounds t.pos b.length t.length)), t)) := by
  rw [step_of_tape inside fits, Tape.step_put, encoded]
  simp only [if_pos full]

theorem step_read_stored {r : Request} {a : Answer} (decodes : r.scan.Decodes b a)
    (something : 0 < b.length)
    (room : b.length ≤ t.remaining) : step (.read r) ⟨t.bytes.overlay t.pos b, t.pos⟩ =
      .ok (pure (.plain (.ok a), ⟨t.bytes.overlay t.pos b, t.pos + b.length⟩)) := by
  have length_eq := t.bytes.length_overlay t.pos b (Nat.add_le_of_le_sub' inside room)
  have stands : (t.bytes.overlay t.pos b).HasAt t.pos b :=
    List.prefix_iff_eq_take.mpr (Bytes.take_drop_overlay inside).symm
  exact step_of_decodes (t := ⟨_, _⟩) (length_eq.trans_le fits) decodes something stands

end Stored

theorem step_put_float_of_integer {p : UInt64} {v : Int64}
    (form : FloatForm.narrowest p = .integer v) (t : Tape) :
    step (.put (.float p)) t = step (.put (.integer v)) t := by
  have same : write (.float p) = write (.integer v) := by rw [write, write, form]
  rw [step, step, perform, perform, same]
  rfl

/-- A float that is an integer is stored as the integer is, and read back with its own pattern
unless it is the negative zero. -/
theorem whole_floats_stored (p : UInt64) (finite : binary64.IsFinite p.toNat) :
    (∀ n : Int, binary64.number p.toNat = n → -2 ^ 63 ≤ n → n < 2 ^ 63 → ∃ w : Width,
      w.Holds n ∧ (∀ w' : Width, w'.Holds n → w.bytes ≤ w'.bytes) ∧
      let f : IntFormat := if n < 2 ^ (8 * w.bytes - 1) then .twosComplement w else .unsigned w
      let b : Bytes := (Tag.integer f).code :: littleDigits w.bytes (Int64.ofInt n).toUInt64.toNat
      b.length = 1 + w.bytes ∧ 2 ≤ b.length ∧ b.length ≤ 9 ∧
      ∀ t : Tape, step (.put (.float p)) t = step (.put (.integer (Int64.ofInt n))) t ∧
        (t.pos ≤ t.length → t.length ≤ maxLength →
          let stored : Tape := ⟨t.bytes.overlay t.pos b, t.pos⟩
          let behind : Tape := { stored with pos := t.pos + b.length }
          (t.remaining < b.length →
            step (.put (.float p)) t =
              .ok (pure (.plain (.error (.outOfBounds t.pos b.length t.length)), t))) ∧
          (b.length ≤ t.remaining → step (.put (.float p)) t = .ok (pure (.done, behind)) ∧
            step (.read .float) stored =
              .ok (pure (.plain (.ok (.float64 (if p = 0x8000000000000000 then 0 else p))),
                behind))))) ∧
    (2 ^ 63 ≤ |binary64.number p.toNat| → ∀ t : Tape, step (.put (.float p)) t =
      step (.put (.integer (if binary64.negative p.toNat then Int64.minValue else Int64.maxValue)))
        t) := by
  refine ⟨fun n integral low high => ?_,
    fun great => step_put_float_of_integer (FloatForm.narrowest_of_great finite great)⟩
  have form := FloatForm.narrowest_of_number finite integral low high
  have value : (Int64.ofInt n).toInt = n := Int64.toInt_ofInt_of_le low (by omega)
  obtain ⟨w, holds, least, format⟩ := IntFormat.narrowest_spec (Int64.ofInt n)
  rw [value] at holds least format
  refine ⟨w, holds, least, ?_⟩
  intro f b
  have size : b.length = 1 + w.bytes := by rw [List.length_cons, length_littleDigits, Nat.add_comm]
  have bytes_eq : Entry.taggedInteger (Int64.ofInt n) = b := by
    rw [Entry.taggedInteger, value, format]
    exact congrArg (fun u : Width => (Tag.integer f).code :: littleDigits u.bytes _)
      (IntFormat.width_ite _ w)
  have encoded : (Entry.float p).encode = .ok b := by rw [Entry.encode, form, ← bytes_eq]
  have decodes := (Scan.decodes_float_integer (Int64.ofInt n)).map Answer.float64
  rw [bytes_eq, value, Format.round_ofInt_of_number finite integral] at decodes
  have widths : 1 ≤ w.bytes ∧ w.bytes ≤ 8 := by cases w <;> decide
  refine ⟨size, by omega, by omega,
    fun t => ⟨step_put_float_of_integer form t, fun inside fits => ⟨?_, fun room => ⟨?_, ?_⟩⟩⟩⟩
  · exact step_put_of_full inside fits encoded
  · exact step_put_of_encode inside fits encoded room
  · exact step_read_stored (r := .float) inside fits decodes (Nat.succ_pos _) room

theorem whole_floats_stored_three :
    let t : Tape := ⟨[0, 0, 0, 0, 0, 0, 0, 0, 0, 0], 1⟩
    let great : Bytes := [0, 16, 0, 4, 0, 0, 0, 0, 0, 16]
    let zero : Bytes := [0, 9, 0, 0, 0, 0, 0, 0, 0, 0]
    binary64.number 0x43b0000000000004 = 2 ^ 60 + 1024 ∧
      step (.put (.float 0x43b0000000000004)) t = .ok (pure (.done, ⟨great, 10⟩)) ∧
      step (.read .float) ⟨great, 1⟩ =
        .ok (pure (.plain (.ok (.float64 0x43b0000000000004)), ⟨great, 10⟩)) ∧
      step (.put (.float 0x8000000000000000)) t = .ok (pure (.done, ⟨zero, 3⟩)) ∧
      step (.read .float) ⟨zero, 1⟩ = .ok (pure (.plain (.ok (.float64 0)), ⟨zero, 3⟩)) ∧
      step (.put (.float 0xffe0000000000000)) t = step (.put (.integer Int64.minValue)) t := by
  intro t great zero
  obtain ⟨stored, -⟩ := whole_floats_stored 0x43b0000000000004 (by decide)
  obtain ⟨w, holds, least, -, -, -, same⟩ :=
    stored (2 ^ 60 + 1024) (by decide +kernel) (by decide) (by decide)
  obtain rfl : w = .b64 := by
    cases w with
    | b64 => rfl
    | b8 | b16 | b24 | b32 | b40 | b48 | b56 => exact absurd holds (by decide)
  obtain ⟨put, back⟩ := ((same t).2 (by decide) (by decide)).2 (by decide)
  obtain ⟨stored, -⟩ := whole_floats_stored 0x8000000000000000 (by decide)
  obtain ⟨w, -, least, -, -, -, same⟩ := stored 0 (by decide +kernel) (by decide) (by decide)
  have narrow := least .b8 (by decide)
  obtain rfl : w = .b8 := by
    cases w with
    | b8 => rfl
    | b16 | b24 | b32 | b40 | b48 | b56 | b64 => exact absurd narrow (by decide)
  obtain ⟨put_zero, back_zero⟩ := ((same t).2 (by decide) (by decide)).2 (by decide)
  obtain ⟨-, beyond⟩ := whole_floats_stored 0xffe0000000000000 (by decide)
  exact ⟨by decide +kernel, put, back, put_zero, back_zero, beyond (by decide +kernel) t⟩

/-- The form of a float is chosen by its magnitude alone: beyond the limit no product comes near
enough to a whole number from below. -/
theorem form_by_magnitude (p : UInt64) :
    binary64.number (opposite p).toNat = -binary64.number p.toNat ∧
    ∃ g h : Tag, (Entry.float p).tag? = some g ∧ (Entry.float (opposite p)).tag? = some h ∧
      FloatForm.SameKind g h ∧
      (¬ binary64.IsFinite p.toNat → g = .float64) ∧
      (binary64.IsFinite p.toNat → ∃ product,
        binary64.Nearest (1000 * binary64.magnitude p.toNat) product ∧
        (g.isInteger = true ↔ NearWhole (binary64.magnitude p.toNat)) ∧
        (g = .float32 ↔
          ¬ NearWhole (binary64.magnitude p.toNat) ∧ NearWhole (binary64.ideal product)) ∧
        (FloatForm.singleLimit < binary64.magnitude p.toNat →
          Int.fract (binary64.ideal product) ≤ 1 - 1 / 10 ^ 9 ∧
          Int.fract (binary64.ideal product) ≤ FloatForm.nearlyOne.toRat)) ∧
      ∀ t : Tape, t.pos ≤ t.length → t.length ≤ maxLength → 9 ≤ t.remaining →
        ∃ (b : Bytes) (v : UInt64),
        b.head? = some g.code ∧ 2 ≤ b.length ∧ b.length ≤ 9 ∧
        let stored : Tape := ⟨t.bytes.overlay t.pos b, t.pos⟩
        let behind : Tape := { stored with pos := t.pos + b.length }
        step (.put (.float p)) t = .ok (pure (.done, behind)) ∧
        step (.read .skip) stored = .ok (pure (.plain (.ok (.tag g)), behind)) ∧
        step (.read .float) stored = .ok (pure (.plain (.ok (.float64 v)), behind)) ∧
        (g = .float64 → v = p ∧
          step (.read .taggedFloat64) stored = .ok (pure (.plain (.ok (.float64 p)), behind))) := by
  have chosen := FloatForm.chosen_narrowest p
  have kind :=
    chosen.sameKind (FloatForm.chosen_narrowest (opposite p)) (FloatForm.magnitude_opposite p)
      (FloatForm.isFinite_opposite p)
  have tagged := FloatForm.tag?_float p
  refine ⟨FloatForm.number_opposite p, _, _, tagged, FloatForm.tag?_float _, kind,
    fun endless => ?_, fun finite => ?_, ?_⟩
  · generalize FloatForm.narrowest p = form at chosen
    cases chosen with
    | endless _ | full _ _ _ _ => rfl
    | whole finite _ | few finite _ _ _ => exact absurd finite endless
  · obtain ⟨product, nearest, -⟩ := Format.round_scale (f := binary64) (by decide) finite 1000
    have whole_iff := chosen.tag_isInteger.trans (and_iff_right finite)
    refine ⟨product, nearest, whole_iff, chosen.tag_eq_float32 finite nearest, fun beyond => ?_⟩
    have short := FloatForm.fract_ideal_of_limit nearest beyond
    exact ⟨short.trans (by norm_num), short.trans FloatForm.nearlyOne_gt.le⟩
  · intro t inside fits nine
    obtain ⟨b, v, encoded, least, most, decodes, full⟩ := Entry.encode_float p
    have room : b.length ≤ t.remaining := most.trans nine
    have something : 0 < b.length := by omega
    obtain ⟨body, b_eq, spans⟩ := Entry.encode_spans tagged encoded
    have skips : Request.skip.scan.Decodes b (.tag (FloatForm.narrowest p).tag) := by
      rw [b_eq]
      exact (Scan.decodes_skip spans).map Answer.tag
    refine ⟨b, v, by rw [b_eq, List.head?_cons], least, most, ?_⟩
    intro stored behind
    refine ⟨step_put_of_encode inside fits encoded room,
      step_read_stored inside fits skips something room,
      step_read_stored (r := .float) inside fits (decodes.map Answer.float64) something room,
        fun wide => ?_⟩
    obtain ⟨pattern, same⟩ := full wide
    have tagged_decodes : Request.taggedFloat64.scan.Decodes b (.float64 p) := by
      rw [pattern]
      exact (Scan.decodes_taggedFloat64 p).map Answer.float64
    exact ⟨same, step_read_stored inside fits tagged_decodes something room⟩

theorem form_by_magnitude_nan :
    let p : UInt64 := 0xfff8000000000001
    let t : Tape := ⟨[7, 0, 0, 0, 0, 0, 0, 0, 0, 0], 1⟩
    (Entry.float p).tag? = some .float64 ∧ (Entry.float (opposite p)).tag? = some .float64 ∧
      ∃ stored behind : Tape, stored.pos = 1 ∧
        step (.put (.float p)) t = .ok (pure (.done, behind)) ∧
        step (.read .skip) stored = .ok (pure (.plain (.ok (.tag .float64)), behind)) ∧
        step (.read .float) stored = .ok (pure (.plain (.ok (.float64 p)), behind)) := by
  intro p t
  obtain ⟨-, g, h, tagged, tagged', kind, endless, -, stores⟩ := form_by_magnitude p
  obtain rfl := endless (by decide)
  obtain ⟨b, v, -, -, -, put, skipped, read, full⟩ := stores t (by decide) (by decide) (by decide)
  obtain ⟨rfl, -⟩ := full rfl
  have opposed : h = .float64 := by
    rcases kind with ⟨whole, -⟩ | ⟨single, -⟩ | ⟨-, wide⟩
    · cases whole
    · cases single
    · exact wide
  exact ⟨tagged, opposed ▸ tagged', _, _, rfl, put, skipped, read⟩

end Drive

end WireCodec
