import WireCodec.Proofs.Dyadic
import WireCodec.Proofs.Tape.Dispatch
import WireCodec.Proofs.Tape.Narrowest

/-!
# Numbers as integers

Any number is read as an integer of 64 bits. A float is rounded toward zero and held within the
range. An integer is what it was stored as, but for the unsigned ones that no signed word holds:
these wrap around below zero, where the reader of their own tag keeps them and reading them as
floats keeps their sign.
-/

set_option autoImplicit false

namespace WireCodec

open Ieee754 (Format Truncates binary32 binary64 towardZero)

namespace Scan

theorem decodes_integer_float32 (p : UInt32) :
    Decodes integer (Tag.float32.code :: littleDigits 4 p.toNat)
      (binary32.decode p.toNat).toInt64 := by
  have payload := (decodes_pattern32 p).map fun p => (binary32.decode p.toNat).toInt64
  exact (decodes_tag .float32).bind payload

theorem decodes_integer_float64 (p : UInt64) :
    Decodes integer (Tag.float64.code :: littleDigits 8 p.toNat)
      (binary64.decode p.toNat).toInt64 := by
  have payload := (decodes_pattern64 p).map fun p => (binary64.decode p.toNat).toInt64
  exact (decodes_tag .float64).bind payload

section Payloads

variable {f : IntFormat} {b : Bytes} (size : b.length = f.width.bytes)
include size

theorem decodes_taggedWord_payload :
    Decodes (taggedWord f) ((Tag.integer f).code :: b) (f.word (littleValue b)) :=
  (decodes_expect (.integer f)).bind ((decodes_payload size).map f.word)

theorem decodes_float_payload : Decodes float ((Tag.integer f).code :: b)
    (UInt64.ofNat (binary64.round (.ofInt (f.read (littleValue b))))) :=
  (decodes_tag (.integer f)).bind
    ((decodes_payload size).map fun n => UInt64.ofNat (binary64.round (.ofInt (f.read n))))

end Payloads

end Scan

namespace IntFormat

theorem toInt_ofInt_read (f : IntFormat) {n : Nat} (small : n < f.width.modulus) :
    (f.read n < 2 ^ 63 → (Int64.ofInt (f.read n)).toInt = f.read n) ∧
      (2 ^ 63 ≤ f.read n →
        f = .unsigned .b64 ∧ (Int64.ofInt (f.read n)).toInt = f.read n - 2 ^ 64) := by
  by_cases widest : f = .unsigned .b64
  · subst widest
    have value : (unsigned .b64).read n = n := rfl
    have residue : (n : Int) % Int64.size = n :=
      Int.emod_eq_of_lt (Int.natCast_nonneg n) (by exact_mod_cast small)
    have words : (Int64.size : Int) = 2 ^ 64 := rfl
    rw [value, Int64.toInt_ofInt, Int.bmod_def, residue, words]
    refine ⟨fun low => ?_, fun great => ⟨rfl, ?_⟩⟩
    · rw [if_pos (by omega)]
    · rw [if_neg (by omega)]
  · have kept := toInt_extend small widest
    rw [f.extend_eq small] at kept
    refine ⟨fun _ => kept, fun great => ?_⟩
    have bound := (Int64.ofInt (f.read n)).toInt_lt
    omega

theorem natAbs_read_lt (f : IntFormat) {n : Nat} (small : n < f.width.modulus) :
    (f.read n).natAbs < 2 ^ 64 := by
  obtain ⟨low, high⟩ := f.holds_read small
  have least : (2 : Int) ^ (8 * f.width.bytes - 1) ≤ 2 ^ 63 := by cases f.width <;> decide
  have greatest : (2 : Int) ^ (8 * f.width.bytes) ≤ 2 ^ 64 := by cases f.width <;> decide
  omega

end IntFormat

namespace Drive

open Tape (Answer Request)

variable {t : Tape}

theorem step_of_decodes {r : Request} {b : Bytes} {a : Answer} (fits : t.length ≤ maxLength)
    (decodes : r.scan.Decodes b a) (something : 0 < b.length) (stands : t.bytes.HasAt t.pos b) :
    step (.read r) t = .ok (pure (.plain (.ok a), { t with pos := t.pos + b.length })) := by
  have inside : t.pos ≤ t.length := by
    have room := stands.length_le
    unfold Tape.length
    omega
  exact (step_of_tape inside fits).mpr (Tape.step_of_decodes decodes stands)

/-- A float is read as the integer that it comes to when rounded toward zero and held within the
range, or as zero if it is no number. -/
theorem floats_truncate (fits : t.length ≤ maxLength) :
    (∀ p : UInt32, t.bytes.HasAt t.pos (Tag.float32.code :: littleDigits 4 p.toNat) → ∃ v : Int64,
      Truncates binary32 p.toNat v ∧
      step (.read .integer) t =
        .ok (pure (.plain (.ok (.int v.toInt)), { t with pos := t.pos + 5 }))) ∧
    ∀ p : UInt64, t.bytes.HasAt t.pos (Tag.float64.code :: littleDigits 8 p.toNat) → ∃ v : Int64,
      Truncates binary64 p.toNat v ∧
      step (.read .integer) t =
        .ok (pure (.plain (.ok (.int v.toInt)), { t with pos := t.pos + 9 })) := by
  constructor
  · intro p stands
    have decodes := (Scan.decodes_integer_float32 p).map fun v => Answer.int v.toInt
    have stepped := step_of_decodes (r := .integer) fits decodes (Nat.succ_pos _) stands
    rw [List.length_cons, length_littleDigits] at stepped
    exact ⟨_, Ieee754.truncates_iff.mpr rfl, stepped⟩
  · intro p stands
    have decodes := (Scan.decodes_integer_float64 p).map fun v => Answer.int v.toInt
    have stepped := step_of_decodes (r := .integer) fits decodes (Nat.succ_pos _) stands
    rw [List.length_cons, length_littleDigits] at stepped
    exact ⟨_, Ieee754.truncates_iff.mpr rfl, stepped⟩

theorem floats_truncate_two :
    let half : Tape := ⟨[25, 0, 0, 0xf0, 0xc0], 0⟩
    let beyond : Tape := ⟨[99, 26, 0, 0, 0, 0, 0, 0, 0xe0, 0x43], 1⟩
    binary32.number 0xc0f00000 = -15 / 2 ∧ binary64.number 0x43e0000000000000 = 2 ^ 63 ∧
      step (.read .integer) half = .ok (pure (.plain (.ok (.int (-7))), { half with pos := 5 })) ∧
      step (.read .integer) beyond =
        .ok (pure (.plain (.ok (.int (2 ^ 63 - 1))), { beyond with pos := 10 })) := by
  intro half beyond
  obtain ⟨narrow, -⟩ := floats_truncate (t := half) (by decide)
  obtain ⟨v, cut, read⟩ := narrow 0xc0f00000 ⟨[], rfl⟩
  obtain ⟨-, wide⟩ := floats_truncate (t := beyond) (by decide)
  obtain ⟨w, held, read'⟩ := wide 0x43e0000000000000 ⟨[], rfl⟩
  have whole : towardZero (binary32.number (UInt32.toNat 0xc0f00000)) = -7 := by decide +kernel
  have truncated := (cut.within (by decide) (by decide +kernel) (by decide +kernel)).trans whole
  obtain rfl : w = Int64.maxValue := held.above (by decide) (by decide +kernel)
  rw [truncated] at read
  exact ⟨by decide +kernel, by decide +kernel, read, read'⟩

/-- Read as any number, a stored integer is the same if it is below two to the 63; the others come
out below zero. -/
theorem integers_kept_or_wrapped (fits : t.length ≤ maxLength) {f : IntFormat} {b : Bytes}
    (size : b.length = f.width.bytes) (stands : t.bytes.HasAt t.pos ((Tag.integer f).code :: b)) :
    let stored : Int := f.read (littleValue b)
    let behind : Tape := { t with pos := t.pos + (1 + f.width.bytes) }
    ∃ (v : Int64) (p : UInt64),
      step (.read .integer) t = .ok (pure (.plain (.ok (.int v.toInt)), behind)) ∧
      step (.read (.taggedWord f)) t = .ok (pure (.plain (.ok (.int stored)), behind)) ∧
      step (.read .float) t = .ok (pure (.plain (.ok (.float64 p)), behind)) ∧
      binary64.IsFinite p.toNat ∧
      SignType.sign (binary64.number p.toNat) = SignType.sign (stored : ℚ) ∧
      (stored < 2 ^ 63 → v.toInt = stored) ∧
      (2 ^ 63 ≤ stored → f = .unsigned .b64 ∧ v.toInt = stored - 2 ^ 64 ∧ v.toInt < 0) := by
  intro stored behind
  have small : littleValue b < f.width.modulus := (Order.fixed .little).value_lt_modulus size
  have moves {r : Request} {a : Answer} (decodes : r.scan.Decodes ((Tag.integer f).code :: b) a) :
      step (.read r) t = .ok (pure (.plain (.ok a), behind)) := by
    have stepped := step_of_decodes fits decodes (Nat.succ_pos _) stands
    rwa [List.length_cons, size, Nat.add_comm f.width.bytes 1] at stepped
  have integer :=
    moves (r := .integer) ((Scan.decodes_integer_payload size).map fun v => Answer.int v.toInt)
  have word := moves (r := .taggedWord f)
    ((Scan.decodes_taggedWord_payload size).map fun v => Answer.int v.toInt)
  have float := moves (r := .float) ((Scan.decodes_float_payload size).map Answer.float64)
  rw [f.toInt_word small] at word
  have bound := f.natAbs_read_lt small
  obtain ⟨within, finite, sign⟩ := Format.sign_round_ofInt bound
  obtain ⟨kept, wrapped⟩ := f.toInt_ofInt_read small
  have whole := UInt64.toNat_ofNat_of_lt' within
  refine ⟨_, _, integer, word, float, ?_, ?_, kept, fun great => ?_⟩
  · rwa [whole]
  · rwa [whole]
  · obtain ⟨format, value⟩ := wrapped great
    exact ⟨format, value, by omega⟩

theorem integers_kept_or_wrapped_greatest :
    let greatest : Tape := ⟨8 :: List.replicate 8 255, 0⟩
    let low : Tape := ⟨[99, 9, 0x80], 1⟩
    step (.read .integer) greatest =
      .ok (pure (.plain (.ok (.int (-1))), { greatest with pos := 9 })) ∧
      step (.read (.taggedWord (.unsigned .b64))) greatest =
        .ok (pure (.plain (.ok (.int 18446744073709551615)), { greatest with pos := 9 })) ∧
      (∃ p : UInt64, step (.read .float) greatest =
        .ok (pure (.plain (.ok (.float64 p)), { greatest with pos := 9 })) ∧
        SignType.sign (binary64.number p.toNat) = 1) ∧
      step (.read .integer) low =
        .ok (pure (.plain (.ok (.int (-128))), { low with pos := 3 })) := by
  intro greatest low
  obtain ⟨v, p, integer, word, float, -, sign, -, wrapped⟩ :=
    integers_kept_or_wrapped (t := greatest) (by decide)
    (f := .unsigned .b64) (b := List.replicate 8 255) rfl ⟨[], rfl⟩
  obtain ⟨-, value, -⟩ := wrapped (by decide)
  obtain ⟨w, -, small, -, -, -, -, kept, -⟩ := integers_kept_or_wrapped (t := low) (by decide)
    (f := .twosComplement .b8) (b := [0x80]) rfl ⟨[], rfl⟩
  rw [value] at integer
  rw [kept (by decide)] at small
  exact ⟨integer, word, ⟨p, float, sign⟩, small⟩

theorem greatest_integer_wraps :
    ¬ ∀ (t t' : Tape) (f : IntFormat) (b : Bytes) (v : Int) (events : List Event),
    t.length ≤ maxLength → b.length = f.width.bytes →
      t.bytes.HasAt t.pos ((Tag.integer f).code :: b) →
      step (.read .integer) t = .ok ⟨(.plain (.ok (.int v)), t'), events⟩ →
      v = f.read (littleValue b) := by
  intro always
  let greatest : Tape := ⟨8 :: List.replicate 8 255, 0⟩
  have read : Tape.step (.read .integer) greatest =
      .ok (pure (.plain (.ok (.int (-1))), { greatest with pos := 9 })) := rfl
  have same :=
    always greatest _ (.unsigned .b64) (List.replicate 8 255) _ _ (by decide) rfl ⟨[], rfl⟩
      ((step_of_tape (by decide) (by decide)).mpr read)
  exact absurd same (by decide)

end Drive

end WireCodec
