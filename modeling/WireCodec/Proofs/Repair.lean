import WireCodec.Utf8

/-!
# Repaired texts

Bytes are well-formed if they are the encoding of a text, and are then that text. What else bytes
are repaired to is settled by the encodings of single characters: one after another is kept, and
where none stands, the longest beginning of one, or a single byte that begins none, is replaced. Of
no bytes are there two repairs, and the one there is, is what the automaton finds.

The automaton is followed by the characters that it still takes to be possible: those that begin
with the bytes read since the last one ended, of which it knows the quotient by a power of 64 and
the range of the next digit.
-/

set_option autoImplicit false

namespace WireCodec

namespace Utf8

-- Powers are those of the core library, also where a file sees others.
attribute [local instance(high)] instPowNat

open String (utf8EncodeChar)

/-! ## Encodings -/

/-- Six bits of a value, in a byte that continues a character. -/
def digit (v k : Nat) : Nat := 0x80 + v / 64 ^ k % 64

def tail (v : Nat) : Nat → Bytes
  | 0 => []
  | k + 1 => UInt8.ofNat (digit v k) :: tail v k

theorem toNat_digit (v k : Nat) : (UInt8.ofNat (digit v k)).toNat = digit v k := by
  have bound : v / 64 ^ k % 64 < 64 := Nat.mod_lt _ (by decide)
  refine UInt8.toNat_ofNat_of_lt' ?_
  rw [digit, UInt8.size]
  omega

theorem toNat_lt (c : Char) : c.toNat < 0x110000 := by
  have valid := c.valid
  unfold UInt32.isValidChar Nat.isValidChar at valid
  unfold Char.toNat
  omega

theorem encodeChar_cases (c : Char) :
    (c.toNat < 0x80 ∧ utf8EncodeChar c = [UInt8.ofNat c.toNat]) ∨
    (0x80 ≤ c.toNat ∧ c.toNat < 0x800 ∧
      utf8EncodeChar c = UInt8.ofNat (0xC0 + c.toNat / 64) :: tail c.toNat 1) ∨
    (0x800 ≤ c.toNat ∧ c.toNat < 0x10000 ∧
      utf8EncodeChar c = UInt8.ofNat (0xE0 + c.toNat / 4096) :: tail c.toNat 2) ∨
    (0x10000 ≤ c.toNat ∧
      utf8EncodeChar c = UInt8.ofNat (0xF0 + c.toNat / 262144) :: tail c.toNat 3) := by
  have bound := toNat_lt c
  have first {base most high : Nat} (fits : c.toNat / high < most) :
      UInt8.ofNat (c.toNat / high % most + base) = UInt8.ofNat (base + c.toNat / high) := by
    rw [Nat.mod_eq_of_lt fits, Nat.add_comm]
  have digit (high : Nat) : UInt8.ofNat (c.toNat / high % 64 + 0x80) =
      UInt8.ofNat (0x80 + c.toNat / high % 64) := by
    rw [Nat.add_comm]
  have last : UInt8.ofNat (c.toNat % 64 + 0x80) = UInt8.ofNat (0x80 + c.toNat / 1 % 64) := by
    rw [Nat.add_comm, Nat.div_one]
  have unfolded : utf8EncodeChar c =
      if c.toNat ≤ 0x7F then [UInt8.ofNat c.toNat]
      else if c.toNat ≤ 0x7FF then [UInt8.ofNat (c.toNat / 64 % 32 + 0xC0),
        UInt8.ofNat (c.toNat % 64 + 0x80)]
      else if c.toNat ≤ 0xFFFF then
        [UInt8.ofNat (c.toNat / 4096 % 16 + 0xE0), UInt8.ofNat (c.toNat / 64 % 64 + 0x80),
          UInt8.ofNat (c.toNat % 64 + 0x80)]
      else [UInt8.ofNat (c.toNat / 262144 % 8 + 0xF0), UInt8.ofNat (c.toNat / 4096 % 64 + 0x80),
        UInt8.ofNat (c.toNat / 64 % 64 + 0x80), UInt8.ofNat (c.toNat % 64 + 0x80)] := rfl
  rw [unfolded]
  split
  · exact .inl ⟨by omega, rfl⟩
  · split
    · rw [first (by omega), last]
      exact .inr (.inl ⟨by omega, by omega, rfl⟩)
    · split
      · rw [first (by omega), digit, last]
        exact .inr (.inr (.inl ⟨by omega, by omega, rfl⟩))
      · rw [first (by omega), digit, digit, last]
        exact .inr (.inr (.inr ⟨by omega, rfl⟩))

theorem encodeChar_ne_nil (c : Char) : utf8EncodeChar c ≠ [] := by
  intro nothing
  have pos := c.utf8Size_pos
  rw [← String.length_utf8EncodeChar, nothing] at pos
  exact Nat.lt_irrefl 0 pos

theorem encodeChar_prefixFree {c c' : Char} (begins : utf8EncodeChar c <+: utf8EncodeChar c') :
    c = c' := by
  obtain ⟨rest, joined⟩ := begins
  have decoded := ByteArray.utf8DecodeChar?_utf8EncodeChar_append (b := rest.toByteArray) (c := c)
  have decoded' := ByteArray.utf8DecodeChar?_utf8EncodeChar_append (b := ByteArray.empty) (c := c')
  rw [← List.toByteArray_append, joined] at decoded
  rw [ByteArray.append_empty, decoded] at decoded'
  exact Option.some.inj decoded'

/-! ## Maximal parts -/

/-- Bytes that begin a character, or are one. -/
def Opens (p : Bytes) : Prop := ∃ c, p <+: utf8EncodeChar c

/-- What is replaced at once where no character stands: the longest beginning of one, or a single
byte. -/
structure MaximalPart (p rest : Bytes) : Prop where
  nonempty : p ≠ []
  illFormed : ∀ c, ¬ utf8EncodeChar c <+: p ++ rest
  part : p.length = 1 ∨ Opens p
  longest : ∀ q, q <+: p ++ rest → Opens q → q.length ≤ p.length

inductive Repairs : Bytes → List Char → Prop
  | nil : Repairs [] []
  | kept (c : Char) {b : Bytes} {cs : List Char} (rest : Repairs b cs) :
    Repairs (utf8EncodeChar c ++ b) (c :: cs)
  | replaced {p b : Bytes} {cs : List Char} (maximal : MaximalPart p b) (rest : Repairs b cs) :
      Repairs (p ++ b) (replacement :: cs)

theorem Opens.of_prefix {p q : Bytes} (opens : Opens q) (begins : p <+: q) : Opens p :=
  opens.imp fun _ => begins.trans

theorem MaximalPart.length_le {p p' b b' : Bytes} (maximal : MaximalPart p b)
    (maximal' : MaximalPart p' b') (same : p ++ b = p' ++ b') : p.length ≤ p'.length := by
  obtain single | opens := maximal.part
  · rw [single]
    exact List.length_pos_iff.mpr maximal'.nonempty
  · exact maximal'.longest p (same ▸ List.prefix_append p b) opens

theorem encodeChar_append_inj {c c' : Char} {b b' : Bytes}
    (same : utf8EncodeChar c ++ b = utf8EncodeChar c' ++ b') :
    c = c' ∧ b = b' := by
  have begins : utf8EncodeChar c <+: utf8EncodeChar c' ++ b' := same ▸ List.prefix_append _ b
  obtain rfl : c = c' := by
    obtain shorter | longer := List.prefix_or_prefix_of_prefix begins (List.prefix_append _ b')
    · exact encodeChar_prefixFree shorter
    · exact (encodeChar_prefixFree longer).symm
  exact ⟨rfl, List.append_cancel_left same⟩

theorem Repairs.unique {b : Bytes} {cs cs' : List Char} (h : Repairs b cs) (h' : Repairs b cs') :
    cs = cs' := by
  induction h generalizing cs' with
  | nil =>
    generalize whole : ([] : Bytes) = b at h'
    cases h' with
    | nil => rfl
    | kept c _ => exact absurd (List.append_eq_nil_iff.mp whole.symm).1 (encodeChar_ne_nil c)
    | replaced maximal _ => exact absurd (List.append_eq_nil_iff.mp whole.symm).1 maximal.nonempty
  | @kept c b cs _ ih =>
    generalize whole : utf8EncodeChar c ++ b = x at h'
    cases h' with
    | nil => exact absurd (List.append_eq_nil_iff.mp whole).1 (encodeChar_ne_nil c)
    | kept c' rest =>
      obtain ⟨rfl, rfl⟩ := encodeChar_append_inj whole
      rw [ih rest]
    | replaced maximal _ => exact absurd ⟨b, whole⟩ (maximal.illFormed c)
  | @replaced p b cs maximal _ ih =>
    generalize whole : p ++ b = x at h'
    cases h' with
    | nil => exact absurd (List.append_eq_nil_iff.mp whole).1 maximal.nonempty
    | @kept c' b' _ _ => exact absurd ⟨b', whole.symm⟩ (maximal.illFormed c')
    | @replaced p' b' _ maximal' rest =>
      have size :=
        Nat.le_antisymm (maximal.length_le maximal' whole) (maximal'.length_le maximal whole.symm)
      obtain ⟨rfl, rfl⟩ := List.append_inj whole size
      rw [ih rest]

/-! ## The automaton -/

/-- The values that a pending character may have: those with the bits read as their quotient and a
next digit in the range. -/
def Pending.Fits (p : Pending) (v : Nat) : Prop :=
  v / 64 ^ p.owed = p.bits ∧ p.low ≤ digit v (p.owed - 1) ∧ digit v (p.owed - 1) ≤ p.high

/-- A pending character is any of those that begin with the bytes read of it, and no other. -/
structure Pending.Awaits (p : Pending) (read : Bytes) : Prop where
  begun : read ≠ []
  owing : 0 < p.owed
  range : 0x80 ≤ p.low ∧ p.low ≤ p.high ∧ p.high ≤ 0xBF
  possible : ∀ v, p.Fits v → v.isValidChar
  begins_iff : ∀ c, read <+: utf8EncodeChar c ↔ p.Fits c.toNat
  encoding : ∀ c, read <+: utf8EncodeChar c → utf8EncodeChar c = read ++ tail c.toNat p.owed

theorem Pending.div_pow_owed {p : Pending} (owing : 0 < p.owed) (v : Nat) :
    v / 64 ^ p.owed = v / 64 ^ (p.owed - 1) / 64 := by
  rw [Nat.div_div_eq_div_mul, ← Nat.pow_succ, Nat.succ_eq_add_one, Nat.sub_add_cancel owing]

theorem Pending.fits_of_quotient {p : Pending} {x : UInt8} {v : Nat} (owing : 0 < p.owed)
    (proper : 0x80 ≤ x.toNat ∧ x.toNat ≤ 0xBF) (within : p.low ≤ x.toNat ∧ x.toNat ≤ p.high)
    (quotient : v / 64 ^ (p.owed - 1) = p.bits * 64 + x.toNat % 64) :
    p.Fits v ∧ digit v (p.owed - 1) = x.toNat := by
  have digit_eq : digit v (p.owed - 1) = x.toNat := by
    rw [digit, quotient]
    omega
  refine ⟨⟨?_, digit_eq ▸ within.1, digit_eq ▸ within.2⟩, digit_eq⟩
  rw [Pending.div_pow_owed owing, quotient]
  omega

theorem toNat_ofNat {v : Nat} (valid : v.isValidChar) : (Char.ofNat v).toNat = v := by
  rw [Char.ofNat, dif_pos valid]
  rfl

namespace Pending.Awaits

variable {p : Pending} {read rest : Bytes} (awaits : p.Awaits read)
include awaits

theorem proper {x : UInt8} (within : p.low ≤ x.toNat ∧ x.toNat ≤ p.high) :
    0x80 ≤ x.toNat ∧ x.toNat ≤ 0xBF := by
  have range := awaits.range
  omega

theorem begins_ofNat {v : Nat} (fits : p.Fits v) : read <+: utf8EncodeChar (Char.ofNat v) := by
  rw [awaits.begins_iff, toNat_ofNat (awaits.possible v fits)]
  exact fits

theorem opens : Opens read := by
  have range := awaits.range
  -- The character with the least next digit, and zeros behind it.
  have low_eq : (UInt8.ofNat p.low).toNat = p.low :=
    UInt8.toNat_ofNat_of_lt' (by rw [UInt8.size]; omega)
  have within : p.low ≤ (UInt8.ofNat p.low).toNat ∧ (UInt8.ofNat p.low).toNat ≤ p.high := by
    rw [low_eq]
    exact ⟨Nat.le_refl _, range.2.1⟩
  obtain ⟨fits, -⟩ := Pending.fits_of_quotient awaits.owing (awaits.proper within) within
    (Nat.mul_div_cancel _ (Nat.pow_pos (by decide)))
  exact ⟨_, awaits.begins_ofNat fits⟩

theorem next_digit {c : Char} (begins : read <+: utf8EncodeChar c) :
    ∃ x : UInt8, x.toNat = digit c.toNat (p.owed - 1) ∧ p.low ≤ x.toNat ∧ x.toNat ≤ p.high ∧
      utf8EncodeChar c = read ++ x :: tail c.toNat (p.owed - 1) := by
  obtain ⟨-, within⟩ := (awaits.begins_iff c).mp begins
  refine ⟨_, toNat_digit _ _, ?_, ?_, ?_⟩
  · rw [toNat_digit]
    exact within.1
  · rw [toNat_digit]
    exact within.2
  · rw [awaits.encoding c begins, ← Nat.succ_pred_eq_of_pos awaits.owing]
    rfl

theorem within_of_opens {x : UInt8} (opens : Opens (read ++ [x])) :
    p.low ≤ x.toNat ∧ x.toNat ≤ p.high := by
  obtain ⟨c, more, encoded⟩ := opens
  obtain ⟨y, -, low, high, encoded'⟩ :=
    awaits.next_digit (c := c) ⟨x :: more, by rw [← encoded, List.append_assoc]; rfl⟩
  rw [← encoded, List.append_assoc] at encoded'
  obtain ⟨rfl, -⟩ := List.cons.inj (List.append_cancel_left encoded')
  exact ⟨low, high⟩

theorem maximalPart (ends : ∀ x, rest.head? = some x → ¬ (p.low ≤ x.toNat ∧ x.toNat ≤ p.high)) :
    MaximalPart read rest where
  nonempty := awaits.begun
  illFormed c begins := by
    have extends_read : read <+: utf8EncodeChar c := by
      obtain shorter | longer :=
        List.prefix_or_prefix_of_prefix begins (List.prefix_append read rest)
      · obtain ⟨c', begins'⟩ := awaits.opens
        obtain rfl := encodeChar_prefixFree (shorter.trans begins')
        exact begins'
      · exact longer
    obtain ⟨x, -, low, high, encoded⟩ := awaits.next_digit extends_read
    rw [encoded, List.prefix_append_right_inj] at begins
    obtain ⟨more, rfl⟩ := begins
    exact ends x rfl ⟨low, high⟩
  part := .inr awaits.opens
  longest q begins opens := by
    refine Nat.le_of_not_lt fun longer => ?_
    obtain ⟨more, rfl⟩ :=
      List.prefix_of_prefix_length_le (List.prefix_append read rest) begins (Nat.le_of_lt longer)
    rw [List.prefix_append_right_inj] at begins
    cases more with
    | nil => exact absurd longer (by rw [List.append_nil]; exact Nat.lt_irrefl _)
    | cons x more =>
      obtain ⟨behind, rfl⟩ := begins
      have shorter : read ++ [x] <+: read ++ x :: more := ⟨more, by rw [List.append_assoc]; rfl⟩
      exact ends x rfl (awaits.within_of_opens (opens.of_prefix shorter))

theorem begins_snoc_iff {x : UInt8} (within : p.low ≤ x.toNat ∧ x.toNat ≤ p.high) (c : Char) :
    read ++ [x] <+: utf8EncodeChar c ↔
      c.toNat / 64 ^ (p.owed - 1) = p.bits * 64 + x.toNat % 64 := by
  have proper := awaits.proper within
  constructor
  · intro begins
    have begins' : read <+: utf8EncodeChar c := (List.prefix_append read [x]).trans begins
    obtain ⟨high, -⟩ := (awaits.begins_iff c).mp begins'
    obtain ⟨y, value, -, -, encoded⟩ := awaits.next_digit begins'
    rw [encoded, List.prefix_append_right_inj] at begins
    obtain ⟨_, joined⟩ := begins
    obtain ⟨rfl, -⟩ := List.cons.inj joined
    rw [Pending.div_pow_owed awaits.owing] at high
    rw [digit] at value
    omega
  · intro quotient
    obtain ⟨fits, digit_eq⟩ := Pending.fits_of_quotient awaits.owing proper within quotient
    obtain ⟨y, value, -, -, encoded⟩ := awaits.next_digit ((awaits.begins_iff c).mpr fits)
    obtain rfl := UInt8.toNat_inj.mp (value.trans digit_eq)
    rw [encoded]
    exact ⟨tail c.toNat (p.owed - 1), by rw [List.append_assoc]; rfl⟩

theorem encoding_snoc {x : UInt8} {c : Char} (begins : read ++ [x] <+: utf8EncodeChar c) :
    utf8EncodeChar c = (read ++ [x]) ++ tail c.toNat (p.owed - 1) := by
  obtain ⟨y, -, -, -, encoded⟩ := awaits.next_digit ((List.prefix_append read [x]).trans begins)
  rw [encoded, List.prefix_append_right_inj] at begins
  obtain ⟨_, joined⟩ := begins
  obtain ⟨rfl, -⟩ := List.cons.inj joined
  rw [encoded, List.append_assoc]
  rfl

theorem next {x : UInt8} (more : p.owed ≠ 1) (within : p.low ≤ x.toNat ∧ x.toNat ≤ p.high) :
    Awaits ⟨p.owed - 1, 0x80, 0xBF, p.bits * 64 + x.toNat % 64⟩ (read ++ [x]) where
  begun := by simp
  owing := by
    have owing := awaits.owing
    dsimp only
    omega
  range := by simp
  possible v fits :=
    awaits.possible v (Pending.fits_of_quotient awaits.owing (awaits.proper within) within fits.1).1
  begins_iff c := by
    rw [awaits.begins_snoc_iff within]
    refine ⟨fun quotient => ⟨quotient, ?_, ?_⟩, And.left⟩ <;> dsimp only [digit] <;> omega
  encoding _ begins := awaits.encoding_snoc begins

theorem encodeChar_last {x : UInt8} (last : p.owed = 1)
    (within : p.low ≤ x.toNat ∧ x.toNat ≤ p.high) :
    utf8EncodeChar (Char.ofNat (p.bits * 64 + x.toNat % 64)) = read ++ [x] := by
  have quotient : (p.bits * 64 + x.toNat % 64) / 64 ^ (p.owed - 1) =
      p.bits * 64 + x.toNat % 64 := by
    rw [last, Nat.sub_self, Nat.pow_zero, Nat.div_one]
  obtain ⟨fits, -⟩ := Pending.fits_of_quotient awaits.owing (awaits.proper within) within quotient
  have value := toNat_ofNat (awaits.possible _ fits)
  have begins := (awaits.begins_snoc_iff within (Char.ofNat (p.bits * 64 + x.toNat % 64))).mpr
    (by rw [value, quotient])
  rw [awaits.encoding_snoc begins, last]
  exact List.append_nil _

end Pending.Awaits

theorem begins_byte_iff (b : UInt8) (c : Char) : [b] <+: utf8EncodeChar c ↔
    c.toNat < 0x80 ∧ b.toNat = c.toNat ∨
    0x80 ≤ c.toNat ∧ c.toNat < 0x800 ∧ b.toNat = 0xC0 + c.toNat / 64 ∨
    0x800 ≤ c.toNat ∧ c.toNat < 0x10000 ∧ b.toNat = 0xE0 + c.toNat / 4096 ∨
    0x10000 ≤ c.toNat ∧ b.toNat = 0xF0 + c.toNat / 262144 := by
  have bound := toNat_lt c
  have first (n : Nat) (small : n < 256) (more : Bytes) :
      [b] <+: UInt8.ofNat n :: more ↔ b.toNat = n := by
    rw [List.cons_prefix_cons, and_iff_left (List.nil_prefix), ← UInt8.toNat_inj,
      UInt8.toNat_ofNat_of_lt' small]
  obtain ⟨small, encoded⟩ | ⟨low, high, encoded⟩ | ⟨low, high, encoded⟩ | ⟨low, encoded⟩ :=
    encodeChar_cases c
  all_goals
    rw [encoded, first _ (by omega)]
    omega

theorem encoding_byte {b : UInt8} {c : Char} (begins : [b] <+: utf8EncodeChar c) : b.toNat < 0x80 ∨
    b.toNat < 0xE0 ∧ utf8EncodeChar c = [b] ++ tail c.toNat 1 ∨
    0xE0 ≤ b.toNat ∧ b.toNat < 0xF0 ∧ utf8EncodeChar c = [b] ++ tail c.toNat 2 ∨
    0xF0 ≤ b.toNat ∧ utf8EncodeChar c = [b] ++ tail c.toNat 3 := by
  have value := (begins_byte_iff b c).mp begins
  obtain ⟨small, -⟩ | ⟨low, high, encoded⟩ | ⟨low, high, encoded⟩ | ⟨low, encoded⟩ :=
    encodeChar_cases c
  · exact .inl (by omega)
  all_goals
    rw [encoded, List.cons_prefix_cons] at begins
    obtain ⟨rfl, -⟩ := begins
  · exact .inr (.inl ⟨by omega, encoded⟩)
  · exact .inr (.inr (.inl ⟨by omega, by omega, encoded⟩))
  · exact .inr (.inr (.inr ⟨by omega, encoded⟩))

section FirstByte

variable {b : UInt8}

theorem awaits_two (least : 0xC2 ≤ b.toNat) (most : b.toNat < 0xE0) :
    Pending.Awaits ⟨1, 0x80, 0xBF, b.toNat - 0xC0⟩ [b] := by
  refine ⟨List.cons_ne_nil _ _, by dsimp only; omega, by dsimp only; omega, ?_,
    fun c => ?_, fun c begins => ?_⟩
  · rintro v ⟨quotient, -⟩
    dsimp only at quotient
    unfold Nat.isValidChar
    omega
  · rw [begins_byte_iff]
    dsimp only [Pending.Fits, digit]
    omega
  · obtain small | ⟨-, encoded⟩ | ⟨low, -⟩ | ⟨low, -⟩ := encoding_byte begins
    · omega
    · exact encoded
    · omega
    · omega

/-- The second byte rules out what two bytes would hold, and the surrogates. -/
theorem awaits_three {low high : Nat} (least : 0xE0 ≤ b.toNat) (most : b.toNat < 0xF0)
    (range : b.toNat = 0xE0 ∧ low = 0xA0 ∧ high = 0xBF ∨ b.toNat = 0xED ∧ low = 0x80 ∧ high = 0x9F ∨
      b.toNat ≠ 0xE0 ∧ b.toNat ≠ 0xED ∧ low = 0x80 ∧ high = 0xBF) :
      Pending.Awaits ⟨2, low, high, b.toNat - 0xE0⟩ [b] := by
  refine ⟨List.cons_ne_nil _ _, by dsimp only; omega, by dsimp only; omega, ?_,
    fun c => ?_, fun c begins => ?_⟩
  · rintro v ⟨quotient, above, below⟩
    dsimp only [digit] at quotient above below
    unfold Nat.isValidChar
    omega
  · have valid := c.valid
    rw [begins_byte_iff]
    unfold UInt32.isValidChar Nat.isValidChar at valid
    dsimp only [Pending.Fits, digit]
    change c.toNat < _ ∨ _ < c.toNat ∧ c.toNat < _ at valid
    omega
  · obtain small | ⟨small, -⟩ | ⟨-, -, encoded⟩ | ⟨great, -⟩ := encoding_byte begins
    · omega
    · omega
    · exact encoded
    · omega

theorem awaits_four {low high : Nat} (least : 0xF0 ≤ b.toNat) (most : b.toNat < 0xF5)
    (range : b.toNat = 0xF0 ∧ low = 0x90 ∧ high = 0xBF ∨ b.toNat = 0xF4 ∧ low = 0x80 ∧ high = 0x8F ∨
      b.toNat ≠ 0xF0 ∧ b.toNat ≠ 0xF4 ∧ low = 0x80 ∧ high = 0xBF) :
      Pending.Awaits ⟨3, low, high, b.toNat - 0xF0⟩ [b] := by
  refine ⟨List.cons_ne_nil _ _, by dsimp only; omega, by dsimp only; omega, ?_,
    fun c => ?_, fun c begins => ?_⟩
  · rintro v ⟨quotient, above, below⟩
    dsimp only [digit] at quotient above below
    unfold Nat.isValidChar
    omega
  · have bound := toNat_lt c
    rw [begins_byte_iff]
    dsimp only [Pending.Fits, digit]
    omega
  · obtain small | ⟨small, -⟩ | ⟨-, small, -⟩ | ⟨-, encoded⟩ := encoding_byte begins
    · omega
    · omega
    · omega
    · exact encoded

theorem not_opens_byte (none_begins : 0x80 ≤ b.toNat ∧ b.toNat < 0xC2 ∨ 0xF5 ≤ b.toNat) :
    ¬ Opens [b] := by
  rintro ⟨c, begins⟩
  have bound := toNat_lt c
  rw [begins_byte_iff] at begins
  omega

theorem encodeChar_byte (small : b.toNat < 0x80) : utf8EncodeChar (Char.ofNat b.toNat) = [b] := by
  have value := toNat_ofNat (v := b.toNat) (.inl (by omega))
  obtain ⟨-, encoded⟩ | ⟨low, -⟩ | ⟨low, -⟩ | ⟨low, -⟩ := encodeChar_cases (Char.ofNat b.toNat)
  · rw [encoded, value, UInt8.ofNat_toNat]
  all_goals omega

/-- The first byte of a character is the whole of it, or begins the characters that are awaited, or
begins none. -/
theorem lead_spec (b : UInt8) : match lead b.toNat with
    | .whole c => utf8EncodeChar c = [b]
    | .part p => p.Awaits [b]
    | .bad => ¬ Opens [b] := by
  have bound := b.toNat_lt
  unfold lead
  by_cases one : b.toNat < 0x80
  · rw [if_pos one]
    exact encodeChar_byte one
  rw [if_neg one]
  by_cases early : b.toNat < 0xC2
  · rw [if_pos early]
    exact not_opens_byte (by omega)
  rw [if_neg early]
  by_cases two : b.toNat < 0xE0
  · rw [if_pos two]
    exact awaits_two (by omega) two
  rw [if_neg two]
  by_cases overlong : b.toNat = 0xE0
  · rw [if_pos overlong]
    exact awaits_three (by omega) (by omega) (.inl ⟨overlong, rfl, rfl⟩)
  rw [if_neg overlong]
  by_cases surrogate : b.toNat = 0xED
  · rw [if_pos surrogate]
    exact awaits_three (by omega) (by omega) (.inr (.inl ⟨surrogate, rfl, rfl⟩))
  rw [if_neg surrogate]
  by_cases three : b.toNat < 0xF0
  · rw [if_pos three]
    exact awaits_three (by omega) three (.inr (.inr ⟨overlong, surrogate, rfl, rfl⟩))
  rw [if_neg three]
  by_cases overlong' : b.toNat = 0xF0
  · rw [if_pos overlong']
    exact awaits_four (by omega) (by omega) (.inl ⟨overlong', rfl, rfl⟩)
  rw [if_neg overlong']
  by_cases four : b.toNat < 0xF4
  · rw [if_pos four]
    exact awaits_four (by omega) (by omega) (.inr (.inr ⟨overlong', by omega, rfl, rfl⟩))
  rw [if_neg four]
  by_cases final : b.toNat = 0xF4
  · rw [if_pos final]
    exact awaits_four (by omega) (by omega) (.inr (.inl ⟨final, rfl, rfl⟩))
  · rw [if_neg final]
    exact not_opens_byte (by omega)

theorem maximalPart_byte (none_begins : ¬ Opens [b]) (rest : Bytes) : MaximalPart [b] rest where
  nonempty := List.cons_ne_nil _ _
  illFormed c begins := by
    cases encoded : utf8EncodeChar c with
    | nil => exact encodeChar_ne_nil c encoded
    | cons x more =>
      rw [encoded] at begins
      obtain rfl := (List.cons_prefix_cons.mp begins).1
      exact none_begins ⟨c, more, encoded.symm⟩
  part := .inl rfl
  longest q begins opens := by
    cases q with
    | nil => exact Nat.zero_le _
    | cons x more =>
      obtain rfl := (List.cons_prefix_cons.mp begins).1
      exact absurd (opens.of_prefix ⟨more, rfl⟩) none_begins

end FirstByte

/-- A repair under way goes on to a repair of what has been read of the pending character and of the
rest. -/
theorem repairs_fold (b : Bytes) (done : List Char) :
    (∃ cs, (b.foldl Repair.step ⟨done, none⟩).close = done.reverse ++ cs ∧ Repairs b cs) ∧
    ∀ p read, Pending.Awaits p read →
      ∃ cs, (b.foldl Repair.step ⟨done, some p⟩).close = done.reverse ++ cs ∧
        Repairs (read ++ b) cs := by
  induction b generalizing done with
  | nil =>
    refine ⟨⟨[], (List.append_nil _).symm, .nil⟩,
      fun p read awaits => ⟨[replacement], List.reverse_cons, ?_⟩⟩
    exact .replaced (awaits.maximalPart (by rintro _ ⟨⟩)) .nil
  | cons x b ih =>
    have fresh (done : List Char) :
        ∃ cs, (b.foldl Repair.step (Repair.start done x.toNat)).close = done.reverse ++ cs ∧
          Repairs (x :: b) cs := by
      have spec := lead_spec x
      unfold Repair.start
      cases first : lead x.toNat with
      | whole c =>
        rw [first] at spec
        obtain ⟨cs, closed, repairs⟩ := (ih (c :: done)).1
        refine ⟨c :: cs, by rw [closed, List.reverse_cons, ← List.append_cons], ?_⟩
        have kept := Repairs.kept c repairs
        rwa [spec] at kept
      | part p =>
        rw [first] at spec
        exact (ih done).2 p [x] spec
      | bad =>
        rw [first] at spec
        obtain ⟨cs, closed, repairs⟩ := (ih (replacement :: done)).1
        refine ⟨replacement :: cs, by rw [closed, List.reverse_cons, ← List.append_cons], ?_⟩
        exact .replaced (maximalPart_byte spec b) repairs
    refine ⟨fresh done, fun p read awaits => ?_⟩
    rw [List.foldl_cons, Repair.step]
    dsimp only
    by_cases within : p.low ≤ x.toNat ∧ x.toNat ≤ p.high
    · rw [if_pos within]
      by_cases last : p.owed = 1
      · rw [if_pos last]
        obtain ⟨cs, closed, repairs⟩ := (ih (Char.ofNat (p.bits * 64 + x.toNat % 64) :: done)).1
        refine ⟨_ :: cs, by rw [closed, List.reverse_cons, ← List.append_cons], ?_⟩
        have kept := Repairs.kept (Char.ofNat (p.bits * 64 + x.toNat % 64)) repairs
        rwa [awaits.encodeChar_last last within, List.append_assoc] at kept
      · rw [if_neg last]
        obtain ⟨cs, closed, repairs⟩ := (ih done).2 _ _ (awaits.next last within)
        rw [List.append_assoc] at repairs
        exact ⟨cs, closed, repairs⟩
    · rw [if_neg within]
      obtain ⟨cs, closed, repairs⟩ := fresh (replacement :: done)
      refine ⟨replacement :: cs, by rw [closed, List.reverse_cons, ← List.append_cons], ?_⟩
      refine .replaced (awaits.maximalPart fun y here => ?_) repairs
      obtain rfl := Option.some.inj here
      exact within

/-! ## Texts -/

theorem encode_eq (s : String) : encode s = s.toList.flatMap utf8EncodeChar := by
  have whole : s.toUTF8 = (s.toList.flatMap utf8EncodeChar).toByteArray :=
    String.utf8Encode_toList.symm
  rw [encode, whole]
  exact List.toList_data_toByteArray

theorem decode?_eq_some {b : Bytes} {s : String} : decode? b = some s ↔ b = encode s := by
  constructor
  · intro decoded
    unfold decode? String.fromUTF8? at decoded
    split at decoded
    · cases decoded
      rfl
    · cases decoded
  · rintro rfl
    exact decode?_encode s

theorem encode_inj {s s' : String} (same : encode s = encode s') : s = s' :=
  Option.some.inj ((decode?_eq_some.mpr same).symm.trans (decode?_encode s)).symm

theorem repairs_chars (cs : List Char) : Repairs (cs.flatMap utf8EncodeChar) cs := by
  induction cs with
  | nil => exact .nil
  | cons c cs ih =>
    rw [List.flatMap_cons]
    exact .kept c ih

theorem repairs_decodeLossy (b : Bytes) : Repairs b (decodeLossy b).toList := by
  rw [decodeLossy]
  cases decoded : decode? b with
  | none =>
    obtain ⟨cs, closed, repairs⟩ := (repairs_fold b []).1
    rw [Option.getD_none, repair, closed, String.toList_ofList]
    exact repairs
  | some s =>
    rw [Option.getD_some, decode?_eq_some.mp decoded, encode_eq]
    exact repairs_chars s.toList

end Utf8

end WireCodec
