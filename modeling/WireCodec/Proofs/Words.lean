import Mathlib.Tactic.IntervalCases
import Mathlib.Tactic.NormNum
import WireCodec.Proofs.Numerals
import WireCodec.Word

/-!
# Integers through machine words

A width is as good as its number of bytes, 1 to 8. A format holds one integer of each residue class
modulo its power of 256. Writing a word and reading its bytes back in the same format gives the
integer of the format in the class of the one that the word held.
-/

set_option autoImplicit false

namespace WireCodec

/-- The integer of a format's range in the residue class of `v`. -/
def IntFormat.reduce (f : IntFormat) (v : Int) : Int :=
  if f.signed then Int.bmod v f.width.modulus else v % f.width.modulus

/-! ## Widths given as numbers -/

namespace Width

theorem bytes_of_ofBytes? {n : Nat} {w : Width} (h : ofBytes? n = some w) : w.bytes = n := by
  have same := List.find?_some h
  simpa using same

theorem ofBytes?_eq_none {n : Nat} : ofBytes? n = none ↔ ¬ (1 ≤ n ∧ n ≤ 8) := by
  constructor
  · intro unknown fits
    obtain ⟨low, high⟩ := fits
    interval_cases n <;> cases unknown
  · intro misfit
    apply List.find?_eq_none.mpr
    intro w _ same
    have low := w.bytes_pos
    have high := w.bytes_le
    simp only [beq_iff_eq] at same
    omega

theorem ofBytes_of_misfit {n : Nat} (misfit : ¬ (1 ≤ n ∧ n ≤ 8)) :
    ofBytes n = .error (.width n) := by
  rw [ofBytes, ofBytes?_eq_none.mpr misfit]

theorem exists_bytes {n : Nat} (fits : 1 ≤ n ∧ n ≤ 8) : ∃ w : Width, w.bytes = n := by
  cases known : ofBytes? n with
  | none => exact absurd fits (ofBytes?_eq_none.mp known)
  | some w => exact ⟨w, bytes_of_ofBytes? known⟩

end Width

/-! ## Residues -/

theorem Width.modulus_pos (w : Width) : 0 < w.modulus := Nat.pow_pos (by decide)

theorem Order.value_lt_modulus (o : Order) {w : Width} {b : Bytes} (size : b.length = w.bytes) :
    o.value b < w.modulus := by
  have bound := o.value_lt b
  rwa [size] at bound

theorem ofNat_toNat_mod32 (p : UInt32) : UInt32.ofNat (p.toNat % Width.b32.modulus) = p := by
  have bound : p.toNat < Width.b32.modulus := p.toNat_lt
  rw [Nat.mod_eq_of_lt bound, UInt32.ofNat_toNat]

theorem ofNat_toNat_mod64 (p : UInt64) : UInt64.ofNat (p.toNat % Width.b64.modulus) = p := by
  have bound : p.toNat < Width.b64.modulus := p.toNat_lt
  rw [Nat.mod_eq_of_lt bound, UInt64.ofNat_toNat]

theorem bmod_bmod_of_le (v : Int) {m k : Nat} (hm : 0 < m) (h : m ≤ k) :
    Int.bmod (Int.bmod v m) k = Int.bmod v m := by
  have low := Int.le_bmod (x := v) hm
  have high := Int.bmod_lt (x := v) hm
  apply Int.bmod_eq_of_le <;> omega

theorem IntFormat.toInt_word (f : IntFormat) {n : Nat} (h : n < f.width.modulus) :
    (f.word n).toInt = f.read n := by
  obtain ⟨signed, w⟩ := f
  cases signed with
  | false =>
    cases w <;> simp [IntFormat.word, IntFormat.read, Word.toInt, Width.modulus,
      Width.bytes] at h ⊢ <;> omega
  | true =>
    cases w <;>
      simp [IntFormat.word, IntFormat.read, Word.toInt, Width.toSigned, Width.modulus,
        Width.bytes, Int8.size, Int16.size, Int32.size, Int64.size, bmod_bmod_of_le]

theorem IntFormat.read_residue (f : IntFormat) (v : Int) :
    f.read (v % f.width.modulus).toNat = f.reduce v := by
  have pos : (f.width.modulus : Int) ≠ 0 := by exact_mod_cast f.width.modulus_pos.ne'
  have cast : ((v % f.width.modulus).toNat : Int) = v % f.width.modulus :=
    Int.toNat_of_nonneg (Int.emod_nonneg v pos)
  unfold IntFormat.read IntFormat.reduce Width.toSigned
  rw [cast, Int.emod_bmod]

theorem IntFormat.reduce_of_signed {w : Width} {v : Int} (low : w.minSigned ≤ v)
    (high : v ≤ w.maxSigned) :
    (twosComplement w).reduce v = v := by
  have half : (w.modulus : Int) = 2 * 2 ^ (w.bits - 1) := by cases w <;> decide
  unfold Width.minSigned at low
  unfold Width.maxSigned at high
  change Int.bmod v w.modulus = v
  apply Int.bmod_eq_of_le <;> omega

theorem IntFormat.reduce_of_unsigned {w : Width} {v : Int} (low : 0 ≤ v)
    (high : v ≤ w.maxUnsigned) :
    (unsigned w).reduce v = v := by
  have pos := w.modulus_pos
  unfold Width.maxUnsigned at high
  change v % (w.modulus : Int) = v
  exact Int.emod_eq_of_lt low (by omega)

theorem natCast_toNat {n : Nat} (b : BitVec n) : (b.toNat : Int) = b.toInt % (2 ^ n : Nat) := by
  have bound : (b.toNat : Int) < (2 ^ n : Nat) := by exact_mod_cast b.isLt
  rw [BitVec.toInt_eq_toNat_bmod, Int.bmod_emod, Int.emod_eq_of_lt (Int.natCast_nonneg _) bound]

theorem toNat_mod_of_toInt {n m k : Nat} (low : k ≤ n) (low' : k ≤ m) {b : BitVec n} {c : BitVec m}
    (same : c.toInt = b.toInt) : b.toNat % 2 ^ k = c.toNat % 2 ^ k := by
  have residue {l : Nat} (d : BitVec l) (low : k ≤ l) :
      ((d.toNat % 2 ^ k : Nat) : Int) = d.toInt % (2 ^ k : Nat) := by
    have power : ((2 ^ k : Nat) : Int) ∣ (2 ^ l : Nat) := by exact_mod_cast Nat.pow_dvd_pow 2 low
    rw [Int.natCast_emod, natCast_toNat, Int.emod_emod_of_dvd _ power]
  exact Int.natCast_inj.mp (by rw [residue b low, residue c low', same])

namespace Word

theorem bits_residue (w : Word) :
    (w.bits.toNat : Int) % w.format.width.modulus = w.toInt % w.format.width.modulus := by
  cases w with
  | u8 v | u16 v | u24 v | u32 v | u40 v | u48 v | u56 v | u64 v =>
    simp [bits, format, toInt, IntFormat.unsigned]
  | i8 v | i16 v | i24 v | i32 v =>
    have h := natCast_toNat v.toInt64.toBitVec
    have same : v.toInt64.toBitVec.toInt = v.toInt := by change v.toInt64.toInt = v.toInt; simp
    rw [same] at h
    simp only [bits, format, toInt, IntFormat.twosComplement, Width.modulus, Width.bytes]
    change (v.toInt64.toBitVec.toNat : Int) % _ = _
    omega
  | i40 v | i48 v | i56 v | i64 v =>
    have h := natCast_toNat v.toBitVec
    simp only [bits, format, toInt, IntFormat.twosComplement, Width.modulus, Width.bytes]
    change (v.toBitVec.toNat : Int) % _ = v.toBitVec.toInt % _
    omega

theorem encode_eq_digits (o : Order) (w : Word) :
    w.encode o = o.digits w.format.width.bytes w.bits.toNat := by
  cases w with
  | u8 v =>
    have whole : UInt8.ofNat (v.toNat % 256) = v := by simp
    exact ((o.digits_one _).trans (congrArg (fun b => [b]) whole)).symm
  | u16 v | u24 v | u32 v | u40 v | u48 v | u56 v | u64 v | i40 v | i48 v | i56 v | i64 v => rfl
  | i8 v =>
    have whole : UInt8.ofNat (v.toUInt8.toNat % 256) = v.toUInt8 := by simp
    rw [encode, ← whole, ← o.digits_one]
    exact o.digits_congr (toNat_mod_of_toInt (k := 8) (by decide) (by decide) v.toInt_toInt64)
  | i16 v =>
    exact o.digits_congr (toNat_mod_of_toInt (k := 16) (by decide) (by decide) v.toInt_toInt64)
  | i24 v =>
    exact o.digits_congr (toNat_mod_of_toInt (k := 24) (by decide) (by decide) v.toInt_toInt64)
  | i32 v =>
    exact o.digits_congr (toNat_mod_of_toInt (k := 32) (by decide) (by decide) v.toInt_toInt64)

theorem toInt_word_bits (w : Word) :
    (w.format.word (w.bits.toNat % w.format.width.modulus)).toInt = w.format.reduce w.toInt := by
  have h : ((w.bits.toNat % w.format.width.modulus : Nat) : Int) =
      w.toInt % w.format.width.modulus := by
    rw [Int.natCast_emod, w.bits_residue]
  rw [IntFormat.toInt_word _ (Nat.mod_lt _ (Width.modulus_pos _)), ← IntFormat.read_residue, ← h,
    Int.toNat_natCast]

end Word

theorem Width.modulus_dvd (w : Width) : w.modulus ∣ 2 ^ 64 := by cases w <;> decide

theorem IntFormat.read_bits (f : IntFormat) (v : Int64) :
    f.read (v.toUInt64.toNat % f.width.modulus) = f.reduce v.toInt := by
  have h := natCast_toNat v.toBitVec
  change (v.toUInt64.toNat : Int) = v.toInt % (2 ^ 64 : Nat) at h
  have dvd : (f.width.modulus : Int) ∣ (2 ^ 64 : Nat) := by exact_mod_cast f.width.modulus_dvd
  have low : ((v.toUInt64.toNat % f.width.modulus : Nat) : Int) = v.toInt % f.width.modulus := by
    rw [Int.natCast_emod, h, Int.emod_emod_of_dvd _ dvd]
  rw [← f.read_residue, ← low, Int.toNat_natCast]

/-! ## Signs by shifts -/

/-- The low `bits` bits of `v`, moved up to the end of the word and down again with their sign. -/
def signExtend (v : UInt64) (bits : Nat) : Int64 :=
  let shift := 64 - bits
  (v <<< UInt64.ofNat shift).toInt64 >>> Int64.ofNat shift

theorem bmod_mul (x : Int) {h m : Nat} (pos : 0 < h) (scale : 0 < m) :
    Int.bmod (x * m) (2 * h * m) = Int.bmod x (2 * h) * m := by
  have low := Int.le_bmod (x := x) (m := 2 * h) (by omega)
  have high := Int.bmod_lt (x := x) (m := 2 * h) (by omega)
  have split := Int.bmod_add_bdiv x (2 * h)
  have whole : x * m = Int.bmod x (2 * h) * m + (2 * h * m : Nat) * Int.bdiv x (2 * h) := by
    nth_rewrite 1 [← split]
    push_cast
    ring
  have low_scaled : -(h * m : Int) ≤ Int.bmod x (2 * h) * m := by
    rw [← neg_mul]
    gcongr
    omega
  have high_scaled : Int.bmod x (2 * h) * m < h * m := by
    gcongr
    omega
  have half : ((2 * h * m : Nat) : Int) = 2 * (h * m : Int) := by
    push_cast
    ring
  rw [whole, Int.add_mul_bmod_self_left]
  apply Int.bmod_eq_of_le <;> omega

theorem toInt_sshiftRight_shiftLeft (b : BitVec 64) {k : Nat} (wide : k < 64) :
    ((b <<< k).sshiftRight k).toInt = Int.bmod b.toNat (2 ^ (64 - k)) := by
  obtain ⟨j, rest⟩ : ∃ j, 64 - k = j + 1 := ⟨63 - k, by omega⟩
  have size : 2 ^ 64 = 2 * 2 ^ j * 2 ^ k := by
    rw [← pow_succ', ← pow_add, ← rest, Nat.sub_add_cancel (Nat.le_of_lt wide)]
  have scaled : ((b.toNat <<< k : Nat) : Int) = (b.toNat : Int) * (2 ^ k : Nat) := by
    rw [Nat.shiftLeft_eq, Nat.cast_mul]
  rw [BitVec.toInt_sshiftRight, BitVec.toInt_shiftLeft, scaled, size,
    bmod_mul _ (by positivity) (by positivity), Int.shiftRight_eq_div_pow,
    Int.mul_ediv_cancel _ (by positivity), rest, pow_succ']

theorem toInt_signExtend (v : UInt64) (w : Width) :
    (signExtend v w.bits).toInt = w.toSigned v.toNat := by
  cases w <;> exact toInt_sshiftRight_shiftLeft v.toBitVec (by decide)

theorem toInt_signExtend_ofNat (w : Width) {n : Nat} (small : n < w.modulus) :
    (signExtend (UInt64.ofNat n) w.bits).toInt = w.toSigned n := by
  have most : w.modulus ≤ 2 ^ 64 := Nat.le_of_dvd (by decide) w.modulus_dvd
  rw [toInt_signExtend, UInt64.toNat_ofNat_of_lt' (small.trans_le most)]

namespace Width

variable (w : Width)

theorem toSigned_bounds (n : Nat) :
    -2 ^ (w.bits - 1) ≤ w.toSigned n ∧ w.toSigned n < 2 ^ (w.bits - 1) := by
  have half : (w.modulus : Int) = 2 * 2 ^ (w.bits - 1) := by cases w <;> decide
  have low := Int.le_bmod (x := n) w.modulus_pos
  have high := Int.bmod_lt (x := n) w.modulus_pos
  constructor <;> unfold toSigned <;> omega

theorem toSigned_residue (n : Nat) : w.toSigned n % w.modulus = n % w.modulus := Int.bmod_emod

theorem eq_toSigned {u : Int} {n : Nat} (low : -2 ^ (w.bits - 1) ≤ u) (high : u < 2 ^ (w.bits - 1))
    (residue : u % w.modulus = n % w.modulus) : u = w.toSigned n := by
  have same := IntFormat.reduce_of_signed low (Int.le_sub_one_of_lt high)
  change Int.bmod u w.modulus = u at same
  rw [toSigned, ← same, ← Int.emod_bmod, residue, Int.emod_bmod]

end Width

end WireCodec
