import WireCodec.Proofs.Tape.Scanning
import WireCodec.Tape.Entry

/-!
# What a tagged entry is made of

Behind the tag of an entry stands a payload of the size that the tag lays out: of a set size, or as
long as its length field announces. Where the entry leaves the form to the writer, the form that is
chosen holds the value.
-/

set_option autoImplicit false

namespace WireCodec

namespace IntFormat

theorem reduce_narrowest (v : Int64) : (narrowest v.toInt).reduce v.toInt = v.toInt := by
  have low := v.le_toInt
  have high := v.toInt_lt
  unfold narrowest
  generalize v.toInt = n at low high ⊢
  cases found : Width.all.find? (fun w => w.minSigned ≤ n && n ≤ w.maxUnsigned) with
  | none =>
    have misfit := List.find?_eq_none.mp found .b64 (Width.mem_all .b64)
    have least : Width.b64.minSigned = -2 ^ 63 := by decide
    have greatest : (Width.b64.maxUnsigned : Int) = 2 ^ 64 - 1 := by decide
    rw [least, greatest] at misfit
    simp only [Bool.and_eq_true, decide_eq_true_eq] at misfit
    omega
  | some w =>
    have fits := List.find?_some found
    simp only [Bool.and_eq_true, decide_eq_true_eq] at fits
    simp only [Option.getD_some]
    by_cases small : n ≤ w.maxSigned
    · rw [if_pos small]
      exact reduce_of_signed fits.1 small
    · rw [if_neg small]
      have nonneg : 0 ≤ w.maxSigned := by cases w <;> decide
      exact reduce_of_unsigned (by omega) fits.2

theorem ofInt_read_narrowest (v : Int64) :
    Int64.ofInt ((narrowest v.toInt).read (v.toUInt64.toNat % (narrowest v.toInt).width.modulus)) =
      v := by
  rw [read_bits, reduce_narrowest, Int64.ofInt_toInt]

end IntFormat

namespace Entry

def tag? : Entry → Option Tag
  | taggedWord w => some (.integer w.format)
  | taggedFloat32 _ => some .float32
  | taggedFloat64 _ => some .float64
  | complex64 .. => some .complex64
  | complex128 .. => some .complex128
  | taggedBlob c _ => some (.blob c)
  | integer v => some (.integer (.narrowest v.toInt))
  | float p =>
    match FloatForm.narrowest p with
    | .integer v => some (.integer (.narrowest v.toInt))
    | .single _ => some .float32
    | .double _ => some .float64
  | anyBlob b => some (.blob (.ofLength b.length))
  | text s => some (.string (.ofLength (Utf8.encode s).length))
  | bytes _ | word _ | uint .. | float32 _ | float64 _ | blob .. | tag _ => none

theorem counted_eq_ok {c : LengthClass} {payload b : Bytes} (h : counted c payload = .ok b) :
    payload.length ≤ c.maxLength ∧ b = littleDigits c.bytes payload.length ++ payload := by
  unfold counted at h
  by_cases great : c.maxLength < payload.length
  · rw [if_pos great] at h
    cases h
  · rw [if_neg great] at h
    exact ⟨Nat.le_of_not_lt great, (Except.ok.inj h).symm⟩

theorem counted_map_eq_ok {c : LengthClass} {code : UInt8} {payload b : Bytes}
    (h : (counted c payload).map (code :: ·) = .ok b) :
    payload.length ≤ c.maxLength ∧
    b = code :: (littleDigits c.bytes payload.length ++ payload) := by
  cases outcome : counted c payload with
  | error f =>
    rw [outcome] at h
    cases h
  | ok body =>
    rw [outcome] at h
    obtain ⟨fits, body_eq⟩ := counted_eq_ok outcome
    exact ⟨fits, by rw [← body_eq]; exact (Except.ok.inj h).symm⟩

theorem littleDigits_parts (re im : UInt32) :
    littleDigits 8 (re.toNat + im.toNat * 2 ^ 32) =
      littleDigits 4 re.toNat ++ littleDigits 4 im.toNat := by
  have re_lt := re.toNat_lt
  have low : (re.toNat + im.toNat * 2 ^ 32) % 256 ^ 4 = re.toNat := by omega
  have high : (re.toNat + im.toNat * 2 ^ 32) / 256 ^ 4 = im.toNat := by omega
  rw [littleDigits_add 4 4, ← littleDigits_mod 4 (re.toNat + _), low, high]

theorem encode_spans {e : Entry} {t : Tag} {b : Bytes} (tagged : e.tag? = some t)
    (encoded : e.encode = .ok b) :
    ∃ body, b = t.code :: body ∧ t.layout.Spans body := by
  cases e with
  | bytes _ | word _ | uint _ _ | float32 _ | float64 _ | blob _ _ | tag _ => cases tagged
  | taggedWord _ | taggedFloat32 _ | taggedFloat64 _ | complex64 _ _ | integer _ =>
    cases tagged
    cases encoded
    exact ⟨_, rfl, length_littleDigits _ _⟩
  | complex128 re im =>
    cases tagged
    cases encoded
    refine ⟨_, rfl, ?_⟩
    change (littleDigits 8 re.toNat ++ littleDigits 8 im.toNat).length = 16
    rw [List.length_append, length_littleDigits, length_littleDigits]
  | float p =>
    cases form : FloatForm.narrowest p with
    | integer _ | single _ | double _ =>
      simp only [tag?, encode, form] at tagged encoded
      cases tagged
      cases encoded
      exact ⟨_, rfl, length_littleDigits _ _⟩
  | taggedBlob _ _ | anyBlob _ | text _ =>
    cases tagged
    obtain ⟨fits, b_eq⟩ := counted_map_eq_ok encoded
    exact ⟨_, b_eq, _, fits, rfl⟩

end Entry

end WireCodec
