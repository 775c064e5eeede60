import Mathlib.Order.Bounds.Defs
import WireCodec.Misuse
import WireCodec.Proofs.Register

/-!
# The shortest form of a number in base 128

A number can be padded with zero digits, so that many byte strings stand for it. The one that is
written is shorter than all the others. A machine writes it digit by digit, with shifts, and each
digit finds its place in a buffer of ten bytes; it numbers the signed integers with shifts too.
-/

set_option autoImplicit false

namespace WireCodec

def Bytes.poke (b : Bytes) (i : Nat) (x : UInt8) : Except Misuse Bytes :=
  if i < b.length then .ok (b.overlay i [x]) else .error .shortSlice

namespace Leb128

theorem toNat_shift (v : UInt64) : (v >>> 7).toNat = v.toNat / 128 := by
  rw [UInt64.toNat_shiftRight]
  exact Nat.shiftRight_eq_div_pow v.toNat 7

/-- Stores the digits of a number from an index on, and returns the index behind them. -/
def putFrom (buffer : Bytes) (i : Nat) (v : UInt64) : Except Misuse (Nat × Bytes) :=
  if 0x80 ≤ v then do
    let buffer ← buffer.poke i (v.toUInt8 &&& 0x7f ||| 0x80)
    putFrom buffer (i + 1) (v >>> 7)
  else do
    let buffer ← buffer.poke i v.toUInt8
    pure (i + 1, buffer)
termination_by v.toNat
decreasing_by
  have great : (0x80 : UInt64).toNat ≤ v.toNat := UInt64.le_iff_toNat_le.mp (by assumption)
  rw [toNat_shift]
  change 128 ≤ v.toNat at great
  omega

/-- What is said to bytes fed one after another, up to the end of a number or a failure. -/
def Accumulator.answers : Accumulator → Bytes → List (Except Unit (Option UInt64))
  | _, [] => []
  | a, b :: bs =>
    match a.feed b with
    | .done v => [.ok (some (UInt64.ofNat v))]
    | .more a' => .ok none :: a'.answers bs
    | .overflow => [.error ()]

def Register.answers : Register → Bytes → List (Except Unit (Option UInt64))
  | _, [] => []
  | g, b :: bs =>
    match g.feed b with
    | .ok (some v, _) => [.ok (some v)]
    | .ok (none, g') => .ok none :: g'.answers bs
    | .error () => [.error ()]

/-- The bytes stand for the number: more are wanted behind each of them but the last. -/
def Accepts (b : Bytes) (v : UInt64) : Prop :=
  Accumulator.start.answers b = List.replicate (b.length - 1) (.ok none) ++ [.ok (some v)]

instance (b : Bytes) (v : UInt64) : Decidable (Accepts b v) := inferInstanceAs (Decidable (_ = _))

theorem Register.answers_of_holds {g : Register} {a : Accumulator} (holds : g.Holds a) (b : Bytes) :
    g.answers b = a.answers b := by
  induction b generalizing g a with
  | nil => rfl
  | cons x b ih =>
    have fed := Register.feed_of_holds holds x
    rw [answers, Accumulator.answers]
    cases step : a.feed x with
    | done v =>
      rw [step] at fed
      obtain ⟨-, g', fed⟩ := fed
      rw [fed]
    | more a' =>
      rw [step] at fed
      obtain ⟨g', fed, holds'⟩ := fed
      rw [fed]
      exact congrArg _ (ih holds')
    | overflow =>
      rw [step] at fed
      dsimp only at fed
      rw [fed]

/-! ## Which bytes stand for a number -/

/-- All of the bytes but the last have their top bit set. -/
def Marked : Bytes → Prop
  | [] => False
  | [b] => b.toNat < 128
  | b :: c :: bs => 128 ≤ b.toNat ∧ Marked (c :: bs)

/-- The bytes stand for the number, within ten bytes and 64 bits, be they as few as can be or
not. -/
structure Numeral (b : Bytes) (n : Nat) : Prop where
  marked : Marked b
  short : b.length ≤ maxBytes
  value : total b = n
  fits : n < 2 ^ 64

instance decidableMarked : (b : Bytes) → Decidable (Marked b)
  | [] => inferInstanceAs (Decidable False)
  | [b] => inferInstanceAs (Decidable (b.toNat < 128))
  | b :: c :: bs =>
    have := decidableMarked (c :: bs)
    inferInstanceAs (Decidable (128 ≤ b.toNat ∧ Marked (c :: bs)))

instance (b : Bytes) (n : Nat) : Decidable (Numeral b n) :=
  decidable_of_iff (Marked b ∧ b.length ≤ maxBytes ∧ total b = n ∧ n < 2 ^ 64)
    ⟨fun ⟨marked, short, value, fits⟩ => ⟨marked, short, value, fits⟩,
      fun ⟨marked, short, value, fits⟩ => ⟨marked, short, value, fits⟩⟩

theorem two_pow_le_total {c : Bytes} {x : UInt8} (nine : c.length = 9) (big : 2 ≤ x.toNat % 128) :
    2 ^ 64 ≤ total (c ++ [x]) := by
  rw [total_append, total_single, nine]
  omega

theorem answers_single (c : Bytes) (x : UInt8) (room : c.length < maxBytes) (v : UInt64) :
    (Accumulator.after c).answers [x] = [.ok (some v)] ↔
      x.toNat < 128 ∧ total (c ++ [x]) = v.toNat := by
  have small := v.toNat_lt
  unfold maxBytes at room
  by_cases beyond : c.length = 9 ∧ 1 < x.toNat
  · rw [Accumulator.answers, Accumulator.feed_over beyond.1 beyond.2]
    have above (low : x.toNat < 128) := two_pow_le_total (x := x) beyond.1 (by omega)
    constructor
    · intro same
      cases same
    · rintro ⟨low, value⟩
      have := above low
      omega
  · by_cases low : x.toNat < 128
    · have tenth : c.length = 9 → x.toNat ≤ 1 :=
        fun nine => Nat.le_of_not_lt fun big => beyond ⟨nine, big⟩
      have fits := total_lt_of_tenth (by omega) tenth
      rw [Accumulator.answers, Accumulator.feed_low low tenth]
      simp only [List.cons.injEq, Except.ok.injEq, Option.some.injEq, and_true, low, true_and]
      rw [← UInt64.toNat_inj, UInt64.toNat_ofNat_of_lt' fits]
    · have next : c.length + 1 < maxBytes := by
        unfold maxBytes
        omega
      rw [Accumulator.answers, Accumulator.feed_high (Nat.le_of_not_lt low) next]
      simp [low]

theorem answers_cons (c : Bytes) (x y : UInt8) (b : Bytes) (room : c.length < maxBytes)
    (v : UInt64) :
    (Accumulator.after c).answers (x :: y :: b) =
      List.replicate (b.length + 1) (.ok none) ++ [.ok (some v)] ↔
      128 ≤ x.toNat ∧ c.length + 1 < maxBytes ∧
        (Accumulator.after (c ++ [x])).answers (y :: b) =
          List.replicate b.length (.ok none) ++ [.ok (some v)] := by
  rw [List.replicate_succ, List.cons_append, Accumulator.answers]
  unfold maxBytes at room
  by_cases beyond : c.length = 9 ∧ 1 < x.toNat
  · rw [Accumulator.feed_over beyond.1 beyond.2]
    simp [maxBytes, beyond.1]
  · by_cases low : x.toNat < 128
    · have tenth : c.length = 9 → x.toNat ≤ 1 :=
        fun nine => Nat.le_of_not_lt fun big => beyond ⟨nine, big⟩
      rw [Accumulator.feed_low low tenth]
      simp [Nat.not_le.mpr low]
    · have next : c.length + 1 < maxBytes := by
        unfold maxBytes
        omega
      rw [Accumulator.feed_high (Nat.le_of_not_lt low) next]
      simp [Nat.le_of_not_lt low, next]

theorem answers_after (b c : Bytes) (room : c.length < maxBytes) (v : UInt64) :
    (Accumulator.after c).answers b = List.replicate (b.length - 1) (.ok none) ++ [.ok (some v)] ↔
      Marked b ∧ c.length + b.length ≤ maxBytes ∧ total (c ++ b) = v.toNat := by
  -- On the bytes, for any digits before them: each byte that is fed moves from the ones to the
  -- others.
  induction b generalizing c with
  | nil => simp [Accumulator.answers, Marked]
  | cons x b ih =>
    cases b with
    | nil =>
      have within : c.length + [x].length ≤ maxBytes := room
      rw [Marked, and_iff_right within]
      exact answers_single c x room v
    | cons y b =>
      have longer : (c ++ [x]).length = c.length + 1 := by
        rw [List.length_append, List.length_singleton]
      have goes_on := answers_cons c x y b room v
      rw [List.length_cons, Nat.add_sub_cancel, List.length_cons, goes_on, Marked, and_assoc]
      refine and_congr_right fun _ => ⟨fun ⟨next, rest⟩ => ?_, fun ⟨marked, short, value⟩ => ?_⟩
      · obtain ⟨marked, short, value⟩ := (ih (c ++ [x]) (longer.trans_lt next)).mp rest
        rw [longer, List.length_cons] at short
        rw [← List.append_cons] at value
        exact ⟨marked, by omega, value⟩
      · have next : c.length + 1 < maxBytes := by omega
        refine ⟨next, (ih (c ++ [x]) (longer.trans_lt next)).mpr ⟨marked, ?_, ?_⟩⟩
        · rw [longer, List.length_cons]
          omega
        · rwa [← List.append_cons]

theorem accepts_iff (b : Bytes) (v : UInt64) : Accepts b v ↔ Numeral b v.toNat := by
  have read := answers_after b [] (by decide) v
  rw [List.length_nil, Nat.zero_add, List.nil_append] at read
  exact read.trans ⟨fun ⟨marked, short, value⟩ => ⟨marked, short, value, v.toNat_lt⟩,
    fun ⟨marked, short, value, _⟩ => ⟨marked, short, value⟩⟩

theorem marked_cons {b : UInt8} {bs : Bytes} (high : 128 ≤ b.toNat) (marked : Marked bs) :
    Marked (b :: bs) := by
  cases bs with
  | nil => exact marked.elim
  | cons c bs => exact ⟨high, marked⟩

theorem marked_iff {b : Bytes} :
    Marked b ↔ ∃ (c : Bytes) (last : UInt8),
      b = c ++ [last] ∧ (∀ x ∈ c, 128 ≤ x.toNat) ∧ last.toNat < 128 := by
  constructor
  · intro marked
    induction b with
    | nil => exact marked.elim
    | cons x b ih =>
      cases b with
      | nil => exact ⟨[], x, rfl, fun _ none => (List.not_mem_nil none).elim, marked⟩
      | cons y b =>
        obtain ⟨high, marked⟩ := marked
        obtain ⟨c, last, same, highs, low⟩ := ih marked
        refine ⟨x :: c, last, congrArg (x :: ·) same, ?_, low⟩
        exact List.forall_mem_cons.mpr ⟨high, highs⟩
  · rintro ⟨c, last, rfl, high, low⟩
    induction c with
    | nil => exact low
    | cons x c ih =>
      obtain ⟨first, others⟩ := List.forall_mem_cons.mp high
      exact marked_cons first (ih others)

theorem numeral_iff (b : Bytes) (n : Nat) :
    Numeral b n ↔ ∃ (c : Bytes) (last : UInt8), b = c ++ [last] ∧
      (∀ x ∈ c, 128 ≤ x.toNat) ∧ last.toNat < 128 ∧ c.length ≤ 9 ∧
      (c.length = 9 → last.toNat ≤ 1) ∧ total b = n := by
  constructor
  · intro numeral
    obtain ⟨c, last, rfl, high, low⟩ := marked_iff.mp numeral.marked
    have short := numeral.short
    rw [List.length_append, List.length_singleton] at short
    refine ⟨c, last, rfl, high, low, Nat.le_of_succ_le_succ short, fun nine => ?_, numeral.value⟩
    by_contra big
    have above := two_pow_le_total (x := last) nine (by omega)
    have fits := numeral.fits
    rw [← numeral.value] at fits
    omega
  · rintro ⟨c, last, rfl, high, low, few, tenth, rfl⟩
    refine ⟨marked_iff.mpr ⟨c, last, rfl, high, low⟩, ?_, rfl, total_lt_of_tenth few tenth⟩
    rw [List.length_append, List.length_singleton]
    exact Nat.succ_le_succ few

/-! ## The shortest of them -/

theorem encode_low {n : Nat} (low : n < 128) : encode n = [UInt8.ofNat n] := by
  rw [encode, if_pos low]

theorem encode_high {n : Nat} (high : 128 ≤ n) :
    encode n = UInt8.ofNat (n % 128 + 128) :: encode (n / 128) := by
  rw [encode, if_neg (Nat.not_lt.mpr high)]

theorem marked_encode (n : Nat) : Marked (encode n) := by
  induction n using Nat.strongRecOn with
  | ind n ih =>
    by_cases low : n < 128
    · rw [encode_low low, Marked, UInt8.toNat_ofNat']
      omega
    · have high : 128 ≤ n := Nat.le_of_not_lt low
      rw [encode_high high]
      refine marked_cons ?_ (ih (n / 128) (by omega))
      rw [UInt8.toNat_ofNat']
      omega

theorem total_encode (n : Nat) : total (encode n) = n := by
  induction n using Nat.strongRecOn with
  | ind n ih =>
    by_cases low : n < 128
    · rw [encode_low low, total_single, UInt8.toNat_ofNat']
      omega
    · have high : 128 ≤ n := Nat.le_of_not_lt low
      rw [encode_high high, total, ih (n / 128) (by omega), UInt8.toNat_ofNat']
      omega

theorem length_pos_of_marked {b : Bytes} (marked : Marked b) : 0 < b.length := by
  cases b with
  | nil => exact marked.elim
  | cons x b => exact Nat.succ_pos _

theorem numeral_encode {n : Nat} (fits : n < 2 ^ 64) : Numeral (encode n) n where
  marked := marked_encode n
  short := length_encode_le (fits.trans_le (by decide)) (by decide)
  value := total_encode n
  fits := fits

theorem isLeast_length_encode (n : Nat) :
    IsLeast {k | 1 ≤ k ∧ n < 2 ^ (7 * k)} (encode n).length := by
  have within := total_lt (encode n)
  rw [total_encode, pow_places] at within
  refine ⟨⟨length_pos_of_marked (marked_encode n), within⟩, ?_⟩
  rintro k ⟨pos, holds⟩
  rw [← pow_places] at holds
  exact length_encode_le holds pos

theorem length_encode_le_iff {n k : Nat} (pos : 1 ≤ k) :
    (encode n).length ≤ k ↔ n < 2 ^ (7 * k) := by
  have least := isLeast_length_encode n
  refine ⟨fun short => least.1.2.trans_le ?_, fun holds => least.2 ⟨pos, holds⟩⟩
  exact Nat.pow_le_pow_right (by decide) (Nat.mul_le_mul_left 7 short)

theorem eq_of_total {b c : Bytes} (marked : Marked b) (marked' : Marked c)
    (length : b.length = c.length) (value : total b = total c) : b = c := by
  induction b generalizing c with
  | nil => exact marked.elim
  | cons x b ih =>
    obtain ⟨y, c, rfl⟩ := List.exists_cons_of_length_pos (length_pos_of_marked marked')
    have tails : b.length = c.length := Nat.succ.inj length
    rw [total, total] at value
    cases b with
    | nil =>
      obtain rfl := List.length_eq_zero_iff.mp tails.symm
      have low : x.toNat < 128 := marked
      have low' : y.toNat < 128 := marked'
      rw [total, Nat.mod_eq_of_lt low, Nat.mod_eq_of_lt low'] at value
      rw [UInt8.toNat_inj.mp value]
    | cons z b =>
      have more : 0 < c.length := (Nat.succ_pos b.length).trans_eq tails
      obtain ⟨w, c, rfl⟩ := List.exists_cons_of_length_pos more
      obtain ⟨high, marked⟩ := marked
      obtain ⟨high', marked'⟩ := marked'
      have small := x.toNat_lt
      have small' := y.toNat_lt
      have same : x = y := UInt8.toNat_inj.mp (by omega)
      rw [same, ih marked marked' tails (by omega)]

theorem length_encode_lt {b : Bytes} {n : Nat} (marked : Marked b) (value : total b = n)
    (other : b ≠ encode n) :
    (encode n).length < b.length := by
  have within := total_lt b
  rw [value] at within
  refine Nat.lt_of_le_of_ne (length_encode_le within (length_pos_of_marked marked))
    fun same => other ?_
  exact eq_of_total marked (marked_encode n) same.symm (value.trans (total_encode n).symm)

def Shortest (b : Bytes) (n : Nat) : Prop := Numeral b n ∧ ∀ c, Numeral c n → b.length ≤ c.length

theorem shortest_encode {n : Nat} (fits : n < 2 ^ 64) : Shortest (encode n) n := by
  refine ⟨numeral_encode fits, fun c numeral => ?_⟩
  have within := total_lt c
  rw [numeral.value] at within
  exact length_encode_le within (length_pos_of_marked numeral.marked)

theorem Shortest.unique {n : Nat} {b c : Bytes} (h : Shortest b n) (h' : Shortest c n) : b = c :=
  eq_of_total h.1.marked h'.1.marked (Nat.le_antisymm (h.2 c h'.1) (h'.2 b h.1))
    (h.1.value.trans h'.1.value.symm)

/-! ## Storing a number -/

theorem toNat_more (v : UInt64) : (v.toUInt8 &&& 0x7f ||| 0x80).toNat = v.toNat % 128 + 128 := by
  have low : (v.toUInt8 &&& 0x7f).toNat = v.toNat % 128 := by
    rw [toNat_low, UInt64.toNat_toUInt8]
    omega
  have small : v.toNat % 128 < 2 ^ 7 := Nat.mod_lt _ (by decide)
  rw [UInt8.toNat_or, low, Nat.or_comm, Nat.add_comm]
  exact (Nat.two_pow_add_eq_or_of_lt small 1).symm

theorem poke_of_lt {b : Bytes} {i : Nat} (inside : i < b.length) (x : UInt8) :
    b.poke i x = .ok (b.overlay i [x]) :=
  if_pos inside

theorem putFrom_eq (buffer : Bytes) (i : Nat) (v : UInt64)
    (fits : i + (encode v.toNat).length ≤ buffer.length) :
    putFrom buffer i v = .ok (i + (encode v.toNat).length, buffer.overlay i (encode v.toNat)) := by
  fun_induction putFrom buffer i v with
  | case1 buffer i v great ih =>
    have high : 128 ≤ v.toNat := UInt64.le_iff_toNat_le.mp great
    have digit : v.toUInt8 &&& 0x7f ||| 0x80 = UInt8.ofNat (v.toNat % 128 + 128) := by
      rw [← toNat_more, UInt8.ofNat_toNat]
    rw [encode_high high, List.length_cons] at fits
    have inside : i < buffer.length := by omega
    have same := buffer.length_overlay i [UInt8.ofNat (v.toNat % 128 + 128)] inside
    rw [poke_of_lt inside, digit]
    change putFrom _ _ _ = _
    rw [← toNat_shift] at fits
    have stored := ih (buffer.overlay i [UInt8.ofNat (v.toNat % 128 + 128)]) (by rw [same]; omega)
    have joined :=
      buffer.overlay_append [UInt8.ofNat (v.toNat % 128 + 128)] (encode (v >>> 7).toNat) i inside
    rw [List.length_singleton] at joined
    rw [stored, joined, toNat_shift, encode_high high, List.length_cons, List.singleton_append,
      Nat.add_assoc, Nat.add_comm 1]
  | case2 buffer i v small =>
    have low : v.toNat < 128 :=
      Nat.lt_of_not_le fun great => small (UInt64.le_iff_toNat_le.mpr great)
    have digit : v.toUInt8 = UInt8.ofNat v.toNat := UInt8.toNat_inj.mp (by simp)
    rw [encode_low low] at fits ⊢
    rw [poke_of_lt fits, digit]
    rfl

end Leb128

/-! ## Numbering the signed integers -/

namespace Zigzag

/-- The number of a signed integer as a machine finds it: the sign is spread over the word and flips
the other bits. -/
def fold (v : Int64) : UInt64 := (v <<< 1 ^^^ v >>> 63).toUInt64

def unfold (u : UInt64) : Int64 := (u >>> 1).toInt64 ^^^ -(u &&& 1).toInt64

theorem sign_spread (v : Int64) : v >>> 63 = if v.toInt < 0 then -1 else 0 := by
  have low := v.le_toInt
  have high := v.toInt_lt
  have shifted : (v >>> 63).toInt = v.toInt >>> (63 : Nat) := by
    rw [← Int64.toInt_toBitVec, Int64.toBitVec_shiftRight]
    simp
  rw [← Int64.toInt_inj, shifted, Int.shiftRight_eq_div_pow]
  split
  · change v.toInt / 2 ^ 63 = -1
    omega
  · change v.toInt / 2 ^ 63 = 0
    omega

theorem toNat_double (v : Int64) : (v <<< 1).toUInt64.toNat = 2 * v.toUInt64.toNat % 2 ^ 64 := by
  rw [← Int64.toNat_toBitVec, Int64.toBitVec_shiftLeft]
  simp [Nat.shiftLeft_eq, Nat.mul_comm, Int64.toNat_toBitVec]

theorem toInt_eq (v : Int64) :
    v.toInt =
      if v.toUInt64.toNat < 2 ^ 63 then (v.toUInt64.toNat : Int)
      else v.toUInt64.toNat - 2 ^ 64 := by
  rw [← Int64.toInt_toBitVec, BitVec.toInt_eq_toNat_cond, Int64.toNat_toBitVec]
  split <;> split <;> omega

theorem fold_eq (v : Int64) : fold v = toUnsigned v := by
  have bits := toInt_eq v
  have small := v.toUInt64.toNat_lt
  apply UInt64.toNat_inj.mp
  rw [fold, sign_spread, toUnsigned]
  by_cases negative : v.toInt < 0
  · have flipped : (v <<< 1 ^^^ -1).toUInt64.toNat =
        2 ^ 64 - 1 - 2 * v.toUInt64.toNat % 2 ^ 64 := by
      rw [Int64.xor_neg_one, Int64.toUInt64_not, UInt64.toNat_not, toNat_double]
      rfl
    rw [if_pos negative, if_neg (Int.not_le.mpr negative), flipped, UInt64.toNat_ofNat']
    split at bits <;> omega
  · have same : v <<< 1 ^^^ (0 : Int64) = v <<< 1 := by simp
    rw [if_neg negative, if_pos (Int.not_lt.mp negative), same, toNat_double, UInt64.toNat_ofNat']
    split at bits <;> omega

theorem toInt_even {u : UInt64} (even : u.toNat % 2 = 0) :
    (toSigned u).toInt = (u.toNat / 2 : Nat) := by
  have small := u.toNat_lt
  rw [toSigned, if_pos even, Int64.toInt_ofNat_of_lt (by omega)]

theorem toInt_odd {u : UInt64} (odd : ¬ u.toNat % 2 = 0) :
    (toSigned u).toInt = -(u.toNat / 2 : Nat) - 1 := by
  have small := u.toNat_lt
  rw [toSigned, if_neg odd, Int64.toInt_ofInt_of_le (by omega) (by omega)]

theorem toUnsigned_toSigned (u : UInt64) : toUnsigned (toSigned u) = u := by
  apply UInt64.toNat_inj.mp
  have small := u.toNat_lt
  by_cases even : u.toNat % 2 = 0
  · rw [toUnsigned, toInt_even even, if_pos (by omega), UInt64.toNat_ofNat']
    omega
  · rw [toUnsigned, toInt_odd even, if_neg (by omega), UInt64.toNat_ofNat']
    omega

theorem unfold_eq (u : UInt64) : unfold u = toSigned u := by
  have small := u.toNat_lt
  have low : (u &&& 1).toNat = u.toNat % 2 := by rw [UInt64.toNat_and]; exact Nat.and_one_is_mod _
  have half : (u >>> 1).toInt64.toInt = (u.toNat / 2 : Nat) := by
    have shifted : (u >>> 1).toInt64.toUInt64.toNat = u.toNat / 2 :=
      (u.toNat_shiftRight 1).trans (Nat.shiftRight_eq_div_pow _ 1)
    rw [toInt_eq, shifted, if_pos (by omega)]
  apply Int64.toInt_inj.mp
  by_cases even : u.toNat % 2 = 0
  · have clear : u &&& 1 = 0 := UInt64.toNat_inj.mp (low.trans even)
    have same : (u >>> 1).toInt64 ^^^ -(0 : UInt64).toInt64 = (u >>> 1).toInt64 := by simp
    rw [unfold, clear, same, half, toInt_even even]
  · have set : u &&& 1 = 1 := UInt64.toNat_inj.mp (low.trans (by change _ = 1; omega))
    have flipped : (u >>> 1).toInt64 ^^^ -(1 : UInt64).toInt64 = ~~~(u >>> 1).toInt64 :=
      Int64.xor_neg_one
    rw [unfold, set, flipped, Int64.toInt_not, half, toInt_odd even]
    exact Int.bmod_eq_of_le (by omega) (by omega)

theorem toNat_toUnsigned (v : Int64) :
    ((toUnsigned v).toNat : Int) = if v.toInt < 0 then -2 * v.toInt - 1 else 2 * v.toInt := by
  have low := v.le_toInt
  have high := v.toInt_lt
  unfold toUnsigned
  split <;> split <;> rw [UInt64.toNat_ofNat'] <;> omega

theorem toUnsigned_lt_iff (v : Int64) (m : Nat) :
    (toUnsigned v).toNat < 2 * m ↔ -(m : Int) ≤ v.toInt ∧ v.toInt < m := by
  have number := toNat_toUnsigned v
  split at number <;> omega

end Zigzag

namespace Leb128

theorem put_parts {buffer : Bytes} (room : buffer.length = maxBytes) (v : UInt64) :
    (put buffer v).1 = (encode v.toNat).length ∧
      (put buffer v).2 = encode v.toNat ++ buffer.drop (encode v.toNat).length ∧
      putFrom buffer 0 v = .ok (put buffer v) := by
  have short := length_encode_toNat v
  have stored := putFrom_eq buffer 0 v (by omega)
  rw [Nat.zero_add] at stored
  refine ⟨rfl, ?_, stored⟩
  rw [put, Bytes.overlay_zero]

/-- Storing a number changes the front of the buffer alone, by the fewest bytes that stand for it,
and no index on the way is past the end. -/
theorem stored_shortest (v : UInt64) (w : Int64) (buffer : Bytes)
    (room : buffer.length = maxBytes) :
    let k := (put buffer v).1
    let b := (put buffer v).2.take k
    putFrom buffer 0 v = .ok (put buffer v) ∧
      (IsLeast {j | 1 ≤ j ∧ v.toNat < 2 ^ (7 * j)} k ∧ k ≤ maxBytes) ∧
      (b.length = k ∧ (put buffer v).2 = b ++ buffer.drop k) ∧
      (Accepts b v ∧ ∀ c, Accepts c v → c ≠ b → k < c.length) ∧
      (∀ c, Register.start.answers c = Accumulator.start.answers c) ∧
      (Zigzag.fold w = Zigzag.toUnsigned w ∧ Zigzag.unfold v = Zigzag.toSigned v) ∧
      (Zigzag.toSigned (Zigzag.toUnsigned w) = w ∧ Zigzag.toUnsigned (Zigzag.toSigned v) = v) ∧
      ∀ j, 1 ≤ j → ((put buffer (Zigzag.toUnsigned w)).1 ≤ j ↔
        -2 ^ (7 * j - 1) ≤ w.toInt ∧ w.toInt < 2 ^ (7 * j - 1)) := by
  intro k b
  obtain ⟨count, parts, stored⟩ := put_parts room v
  have front : b = encode v.toNat := by
    change (put buffer v).2.take (put buffer v).1 = _
    rw [parts, count, List.take_left]
  have accepted : Accepts (encode v.toNat) v := (accepts_iff _ _).mpr (numeral_encode v.toNat_lt)
  refine ⟨stored, ⟨?_, ?_⟩, ⟨?_, ?_⟩, ⟨?_, fun c stands other => ?_⟩, ?_,
    ⟨Zigzag.fold_eq w, Zigzag.unfold_eq v⟩,
    ⟨Zigzag.toSigned_toUnsigned w, Zigzag.toUnsigned_toSigned v⟩, fun j pos => ?_⟩
  · exact isLeast_length_encode v.toNat
  · exact length_encode_toNat v
  · rw [front]
    rfl
  · rw [front]
    exact parts
  · rwa [front]
  · have numeral := (accepts_iff c v).mp stands
    rw [front] at other
    exact length_encode_lt numeral.marked numeral.value other
  · exact Register.answers_of_holds Register.holds_start
  · have double : 2 ^ (7 * j) = 2 * 2 ^ (7 * j - 1) := by
      rw [← pow_succ']
      congr 1
      omega
    have bound : ((2 ^ (7 * j - 1) : Nat) : Int) = 2 ^ (7 * j - 1) := Nat.cast_pow 2 _
    rw [(put_parts room _).1, length_encode_le_iff pos, double, Zigzag.toUnsigned_lt_iff, bound]

theorem stored_shortest_padded :
    let buffer : Bytes := List.replicate 10 0xee
    buffer.length = maxBytes ∧ put buffer 300 = (2, [0xac, 0x02] ++ List.replicate 8 0xee) ∧
      putFrom buffer 0 300 = .ok (put buffer 300) ∧ Accepts [0xac, 0x02] 300 ∧
      Accepts [0xac, 0x82, 0x00] 300 ∧ (put buffer 300).1 < [0xac, 0x82, 0x00].length ∧
      ¬ (put buffer (Zigzag.toUnsigned Int64.minValue)).1 ≤ 9 := by
  intro buffer
  have room : buffer.length = maxBytes := rfl
  have stored : put buffer 300 = (2, [0xac, 0x02] ++ List.replicate 8 0xee) := by decide +kernel
  obtain ⟨looped, -, -, ⟨stands, others⟩, -, -, -, signed⟩ :=
    stored_shortest 300 Int64.minValue buffer room
  rw [stored] at stands others
  have padded : Accepts [0xac, 0x82, 0x00] 300 := by decide
  refine ⟨room, stored, looped, stands, padded, ?_, fun few => ?_⟩
  · rw [stored]
    exact others _ padded (by decide)
  · have bounds := (signed 9 (by decide)).mp few
    exact absurd bounds.1 (by decide)

end Leb128

end WireCodec
