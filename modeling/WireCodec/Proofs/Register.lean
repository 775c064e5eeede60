import Mathlib.Algebra.BigOperators.Fin
import WireCodec.Proofs.Base128

/-!
# Numbers in base 128 in a machine word

A machine puts a number together in a word: each digit is shifted to its place and or-ed in, and the
word, the place and the count of digits go forward together. Two checks keep it within bounds, one
on the value of the tenth byte and one on what would follow it. Such a register holds what the
accumulator holds, and no bit leaves the word.
-/

set_option autoImplicit false

namespace WireCodec

namespace Leb128

/-- The digits read so far in a word, the place of the next one, and how many they are. -/
structure Register where
  value : UInt64
  shift : UInt32
  count : Nat
  deriving DecidableEq

namespace Register

def start : Register := ⟨0, 0, 0⟩

def feed (g : Register) (b : UInt8) : Except Unit (Option UInt64 × Register) :=
  if g.count = maxBytes - 1 ∧ 1 < b then .error ()
  else
    let value := g.value ||| (b &&& 0x7f).toUInt64 <<< g.shift.toUInt64
    let count := g.count + 1
    if b < 0x80 then .ok (some value, ⟨value, g.shift, count⟩)
    else
      let shift := g.shift + 7
      if count = maxBytes then .error () else .ok (none, ⟨value, shift, count⟩)

end Register

def total : Bytes → Nat
  | [] => 0
  | b :: bs => b.toNat % 128 + 128 * total bs

/-! ## Digits and their places -/

theorem total_append (b c : Bytes) : total (b ++ c) = total b + 128 ^ b.length * total c := by
  induction b with
  | nil => simp [total]
  | cons x b ih =>
    rw [List.cons_append, total, total, ih, List.length_cons]
    ring

theorem total_single (b : UInt8) : total [b] = b.toNat % 128 := rfl

theorem total_lt (b : Bytes) : total b < 128 ^ b.length := by
  induction b with
  | nil => exact Nat.one_pos
  | cons x b ih =>
    rw [total, List.length_cons, pow_succ]
    omega

theorem pow_places (k : Nat) : 128 ^ k = 2 ^ (7 * k) := pow_mul 2 7 k ▸ rfl

theorem total_take {s : Bytes} {k : Nat} (inside : k ≤ s.length) :
    total (s.take k) = ∑ i ∈ Finset.range k, (s.getD i 0).toNat % 128 * 2 ^ (7 * i) := by
  induction k with
  | zero => rfl
  | succ k ih =>
    have here : s.getD k 0 = s[k] := (List.getElem_eq_getD 0).symm
    rw [List.take_succ_eq_append_getElem inside, total_append, total_single, ih (by omega),
      Finset.sum_range_succ, here, List.length_take, Nat.min_eq_left (by omega), pow_places,
      Nat.mul_comm]

theorem total_lt_of_tenth {b : Bytes} {last : UInt8} (nine : b.length ≤ 9)
    (tenth : b.length = 9 → last.toNat ≤ 1) :
    total (b ++ [last]) < 2 ^ 64 := by
  have below := total_lt b
  rw [total_append, total_single]
  rcases Nat.lt_or_eq_of_le nine with few | all
  · have power : 128 ^ b.length ≤ 128 ^ 8 := Nat.pow_le_pow_right (by decide) (by omega)
    have digit : 128 ^ b.length * (last.toNat % 128) ≤ 128 ^ 8 * 127 :=
      Nat.mul_le_mul power (by omega)
    omega
  · have top := tenth all
    have digit : 128 ^ b.length * (last.toNat % 128) ≤ 128 ^ 9 * 1 :=
      Nat.mul_le_mul (by rw [all]) (by omega)
    rw [all] at below
    omega

/-! ## One more byte -/

namespace Accumulator

def after (c : Bytes) : Accumulator := ⟨total c, c.length⟩

theorem total_append_single (c : Bytes) (b : UInt8) :
    total (c ++ [b]) = total c + b.toNat % 128 * 128 ^ c.length := by
  rw [total_append, total_single, Nat.mul_comm]

theorem feed_low {c : Bytes} {b : UInt8} (low : b.toNat < 128) (fits : c.length = 9 → b.toNat ≤ 1) :
    (after c).feed b = .done (total (c ++ [b])) := by
  have unguarded : ¬ (c.length + 1 = maxBytes ∧ 1 < b.toNat) := fun ⟨tenth, big⟩ =>
    Nat.not_lt.mpr (fits (Nat.succ.inj tenth)) big
  simp only [feed, after, unguarded, low, if_true, if_false, total_append_single]

theorem feed_high {c : Bytes} {b : UInt8} (high : 128 ≤ b.toNat) (room : c.length + 1 < maxBytes) :
    (after c).feed b = .more (after (c ++ [b])) := by
  have unguarded : ¬ (c.length + 1 = maxBytes ∧ 1 < b.toNat) :=
    fun ⟨tenth, _⟩ => Nat.ne_of_lt room tenth
  simp only [feed, after, unguarded, Nat.not_lt.mpr high, if_false, total_append_single,
    List.length_append, List.length_singleton]

theorem feed_over {c : Bytes} {b : UInt8} (nine : c.length = 9) (big : 1 < b.toNat) :
    (after c).feed b = .overflow :=
  if_pos ⟨congrArg (· + 1) nine, big⟩

end Accumulator

/-! ## The register holds what the accumulator holds -/

/-- The register and the accumulator agree, and have room for another byte. -/
structure Register.Holds (g : Register) (a : Accumulator) : Prop where
  value : g.value.toNat = a.value
  shift : g.shift.toNat = 7 * a.count
  count : g.count = a.count
  below : a.value < 2 ^ (7 * a.count)
  room : a.count < maxBytes

theorem Register.holds_start : start.Holds .start := ⟨rfl, rfl, rfl, by decide, by decide⟩

theorem toNat_low (b : UInt8) : (b &&& 0x7f).toNat = b.toNat % 128 := by
  have mask : (0x7f : UInt8).toNat = 2 ^ 7 - 1 := rfl
  rw [UInt8.toNat_and, mask, Nat.and_two_pow_sub_one_eq_mod]

/-- A digit finds its place in the word as long as the tenth is the top bit. -/
theorem place_lt {count digit : Nat} (room : count < maxBytes) (small : digit < 128)
    (top : count + 1 = maxBytes → digit ≤ 1) : digit * 2 ^ (7 * count) < 2 ^ 64 := by
  unfold maxBytes at room top
  rcases Nat.lt_or_eq_of_le (Nat.le_of_lt_succ room) with few | nine
  · have power : 2 ^ (7 * count) ≤ 2 ^ 56 := Nat.pow_le_pow_right (by decide) (by omega)
    have place : digit * 2 ^ (7 * count) ≤ 127 * 2 ^ 56 := Nat.mul_le_mul (by omega) power
    omega
  · have place : digit * 2 ^ (7 * count) ≤ 1 * 2 ^ 63 :=
      Nat.mul_le_mul (top (by omega)) (by rw [nine])
    omega

/-- Shifting a digit to its place and or-ing it in adds it there: it meets no other digit, and no
bit of it is lost. -/
theorem Register.toNat_or_shift {g : Register} {a : Accumulator} (holds : g.Holds a) {b : UInt8}
    (fits : ¬ (a.count + 1 = maxBytes ∧ 1 < b.toNat)) :
    (g.value ||| (b &&& 0x7f).toUInt64 <<< g.shift.toUInt64).toNat =
      a.value + b.toNat % 128 * 128 ^ a.count := by
  have room := holds.room
  have place : b.toNat % 128 * 2 ^ (7 * a.count) < 2 ^ 64 :=
    place_lt room (Nat.mod_lt _ (by decide)) fun tenth => by
      have byte : ¬ 1 < b.toNat := fun big => fits ⟨tenth, big⟩
      omega
  have inside : 7 * a.count < 64 := by unfold maxBytes at room; omega
  rw [UInt64.toNat_or, UInt64.toNat_shiftLeft, UInt8.toNat_toUInt64, UInt32.toNat_toUInt64,
    toNat_low, holds.value, holds.shift, Nat.mod_eq_of_lt inside, Nat.shiftLeft_eq,
    Nat.mod_eq_of_lt place, pow_places, Nat.or_comm, Nat.add_comm,
    Nat.mul_comm]
  -- What is there already stands below the place of the new digit.
  exact (Nat.two_pow_add_eq_or_of_lt holds.below _).symm

theorem Register.Holds.next {g : Register} {a : Accumulator} (holds : g.Holds a) {b : UInt8}
    (next : a.count + 1 < maxBytes) :
    Holds ⟨g.value ||| (b &&& 0x7f).toUInt64 <<< g.shift.toUInt64, g.shift + 7, g.count + 1⟩
      ⟨a.value + b.toNat % 128 * 128 ^ a.count, a.count + 1⟩ where
  value := toNat_or_shift holds fun tenth => Nat.ne_of_lt next tenth.1
  shift := by
    have inside : (g.shift.toNat + 7) % 2 ^ 32 = g.shift.toNat + 7 := by
      rw [holds.shift]
      unfold maxBytes at next
      omega
    rw [UInt32.toNat_add]
    change (g.shift.toNat + 7) % 2 ^ 32 = 7 * (a.count + 1)
    rw [inside, holds.shift, Nat.mul_succ]
  count := congrArg (· + 1) holds.count
  below := by
    have below := holds.below
    have digit : b.toNat % 128 * 2 ^ (7 * a.count) ≤ 127 * 2 ^ (7 * a.count) :=
      Nat.mul_le_mul_right _ (by omega)
    have wider : 2 ^ (7 * (a.count + 1)) = 128 * 2 ^ (7 * a.count) := by
      rw [Nat.mul_succ, pow_add]
      ring
    change a.value + b.toNat % 128 * 128 ^ a.count < 2 ^ (7 * (a.count + 1))
    rw [pow_places, wider]
    omega
  room := next

theorem Register.feed_of_holds {g : Register} {a : Accumulator} (holds : g.Holds a) (b : UInt8) :
    match a.feed b with
    | .done v => v < 2 ^ 64 ∧ ∃ g' : Register, g.feed b = .ok (some (UInt64.ofNat v), g')
    | .more a' => ∃ g' : Register, g.feed b = .ok (none, g') ∧ g'.Holds a'
    | .overflow => g.feed b = .error () := by
  have room := holds.room
  have guard : (g.count = maxBytes - 1 ∧ 1 < b) ↔ (a.count + 1 = maxBytes ∧ 1 < b.toNat) := by
    rw [holds.count, UInt8.lt_iff_toNat_lt]
    exact and_congr_left' (by unfold maxBytes; omega)
  have last : b < 0x80 ↔ b.toNat < 128 := UInt8.lt_iff_toNat_lt
  by_cases past : a.count + 1 = maxBytes ∧ 1 < b.toNat
  · simp only [Accumulator.feed, feed, guard, past, and_self, if_true]
  · by_cases low : b.toNat < 128
    · have sum := toNat_or_shift holds past
      simp only [Accumulator.feed, feed, guard, past, last, low, if_true, if_false]
      rw [← sum, UInt64.ofNat_toNat]
      exact ⟨UInt64.toNat_lt _, _, rfl⟩
    · -- The second check never strikes: a tenth byte that is not the last has not passed the first.
      have next : a.count + 1 < maxBytes :=
        Nat.lt_of_le_of_ne room fun tenth => past ⟨tenth, by omega⟩
      have more : ¬ g.count + 1 = maxBytes := holds.count ▸ Nat.ne_of_lt next
      simp only [Accumulator.feed, feed, guard, past, last, low, more, if_false]
      exact ⟨_, rfl, holds.next next⟩

end Leb128

end WireCodec
