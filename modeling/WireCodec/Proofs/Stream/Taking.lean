import WireCodec.Proofs.Base128
import WireCodec.Proofs.Stream.Delivery
import WireCodec.Proofs.Words

/-!
# What a reader takes

An action takes some bytes for a value if a reader that is not blocked, on any smooth source that
starts with those bytes, answers with the value, is rid of exactly those bytes, and changes and
reports nothing else. Actions in sequence take their bytes in sequence, so what a field takes is put
together from what its parts take.
-/

set_option autoImplicit false

namespace WireCodec

namespace StreamReader

variable {α β : Type}

theorem draw_of_smooth {slot : ErrorSlot} {source : Source} (unblocked : slot.blocked = false)
    (smooth : source.Smooth)
    (n : Nat) : ∃ source' : Source, source'.Smooth ∧ source'.remaining = source.remaining.drop n ∧
      (draw n).run ⟨slot, source⟩ =
        if n ≤ source.remaining.length then pure (⟨source.remaining.take n, true⟩, ⟨slot, source'⟩)
        else (do
          note (.shortRead source.remaining.length n)
          pure ⟨source.remaining, false⟩ : Action StreamReader Drawn).run ⟨slot, source'⟩ := by
  have p := smooth.delivers n
  refine ⟨⟨(source.pull n).rest⟩, p.smooth, p.rest, ?_⟩
  have front : (source.pull n).bytes = source.remaining.take n := p.front
  have stop : (source.pull n).stop = if n ≤ source.remaining.length then .full else .ended := p.stop
  by_cases enough : n ≤ source.remaining.length
  · rw [if_pos enough] at stop ⊢
    simp [draw, StateT.run_bind, unblocked, stop, front]
  · rw [if_neg enough] at stop ⊢
    have all : source.remaining.take n = source.remaining := List.take_of_length_le (by omega)
    rw [all] at front
    simp [draw, StateT.run_bind, unblocked, stop, front]

/-- From a reader that is not blocked, the action takes the bytes `b` off any smooth source that
starts with them, answers `v`, and changes nothing else. -/
def Takes (a : Action StreamReader α) (b : Bytes) (v : α) : Prop :=
  ∀ (slot : ErrorSlot) (source : Source) (rest : Bytes),
    slot.blocked = false → source.Smooth → source.remaining = b ++ rest →
      ∃ source' : Source, source'.Smooth ∧ source'.remaining = rest ∧
        a.run ⟨slot, source⟩ = pure (v, ⟨slot, source'⟩)

theorem takes_pure (v : α) : Takes (pure v) [] v := by
  intro slot source rest _ smooth bytes
  exact ⟨source, smooth, bytes, rfl⟩

theorem Takes.bind {a : Action StreamReader α} {f : α → Action StreamReader β} {b c : Bytes}
    {v : α} {w : β} (h : Takes a b v) (h' : Takes (f v) c w) : Takes (a >>= f) (b ++ c) w := by
  intro slot source rest unblocked smooth bytes
  rw [List.append_assoc] at bytes
  obtain ⟨middle, smooth, bytes, first⟩ := h slot source (c ++ rest) unblocked smooth bytes
  obtain ⟨last, smooth, bytes, second⟩ := h' slot middle rest unblocked smooth bytes
  refine ⟨last, smooth, bytes, ?_⟩
  rw [StateT.run_bind, first, pure_bind, second]

theorem Takes.map {a : Action StreamReader α} {b : Bytes} {v : α} (h : Takes a b v) (g : α → β) :
    Takes (do let x ← a; pure (g x)) b (g v) := by
  have both : Takes (a >>= fun x => pure (g x)) (b ++ []) (g v) := h.bind (takes_pure (g v))
  rwa [List.append_nil] at both

theorem takes_draw (b : Bytes) : Takes (draw b.length) b ⟨b, true⟩ := by
  intro slot source rest unblocked smooth bytes
  obtain ⟨source', smooth', left, result⟩ := draw_of_smooth unblocked smooth b.length
  have enough : b.length ≤ source.remaining.length := by rw [bytes, List.length_append]; omega
  refine ⟨source', smooth', ?_, ?_⟩
  · rw [left, bytes, List.drop_left]
  · rw [result, if_pos enough, bytes, List.take_left]

theorem takes_exactly (b : Bytes) : Takes (exactly? b.length) b (some b) := (takes_draw b).map _

theorem takes_number (o : Order) (w : Width) (n : Nat) :
    Takes (number? o w) (o.digits w.bytes n) (some (n % w.modulus)) := by
  have h := (takes_exactly (o.digits w.bytes n)).map (Option.map o.value)
  rw [o.length_digits, Option.map_some, o.value_digits] at h
  exact h

theorem takes_base128From (fuel value count n : Nat) (room : fuel + count = Leb128.maxBytes)
    (unfinished : count < Leb128.maxBytes) (fits : n * 128 ^ count < 2 ^ 64) :
    Takes (base128From? fuel ⟨value, count⟩) (Leb128.encode n)
      (some (value + n * 128 ^ count)) := by
  induction fuel generalizing value count n with
  | zero => omega
  | succ fuel ih =>
    rw [Leb128.encode, base128From?]
    -- A last digit ends the number; any other one is added in its place, which is not the tenth.
    by_cases last : n < 128
    · rw [if_pos last]
      have read := takes_exactly [UInt8.ofNat n]
      refine read.bind (c := []) ?_
      simp only [Leb128.Accumulator.feed_last value last fits]
      exact takes_pure _
    · rw [if_neg last]
      have digit := Leb128.Accumulator.feed_digit value (Nat.le_of_not_lt last) fits
      have tenth := Leb128.count_ne_of_two_le fits (by omega)
      have places := Leb128.div_mul_pow n count
      have others :=
        ih (value + n % 128 * 128 ^ count) (count + 1) (n / 128) (by omega) (by omega) (by omega)
      rw [Nat.add_assoc, places] at others
      have read := takes_exactly [UInt8.ofNat (n % 128 + 128)]
      refine read.bind ?_
      simp only [digit]
      exact others

theorem takes_base128 {n : Nat} (fits : n < 2 ^ 64) :
    Takes base128? (Leb128.encode n) (some n) := by
  have h := takes_base128From Leb128.maxBytes 0 0 n rfl (by decide) (by omega)
  rwa [pow_zero, Nat.mul_one, Nat.zero_add] at h

theorem takes_length (o : Order) (f : LengthField) {n : Nat} (fits : n ≤ f.maxLength) :
    Takes (length? o f) (f.encode o n) (some n) := by
  unfold length? LengthField.encode
  unfold LengthField.maxLength Width.maxUnsigned at fits
  cases field : f.width? with
  | some w =>
    rw [field, Option.getD_some] at fits
    have pos := w.modulus_pos
    have h := takes_number o w n
    rwa [Nat.mod_eq_of_lt (by omega)] at h
  | none =>
    rw [field, Option.getD_none] at fits
    have modulus : Width.b64.modulus = 2 ^ 64 := by decide
    exact takes_base128 (by omega)

theorem takes_payload (o : Order) (f : LengthField) {b : Bytes} (fits : b.length ≤ f.maxLength)
    (bounded : b.length ≤ maxLength) :
    Takes (payload? o f) (f.encode o b.length ++ b) (some b) := by
  unfold payload?
  refine (takes_length o f fits).bind ?_
  simp only [Nat.not_lt.mpr bounded, ite_false]
  exact takes_exactly b

theorem takes_word (o : Order) (w : Word) : ∃ v : Word, v.toInt = w.format.reduce w.toInt ∧
    Takes (word o w.format) (w.encode o) v := by
  refine ⟨_, w.toInt_word_bits, ?_⟩
  rw [w.encode_eq_digits]
  exact (takes_number o w.format.width w.bits.toNat).map fun n => w.format.word (n.getD 0)

theorem takes_pattern32 (o : Order) (p : UInt32) : Takes (pattern32 o) (o.digits 4 p.toNat) p := by
  have h := (takes_number o .b32 p.toNat).map fun n => UInt32.ofNat (n.getD 0)
  rw [Option.getD_some, ofNat_toNat_mod32] at h
  exact h

theorem takes_pattern64 (o : Order) (p : UInt64) : Takes (pattern64 o) (o.digits 8 p.toNat) p := by
  have h := (takes_number o .b64 p.toNat).map fun n => UInt64.ofNat (n.getD 0)
  rw [Option.getD_some, ofNat_toNat_mod64] at h
  exact h

end StreamReader

end WireCodec
