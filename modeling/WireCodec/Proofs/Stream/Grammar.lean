import WireCodec.Proofs.Register
import WireCodec.Proofs.Stream.ScratchReader
import WireCodec.Proofs.Stream.Taking

/-!
# The grammar of numbers in base 128

A reader asked for a number goes from byte to byte as long as they have the top bit set. What
becomes of it is decided by where the first byte without it stands: within ten bytes, with at most
the top bit of the word left for the tenth, there is a number; else there are ten bytes of no
number, or the source ends first. However a source cuts its bytes up, and whether the number is put
together by sums or in a machine word, the answer, the failure and the bytes taken are the same.
-/

set_option autoImplicit false

namespace WireCodec

namespace StreamReader

open Leb128 (Accumulator maxBytes total)

variable {α β : Type} {slot : ErrorSlot} {source : Source}

/-- What comes of reading from a smooth source where no failure is kept: an answer, perhaps a
failure, and a number of bytes taken. -/
structure Comes (r : StreamReader) (v : α) (failure : Option Failure) (taken : Nat)
    (x : Logged (α × StreamReader)) : Prop where
  answer : x.value.1 = v
  events : x.events = failure.toList.map (.firstFailure .reader)
  slot : x.value.2.slot = ⟨r.slot.strict, failure⟩
  smooth : x.value.2.source.Smooth
  remaining : x.value.2.source.remaining = r.source.remaining.drop taken

theorem Comes.map {r : StreamReader} {v : α} {failure : Option Failure} {taken : Nat}
    {a : Action StreamReader α} (comes : Comes r v failure taken (a.run r)) (g : α → β) :
    Comes r (g v) failure taken ((do let x ← a; pure (g x) : Action StreamReader β).run r) := by
  rw [StateT.run_bind]
  exact ⟨congrArg g comes.answer, (List.append_nil _).trans comes.events, comes.slot, comes.smooth,
    comes.remaining⟩

theorem comes_noted {r : StreamReader} {last : Source} {taken : Nat} (clean : r.slot.first = none)
    (smooth : last.Smooth)
    (remaining : last.remaining = r.source.remaining.drop taken) (f : Failure) (v : α) :
    Comes r v (some f) taken ((do note f; pure v : Action StreamReader α).run ⟨r.slot, last⟩) := by
  obtain ⟨⟨strict, first⟩, source⟩ := r
  cases clean
  exact ⟨rfl, rfl, rfl, smooth, remaining⟩

theorem exactly_of_empty (unblocked : slot.blocked = false) (smooth : source.Smooth)
    (bytes : source.remaining = []) :
    ∃ source' : Source, source'.Smooth ∧ source'.remaining = [] ∧
      (exactly? 1).run ⟨slot, source⟩ =
        (do note (.shortRead 0 1); pure none : Action StreamReader (Option Bytes)).run
          ⟨slot, source'⟩ := by
  obtain ⟨source', smooth', left, drawn⟩ := draw_of_smooth unblocked smooth 1
  have wanting : ¬ 1 ≤ source.remaining.length := by
    rw [bytes]
    decide
  rw [if_neg wanting, bytes] at drawn
  refine ⟨source', smooth', by rw [left, bytes, List.drop_nil], ?_⟩
  rw [exactly?, StateT.run_bind, drawn]
  simp only [StateT.run_bind, bind_assoc]
  rfl

theorem base128From_cons {b : UInt8} {rest : Bytes} (unblocked : slot.blocked = false)
    (smooth : source.Smooth) (bytes : source.remaining = b :: rest) (fuel : Nat) (a : Accumulator) :
    ∃ source' : Source, source'.Smooth ∧ source'.remaining = rest ∧
      (base128From? (fuel + 1) a).run ⟨slot, source⟩ = (digest fuel a b).run ⟨slot, source'⟩ := by
  obtain ⟨source', smooth', bytes', read⟩ :=
    takes_exactly [b] slot source rest unblocked smooth bytes
  refine ⟨source', smooth', bytes', ?_⟩
  rw [base128From_succ]
  change ((exactly? [b].length) >>= _).run _ = _
  rw [run_bind_of read]
  rfl

theorem base128From_digits {c d rest : Bytes} (fuel : Nat) (high : ∀ b ∈ c, 128 ≤ b.toNat)
    (room : d.length + c.length < maxBytes) (unblocked : slot.blocked = false)
    (smooth : source.Smooth) (bytes : source.remaining = c ++ rest) :
    ∃ source' : Source, source'.Smooth ∧ source'.remaining = rest ∧
      (base128From? (fuel + c.length) (.after d)).run ⟨slot, source⟩ =
        (base128From? fuel (.after (d ++ c))).run ⟨slot, source'⟩ := by
  induction c generalizing d source with
  | nil => exact ⟨source, smooth, bytes, by rw [List.append_nil]; rfl⟩
  | cons b c ih =>
    rw [List.length_cons] at room
    obtain ⟨middle, smooth', bytes', fed⟩ :=
      base128From_cons unblocked smooth bytes (fuel + c.length) (.after d)
    have goes_on := Accumulator.feed_high (c := d) (high b List.mem_cons_self) (by omega)
    have room' : (d ++ [b]).length + c.length < maxBytes := by
      rw [List.length_append, List.length_singleton]
      omega
    obtain ⟨last, smooth'', bytes'', others⟩ :=
      ih (fun x hx => high x (List.mem_cons_of_mem b hx)) room' smooth' bytes'
    refine ⟨last, smooth'', bytes'', ?_⟩
    rw [List.length_cons, ← Nat.add_assoc, fed, digest, goes_on, List.append_cons d b c]
    exact others

/-! ## The three ways a number ends -/

section

variable {r : StreamReader} {c : Bytes} {fuel : Nat}

theorem base128From_front {last : UInt8} {rest : Bytes} (unblocked : r.slot.blocked = false)
    (smooth : r.source.Smooth)
    (bytes : r.source.remaining = c ++ last :: rest) (high : ∀ b ∈ c, 128 ≤ b.toNat)
    (few : c.length ≤ 9) (enough : maxBytes ≤ fuel) :
    ∃ (more : Nat) (source : Source),
      source.Smooth ∧ source.remaining = r.source.remaining.drop (c.length + 1) ∧
      (base128From? fuel .start).run r = (digest more (.after c) last).run ⟨r.slot, source⟩ := by
  unfold maxBytes at enough
  obtain ⟨more, rfl⟩ : ∃ more, fuel = more + 1 + c.length := ⟨fuel - 1 - c.length, by omega⟩
  have room : (List.nil : Bytes).length + c.length < maxBytes :=
    (Nat.zero_add _).trans_lt (Nat.lt_succ_of_le few)
  obtain ⟨middle, smooth', bytes', digits⟩ :=
    base128From_digits (more + 1) high room unblocked smooth bytes
  obtain ⟨behind, smooth'', bytes'', fed⟩ :=
    base128From_cons unblocked smooth' bytes' more (.after c)
  refine ⟨more, behind, smooth'', ?_, digits.trans fed⟩
  have front : c.length + 1 = (c ++ [last]).length := by
    rw [List.length_append, List.length_singleton]
  rw [bytes'', bytes, List.append_cons, front, List.drop_left]

theorem comes_number {last : UInt8} {rest : Bytes} (clean : r.slot.first = none)
    (smooth : r.source.Smooth)
    (bytes : r.source.remaining = c ++ last :: rest) (high : ∀ b ∈ c, 128 ≤ b.toNat)
    (low : last.toNat < 128)
    (few : c.length ≤ 9) (tenth : c.length = 9 → last.toNat ≤ 1) (enough : maxBytes ≤ fuel) :
    Comes r (some (total (c ++ [last]))) none (c.length + 1)
      ((base128From? fuel .start).run r) := by
  obtain ⟨more, behind, smooth', left, read⟩ :=
    base128From_front (ErrorSlot.unblocked_of_clean clean) smooth bytes high few enough
  rw [read, digest, Accumulator.feed_low low tenth]
  exact ⟨rfl, rfl, congrArg (ErrorSlot.mk r.slot.strict) clean, smooth', left⟩

theorem comes_overlong {last : UInt8} {rest : Bytes} (clean : r.slot.first = none)
    (smooth : r.source.Smooth)
    (bytes : r.source.remaining = c ++ last :: rest) (high : ∀ b ∈ c, 128 ≤ b.toNat)
    (nine : c.length = 9) (big : 1 < last.toNat) (enough : maxBytes ≤ fuel) :
    Comes r none (some .varintOverflow) maxBytes ((base128From? fuel .start).run r) := by
  obtain ⟨more, behind, smooth', left, read⟩ :=
    base128From_front (ErrorSlot.unblocked_of_clean clean) smooth bytes high
      (Nat.le_of_eq nine) enough
  rw [nine] at left
  rw [read, digest, Accumulator.feed_over nine big]
  exact comes_noted clean smooth' left _ none

theorem comes_unfinished (clean : r.slot.first = none) (smooth : r.source.Smooth)
    (high : ∀ b ∈ r.source.remaining, 128 ≤ b.toNat) (few : r.source.remaining.length < maxBytes)
    (enough : maxBytes ≤ fuel) :
    Comes r none (some (.shortRead 0 1)) r.source.remaining.length
      ((base128From? fuel .start).run r) := by
  have unblocked := ErrorSlot.unblocked_of_clean clean
  obtain ⟨more, rfl⟩ : ∃ more, fuel = more + 1 + r.source.remaining.length :=
    ⟨fuel - 1 - r.source.remaining.length, by omega⟩
  have room : (List.nil : Bytes).length + r.source.remaining.length < maxBytes :=
    (Nat.zero_add _).trans_lt few
  obtain ⟨middle, smooth', bytes', digits⟩ :=
    base128From_digits (more + 1) high room unblocked smooth (List.append_nil _).symm
  obtain ⟨behind, smooth'', bytes'', read⟩ := exactly_of_empty unblocked smooth' bytes'
  have ended : (base128From? (more + 1) (.after r.source.remaining)).run ⟨r.slot, middle⟩ =
      (do note (.shortRead 0 1); pure none : Action StreamReader (Option Nat)).run
        ⟨r.slot, behind⟩ := by
    rw [base128From_succ, StateT.run_bind, read]
    simp only [StateT.run_bind, bind_assoc]
    rfl
  have left : behind.remaining = r.source.remaining.drop r.source.remaining.length := by
    rw [bytes'', List.drop_length]
  have same := digits.trans ended
  change (base128From? _ _).run r = _ at same
  exact same ▸ comes_noted clean smooth'' left _ none

end

end StreamReader

namespace ScratchReader

open Leb128 (Accumulator Register maxBytes total)
open StreamReader (Reply)

variable {α β : Type}

/-! ## The number in a machine word -/

/-- Reads a number into a register, in at most `fuel` bytes. -/
def register? : Nat → Register → Op (Option UInt64)
  | 0, _ => pure none
  | fuel + 1, g => do
    match ← byte? with
    | none => pure none
    | some b =>
      match g.feed b with
      | .ok (some v, _) => pure (some v)
      | .ok (none, g') => register? fuel g'
      | .error () =>
        StreamReader.note .varintOverflow
        pure none

theorem shadows_register (fuel : Nat) {g : Register} {a : Accumulator} (holds : g.Holds a) :
    Shadows (do let n ← StreamReader.base128From? fuel a; pure (n.map UInt64.ofNat))
      (register? fuel g) := by
  induction fuel generalizing g a with
  | zero => exact shadows_pure none
  | succ fuel ih =>
    have split :
        (do let n ← StreamReader.base128From? (fuel + 1) a; pure (n.map UInt64.ofNat)) =
          (do
            match ← (do let b ← StreamReader.exactly? 1; pure (b.map fun b => b.headD 0)) with
            | none => pure none
            | some b => do
              let n ← StreamReader.digest fuel a b
              pure (n.map UInt64.ofNat)) := by
      rw [StreamReader.base128From_succ, bind_assoc, bind_assoc]
      congr 1
      funext v
      cases v <;> simp only [pure_bind, Option.map_none, Option.map_some]
    rw [split, register?]
    refine shadows_byte.bind fun b => ?_
    cases b with
    | none => exact shadows_pure none
    | some b =>
      have fed := Register.feed_of_holds holds b
      dsimp only [StreamReader.digest]
      cases step : a.feed b with
      | done v =>
        rw [step] at fed
        obtain ⟨-, g', fed⟩ := fed
        rw [fed]
        exact shadows_pure (some (UInt64.ofNat v))
      | more a' =>
        rw [step] at fed
        obtain ⟨g', fed, holds'⟩ := fed
        rw [fed]
        exact ih holds'
      | overflow =>
        rw [step] at fed
        dsimp only at fed
        rw [fed]
        simp only [bind_assoc, pure_bind]
        exact (shadows_lift (StreamReader.note .varintOverflow)).bind fun _ => shadows_pure none

/-! ## What becomes of a reader asked for a number -/

/-- The operation answers `v`, keeps and reports the failure if there is one, and takes so many
bytes of the source. -/
def Ends (s : ScratchReader) (a : Op α) (v : α) (failure : Option Failure) (taken : Nat) : Prop :=
  ∃ s' : ScratchReader,
    runOn a s = ⟨(.ok (v, s'.scratch), s'.reader), failure.toList.map (.firstFailure .reader)⟩ ∧
    s'.reader.slot = ⟨s.reader.slot.strict, failure⟩ ∧ s'.reader.source.Smooth ∧
      s'.reader.source.remaining = s.reader.source.remaining.drop taken ∧
      s'.scratch.length = scratchBytes

theorem ends_of_comes {s : ScratchReader} {x : Action StreamReader α} {a : Op α} {v : α}
    {failure : Option Failure}
    {taken : Nat} (comes : StreamReader.Comes s.reader v failure taken (x.run s.reader))
    (shadows : Shadows x a)
    (room : s.scratch.length = scratchBytes) : Ends s a v failure taken := by
  obtain ⟨scratch, room', ran⟩ := shadows s.reader s.scratch room
  refine ⟨⟨(x.run s.reader).value.2, scratch⟩, ?_, comes.slot, comes.smooth, comes.remaining, room'⟩
  rw [← comes.events, ← comes.answer]
  exact ran

/-- Asked for an unsigned or a signed number, or to put one together in a register, the reader finds
`n`, or fails and answers zero. -/
structure Reads (s : ScratchReader) (n : UInt64) (failure : Option Failure)
    (taken : Nat) : Prop where
  unsigned : Ends s (perform (.fetch .uvarint)) (.value (.int n.toNat)) failure taken
  signed : Ends s (perform (.fetch .varint)) (.value (.int (Zigzag.toSigned n).toInt)) failure taken
  register (fuel : Nat) (enough : maxBytes ≤ fuel) :
    Ends s (register? fuel .start) (if failure.isSome then none else some n) failure taken

theorem reads_of_comes {s : ScratchReader} {n : Option Nat} {failure : Option Failure} {taken : Nat}
    (comes : ∀ fuel, maxBytes ≤ fuel →
      StreamReader.Comes s.reader n failure taken
        ((StreamReader.base128From? fuel .start).run s.reader))
    (found : n.isNone = failure.isSome) (fits : n.getD 0 < 2 ^ 64)
    (room : s.scratch.length = scratchBytes) :
    Reads s (UInt64.ofNat (n.getD 0)) failure taken where
  unsigned := by
    have number : (UInt64.ofNat (n.getD 0)).toNat = n.getD 0 := UInt64.toNat_ofNat_of_lt' fits
    rw [number]
    have fetched :=
      (comes maxBytes (Nat.le_refl _)).map fun n => Reply.value (.int (n.getD 0 : Nat))
    have shadows :=
      (shadows_base128From maxBytes .start).map fun n => Reply.value (.int (n.getD 0 : Nat))
    have made : perform (.fetch .uvarint) = (do
        let n ← base128From? maxBytes .start
        pure (Reply.value (.int (n.getD 0 : Nat)))) := by
      rw [perform, fetch, bind_assoc]
      simp only [pure_bind]
      rfl
    rw [made]
    exact ends_of_comes fetched shadows room
  signed := by
    have fetched := (comes maxBytes (Nat.le_refl _)).map fun n =>
      Reply.value (.int (Zigzag.toSigned (UInt64.ofNat (n.getD 0))).toInt)
    have whole : StreamReader.perform (.fetch .varint) = (do
        let n ← StreamReader.base128From? maxBytes .start
        pure (Reply.value (.int (Zigzag.toSigned (UInt64.ofNat (n.getD 0))).toInt))) := by
      rw [StreamReader.perform, StreamReader.fetch, bind_assoc]
      simp only [pure_bind]
      rfl
    rw [← whole] at fetched
    exact ends_of_comes fetched (shadows_perform fun _ same => by cases same) room
  register fuel enough := by
    have fetched := (comes fuel enough).map fun n => n.map UInt64.ofNat
    have answer : (if failure.isSome then none else some (UInt64.ofNat (n.getD 0))) =
        n.map UInt64.ofNat := by
      rw [← found]
      cases n <;> rfl
    rw [answer]
    exact ends_of_comes fetched (shadows_register fuel Register.holds_start) room

/-- How many bytes stand before the first one below 128. -/
def highBytes (s : Bytes) : Nat := s.findIdx fun b => b.toNat < 128

theorem high_of_take {s : Bytes} {j : Nat} (before : j ≤ highBytes s) :
    ∀ b ∈ s.take j, 128 ≤ b.toNat := by
  intro b found
  obtain ⟨i, inside, rfl⟩ := List.mem_take_iff_getElem.mp found
  have within : i < highBytes s :=
    Nat.lt_of_lt_of_le (Nat.lt_of_lt_of_le inside (Nat.min_le_left _ _)) before
  simpa using List.not_of_lt_findIdx within

theorem low_of_highBytes {s : Bytes} (inside : highBytes s < s.length) :
    s[highBytes s].toNat < 128 :=
  of_decide_eq_true
    (List.findIdx_getElem (p := fun b : UInt8 => decide (b.toNat < 128)) (w := inside))

theorem split_at {s : Bytes} {i : Nat} (inside : i < s.length) :
    s = s.take i ++ s[i] :: s.drop (i + 1) := by
  rw [List.cons_getElem_drop_succ, List.take_append_drop]

section

variable {s : ScratchReader} {i : Nat}

theorem reads_number (clean : s.reader.slot.first = none) (smooth : s.reader.source.Smooth)
    (room : s.scratch.length = scratchBytes) (place : highBytes s.reader.source.remaining = i)
    (inside : i < s.reader.source.remaining.length) (early : i ≤ 9)
    (tenth : i = 9 → s.reader.source.remaining[i].toNat ≤ 1) :
    total (s.reader.source.remaining.take (i + 1)) < 2 ^ 64 ∧
      Reads s (UInt64.ofNat (total (s.reader.source.remaining.take (i + 1)))) none (i + 1) := by
  have low : s.reader.source.remaining[i].toNat < 128 := by
    subst place
    exact low_of_highBytes inside
  have size : (s.reader.source.remaining.take i).length = i :=
    List.length_take_of_le (Nat.le_of_lt inside)
  have top : (s.reader.source.remaining.take i).length = 9 →
      s.reader.source.remaining[i].toNat ≤ 1 := by rwa [size]
  have high := high_of_take (Nat.le_of_eq place.symm)
  have comes (fuel : Nat) (enough : maxBytes ≤ fuel) :=
    StreamReader.comes_number clean smooth (split_at inside) high low (by omega) top enough
  have fits := Leb128.total_lt_of_tenth (by omega) top
  rw [← List.take_succ_eq_append_getElem inside] at comes fits
  rw [size] at comes
  exact ⟨fits, reads_of_comes comes rfl fits room⟩

theorem reads_overlong (clean : s.reader.slot.first = none) (smooth : s.reader.source.Smooth)
    (room : s.scratch.length = scratchBytes) (inside : 9 < s.reader.source.remaining.length)
    (late : 9 ≤ highBytes s.reader.source.remaining)
    (big : 1 < s.reader.source.remaining[9].toNat) :
    Reads s 0 (some .varintOverflow) 10 := by
  have size : (s.reader.source.remaining.take 9).length = 9 :=
    List.length_take_of_le (Nat.le_of_lt inside)
  exact reads_of_comes (n := none)
    (fun _ enough => StreamReader.comes_overlong clean smooth (split_at inside)
      (high_of_take late) size big enough)
    rfl (by decide) room

theorem reads_unfinished (clean : s.reader.slot.first = none) (smooth : s.reader.source.Smooth)
    (room : s.scratch.length = scratchBytes) (few : s.reader.source.remaining.length < 10)
    (none_low : s.reader.source.remaining.length ≤ highBytes s.reader.source.remaining) :
    Reads s 0 (some (.shortRead 0 1)) s.reader.source.remaining.length := by
  have high := high_of_take none_low
  rw [List.take_length] at high
  exact reads_of_comes (n := none)
    (fun _ enough => StreamReader.comes_unfinished clean smooth high few enough)
    rfl (by decide) room

end

/-- A reader accepts the numbers in base 128 that fit 64 bits, and nothing else: ten other bytes are
too many, and fewer are too few. -/
theorem accepts_exactly_base128 (s : ScratchReader) (clean : s.reader.slot.first = none)
    (smooth : s.reader.source.Smooth) (room : s.scratch.length = scratchBytes) :
    let b := s.reader.source.remaining
    let k := b.findIdx (fun x => x.toNat < 128) + 1
    let n := ∑ i ∈ Finset.range k, (b.getD i 0).toNat % 128 * 2 ^ (7 * i)
    let accepted := k ≤ b.length ∧ (k ≤ 9 ∨ k = 10 ∧ (b.getD 9 0).toNat ≤ 1)
    (accepted → n < 2 ^ 64 ∧ Reads s (UInt64.ofNat n) none k) ∧
      (10 ≤ b.length ∧ ¬ accepted → Reads s 0 (some .varintOverflow) 10) ∧
      (b.length < 10 ∧ b.length < k → Reads s 0 (some (.shortRead 0 1)) b.length) := by
  intro b k n accepted
  have place : highBytes b + 1 = k := rfl
  refine ⟨fun ⟨inside, early⟩ => ?_, fun ⟨ten, refused⟩ => ?_, fun ⟨few, none_low⟩ => ?_⟩
  · have tenth : highBytes b = 9 → b[highBytes b].toNat ≤ 1 := by
      intro nine
      have small : (b.getD 9 0).toNat ≤ 1 := by omega
      simpa only [nine, List.getElem_eq_getD (0 : UInt8)] using small
    have sum : total (b.take (highBytes b + 1)) = n := Leb128.total_take inside
    rw [← sum]
    exact reads_number clean smooth room rfl inside (by omega) tenth
  · -- Nine bytes are high; the tenth, be it the first low one or high as well, is more than 1.
    have tenth : b.getD 9 0 = b[9] := (List.getElem_eq_getD 0).symm
    have late : 9 ≤ highBytes b := by
      by_contra early
      exact refused ⟨by omega, .inl (by omega)⟩
    have big : 1 < b[9].toNat := by
      by_contra small
      have high : 9 < highBytes b → 128 ≤ b[9].toNat := fun later => by
        simpa using List.not_of_lt_findIdx (p := fun b : UInt8 => decide (b.toNat < 128)) later
      refine refused ⟨by omega, .inr ⟨by omega, ?_⟩⟩
      rw [tenth]
      exact Nat.le_of_not_lt small
    exact reads_overlong clean smooth room ten late big
  · exact reads_unfinished clean smooth room few (Nat.le_of_lt_succ none_low)

theorem accepts_exactly_base128_in_pieces :
    let padded : Source := ⟨[.data [0x81, 0x80], .fault ⟨.interrupted, "again"⟩,
      .data [0x80, 0x80, 0x80, 0x80, 0x80, 0x80, 0x80], .data [], .data [1, 7]]⟩
    let overlong : Source :=
      ⟨[.data [0xff, 0xff, 0xff, 0xff, 0xff, 0xff, 0xff, 0xff, 0xff], .data [2, 7]]⟩
    let unfinished : Source := ⟨[.data [0x80], .data [0xff]]⟩
    let reader (source : Source) : ScratchReader := ⟨.over source true, [1, 2, 3, 4, 5, 6, 7, 8]⟩
    padded.Smooth ∧ overlong.Smooth ∧ unfinished.Smooth ∧
      Reads (reader padded) 0x8000000000000001 none 10 ∧
      Reads (reader overlong) 0 (some .varintOverflow) 10 ∧
      Reads (reader unfinished) 0 (some (.shortRead 0 1)) 2 := by
  intro padded overlong unfinished reader
  have smooth : padded.Smooth := by decide
  have smooth' : overlong.Smooth := by decide
  have smooth'' : unfinished.Smooth := by decide
  refine ⟨smooth, smooth', smooth'', ?_, ?_, ?_⟩
  · have number : ∑ i ∈ Finset.range 10, (padded.remaining.getD i 0).toNat % 128 * 2 ^ (7 * i) =
        0x8000000000000001 := by
      decide +kernel
    have read := ((accepts_exactly_base128 (reader padded) rfl smooth rfl).1 (by decide)).2
    change Reads _ (UInt64.ofNat
      (∑ i ∈ Finset.range 10, (padded.remaining.getD i 0).toNat % 128 * 2 ^ (7 * i))) none 10
      at read
    rwa [number] at read
  · exact (accepts_exactly_base128 (reader overlong) rfl smooth' rfl).2.1 (by decide)
  · exact (accepts_exactly_base128 (reader unfinished) rfl smooth'' rfl).2.2 (by decide)

end ScratchReader

end WireCodec
