import WireCodec.Proofs.Canonical
import WireCodec.Proofs.Stream.Grammar

/-!
# The grammar of payloads

A payload stands behind a field that tells its length. A reader that keeps no failure accepts just
that: a field of the kind it was asked for, and behind it as many bytes as the field tells. Where
the field is no such field, tells more than a buffer can hold or tells more than there is, the
reader answers with nothing and keeps what was wrong.
-/

set_option autoImplicit false

namespace WireCodec

/-- The bytes are a length field that tells `n`: as many bytes as the field is wide, or a number in
base 128, be it the shortest or padded. -/
def LengthField.Announces (f : LengthField) (o : Order) (p : Bytes) (n : Nat) : Prop :=
  match f.width? with
  | some w => p.length = w.bytes ∧ o.value p = n
  | none => Leb128.Numeral p n

instance (f : LengthField) (o : Order) (p : Bytes) (n : Nat) : Decidable (f.Announces o p n) :=
  match width : f.width? with
  | some w =>
    decidable_of_iff (p.length = w.bytes ∧ o.value p = n) (by rw [LengthField.Announces, width])
  | none => decidable_of_iff (Leb128.Numeral p n) (by rw [LengthField.Announces, width])

namespace StreamReader

open Leb128 (Numeral maxBytes)
open ScratchReader (highBytes high_of_take low_of_highBytes split_at)

variable {α β : Type} {r : StreamReader}

theorem Comes.of_takes {a : Action StreamReader α} {b rest : Bytes} {v : α} (takes : Takes a b v)
    (clean : r.slot.first = none) (smooth : r.source.Smooth)
    (bytes : r.source.remaining = b ++ rest) :
    Comes r v none b.length (a.run r) := by
  obtain ⟨source, smooth', left, ran⟩ :=
    takes r.slot r.source rest (ErrorSlot.unblocked_of_clean clean) smooth bytes
  change a.run r = _ at ran
  rw [ran]
  exact ⟨rfl, rfl, congrArg (ErrorSlot.mk r.slot.strict) clean, smooth',
    by rw [bytes, List.drop_left]; exact left⟩

theorem Comes.bind {a : Action StreamReader α} {k : α → Action StreamReader β} {v : α} {w : β}
    {failure : Option Failure} {taken more : Nat} (first : Comes r v none taken (a.run r))
    (second : ∀ r' : StreamReader, r'.slot = ⟨r.slot.strict, none⟩ → r'.source.Smooth →
      r'.source.remaining = r.source.remaining.drop taken →
      Comes r' w failure more ((k v).run r')) :
    Comes r w failure (taken + more) ((a >>= k).run r) := by
  have next := second (a.run r).value.2 first.slot first.smooth first.remaining
  rw [← first.answer] at next
  rw [StateT.run_bind]
  refine ⟨next.answer, ?_, next.slot.trans ?_, next.smooth, ?_⟩
  · exact (congrArg (· ++ _) first.events).trans next.events
  · rw [first.slot]
  · exact next.remaining.trans (by rw [first.remaining, List.drop_drop])

theorem Comes.stop {a : Action StreamReader α} {k : α → Action StreamReader β} {v : α} {w : β}
    {failure : Option Failure}
    {taken : Nat} (first : Comes r v failure taken (a.run r)) (last : k v = pure w) :
    Comes r w failure taken ((a >>= k).run r) := by
  have ran : a.run r = ⟨((a.run r).value.1, (a.run r).value.2), (a.run r).events⟩ := rfl
  rw [run_bind_of ran, first.answer, last]
  exact ⟨rfl, (List.append_nil _).trans first.events, first.slot, first.smooth, first.remaining⟩

theorem comes_short (clean : r.slot.first = none) (smooth : r.source.Smooth) {n : Nat}
    (short : r.source.remaining.length < n) :
    Comes r none (some (.shortRead r.source.remaining.length n)) r.source.remaining.length
      ((exactly? n).run r) := by
  obtain ⟨source, smooth', left, drawn⟩ :=
    draw_of_smooth (ErrorSlot.unblocked_of_clean clean) smooth n
  rw [if_neg (Nat.not_le.mpr short)] at drawn
  change (draw n).run r = _ at drawn
  have all : source.remaining = r.source.remaining.drop r.source.remaining.length := by
    rw [left, List.drop_eq_nil_of_le (Nat.le_of_lt short), List.drop_length]
  have noted := comes_noted clean smooth' all (.shortRead r.source.remaining.length n)
    (⟨r.source.remaining, false⟩ : Drawn)
  rw [← drawn] at noted
  exact noted.map fun d => if d.complete then some d.bytes else none

/-! ## The field -/

theorem comes_announced {o : Order} {f : LengthField} {p rest : Bytes} {n : Nat}
    (clean : r.slot.first = none)
    (smooth : r.source.Smooth) (bytes : r.source.remaining = p ++ rest)
    (announced : f.Announces o p n) :
    Comes r (some n) none p.length ((length? o f).run r) := by
  unfold LengthField.Announces at announced
  unfold length?
  cases width : f.width? with
  | some w =>
    rw [width] at announced
    obtain ⟨size, value⟩ := announced
    have takes := (takes_exactly p).map (Option.map o.value)
    rw [size, Option.map_some, value] at takes
    exact .of_takes takes clean smooth bytes
  | none =>
    rw [width] at announced
    obtain ⟨c, last, rfl, high, low, few, tenth, rfl⟩ := (Leb128.numeral_iff p n).mp announced
    rw [List.append_assoc, List.singleton_append] at bytes
    rw [List.length_append, List.length_singleton]
    exact comes_number clean smooth bytes high low few tenth (Nat.le_refl _)

theorem take_getElem_front {b : Bytes} {i : Nat} (inside : i < b.length) :
    b.take i ++ [b[i]] <+: b := by
  rw [← List.take_succ_eq_append_getElem inside]
  exact List.take_prefix (i + 1) b

theorem high_of_no_numeral {b : Bytes} (few : b.length ≤ 9)
    (none_fits : ∀ p n, p <+: b → ¬ Numeral p n) :
    ∀ x ∈ b, 128 ≤ x.toNat := by
  rcases Nat.lt_or_ge (highBytes b) b.length with inside | all
  · have size : (b.take (highBytes b)).length = highBytes b :=
      List.length_take_of_le (Nat.le_of_lt inside)
    have numeral : Numeral (b.take (highBytes b) ++ [b[highBytes b]]) _ :=
      (Leb128.numeral_iff _ _).mpr ⟨_, _, rfl, high_of_take (Nat.le_refl _),
        low_of_highBytes inside, by omega, fun nine => by omega, rfl⟩
    exact absurd numeral (none_fits _ _ (take_getElem_front inside))
  · have high := high_of_take all
    rwa [List.take_length] at high

theorem comes_no_numeral (clean : r.slot.first = none) (smooth : r.source.Smooth)
    (none_fits : ∀ p n, p <+: r.source.remaining → ¬ Numeral p n) :
    Comes r none
      (some (if r.source.remaining.length < maxBytes then .shortRead 0 1 else .varintOverflow))
      (min r.source.remaining.length maxBytes) (base128?.run r) := by
  by_cases few : r.source.remaining.length < maxBytes
  · have high := high_of_no_numeral (Nat.le_of_lt_succ few) none_fits
    rw [if_pos few, Nat.min_eq_left (Nat.le_of_lt few)]
    exact comes_unfinished clean smooth high few (Nat.le_refl _)
  · have enough : 9 < r.source.remaining.length := Nat.le_of_not_lt few
    have nine : (r.source.remaining.take 9).length = 9 :=
      List.length_take_of_le (Nat.le_of_lt enough)
    have high := high_of_no_numeral (Nat.le_of_eq nine) fun p n front =>
      none_fits p n (front.trans (List.take_prefix 9 _))
    have big : 1 < r.source.remaining[9].toNat := by
      by_contra small
      refine none_fits _ _ (take_getElem_front enough)
        ((Leb128.numeral_iff _ _).mpr ⟨_, _, rfl, high, by omega, ?_, fun _ => ?_, rfl⟩)
      · exact Nat.le_of_eq nine
      · exact Nat.le_of_not_lt small
    rw [if_neg few, Nat.min_eq_right (Nat.le_of_not_lt few)]
    exact comes_overlong clean smooth (split_at enough) high nine big (Nat.le_refl _)

theorem comes_unannounced {o : Order} {f : LengthField} (clean : r.slot.first = none)
    (smooth : r.source.Smooth)
    (unannounced : ∀ p n, p <+: r.source.remaining → ¬ f.Announces o p n) :
    match f.width? with
    | some w =>
      r.source.remaining.length < w.bytes ∧
        Comes r none (some (.shortRead r.source.remaining.length w.bytes))
          r.source.remaining.length ((length? o f).run r)
    | none =>
      Comes r none
        (some (if r.source.remaining.length < maxBytes then .shortRead 0 1 else .varintOverflow))
        (min r.source.remaining.length maxBytes) ((length? o f).run r) := by
  unfold LengthField.Announces at unannounced
  unfold length?
  cases width : f.width? with
  | some w =>
    simp only [width] at unannounced
    have short : r.source.remaining.length < w.bytes := by
      by_contra enough
      have front : (r.source.remaining.take w.bytes).length = w.bytes :=
        List.length_take_of_le (Nat.le_of_not_lt enough)
      exact unannounced _ _ (List.take_prefix w.bytes _) ⟨front, rfl⟩
    exact ⟨short, (comes_short clean smooth short).map (Option.map o.value)⟩
  | none =>
    simp only [width] at unannounced
    exact comes_no_numeral clean smooth unannounced

/-! ## The payload behind it -/

theorem comes_exactly {n : Nat} (clean : r.slot.first = none) (smooth : r.source.Smooth)
    (enough : n ≤ r.source.remaining.length) :
    Comes r (some (r.source.remaining.take n)) none n ((exactly? n).run r) := by
  have size : (r.source.remaining.take n).length = n := List.length_take_of_le enough
  have takes := takes_exactly (r.source.remaining.take n)
  rw [size] at takes
  have comes := Comes.of_takes takes clean smooth (List.take_append_drop n _).symm
  rwa [size] at comes

section

variable {o : Order} {f : LengthField} {p rest : Bytes} {n : Nat}

theorem comes_payload (clean : r.slot.first = none) (smooth : r.source.Smooth)
    (bytes : r.source.remaining = p ++ rest) (announced : f.Announces o p n) :
    (n ≤ maxLength → n ≤ rest.length →
      Comes r (some (rest.take n)) none (p.length + n) ((payload? o f).run r)) ∧
      (n ≤ maxLength → rest.length < n →
        Comes r none (some (.shortRead rest.length n)) r.source.remaining.length
          ((payload? o f).run r)) ∧
      (maxLength < n →
        Comes r none (some (.lengthTooLarge n maxLength)) p.length ((payload? o f).run r)) := by
  have length := comes_announced clean smooth bytes announced
  have behind : r.source.remaining.drop p.length = rest := by rw [bytes, List.drop_left]
  have whole : r.source.remaining.length = p.length + rest.length := by
    rw [bytes, List.length_append]
  refine ⟨fun bounded enough => ?_, fun bounded short => ?_, fun long => ?_⟩
  · refine length.bind fun r' slot smooth' left => ?_
    rw [behind] at left
    rw [← left] at enough
    simp only [Nat.not_lt.mpr bounded, if_false, ← left]
    exact comes_exactly (congrArg ErrorSlot.first slot) smooth' enough
  · rw [whole]
    refine length.bind fun r' slot smooth' left => ?_
    rw [behind] at left
    rw [← left] at short
    simp only [Nat.not_lt.mpr bounded, if_false, ← left]
    exact comes_short (congrArg ErrorSlot.first slot) smooth' short
  · rw [← Nat.add_zero p.length]
    refine length.bind fun r' slot smooth' left => ?_
    simp only [long, if_true]
    exact comes_noted (congrArg ErrorSlot.first slot) smooth' List.drop_zero.symm _ none

theorem comes_blob {b : Option Bytes} {failure : Option Failure} {taken : Nat}
    (comes : Comes r b failure taken ((payload? o f).run r)) :
    Comes r (.value (.bytes (b.getD []))) failure taken ((perform (.fetch (.blob o f))).run r) := by
  have fetched := comes.map fun b => Reply.value (.bytes (b.getD []))
  have whole : perform (.fetch (.blob o f)) =
      (do let b ← payload? o f; pure (Reply.value (.bytes (b.getD [])))) := by
    rw [perform, fetch, bind_assoc]
    simp only [pure_bind]
  rwa [whole]

end

end StreamReader

namespace ScratchReader

open Leb128 (maxBytes)
open StreamReader (Reply)

theorem Ends.unique {α : Type} {s : ScratchReader} {a : Op α} {v v' : α}
    {failure failure' : Option Failure}
    {taken taken' : Nat} (ends : Ends s a v failure taken) (ends' : Ends s a v' failure' taken') :
    v = v' ∧ failure = failure' := by
  obtain ⟨last, ran, slot, -⟩ := ends
  obtain ⟨last', ran', slot', -⟩ := ends'
  rw [ran, Logged.mk.injEq, Prod.mk.injEq, Except.ok.injEq, Prod.mk.injEq] at ran'
  obtain ⟨⟨⟨answer, -⟩, reader⟩, -⟩ := ran'
  rw [reader, slot'] at slot
  exact ⟨answer, (congrArg ErrorSlot.first slot).symm⟩

section

variable {s : ScratchReader} {o : Order} {f : LengthField}

theorem ends_blob {b : Option Bytes} {failure : Option Failure} {taken : Nat}
    (room : s.scratch.length = scratchBytes)
    (comes : StreamReader.Comes s.reader b failure taken
      ((StreamReader.payload? o f).run s.reader)) :
    Ends s (perform (.fetch (.blob o f))) (.value (.bytes (b.getD []))) failure taken :=
  ends_of_comes (StreamReader.comes_blob comes) (shadows_perform fun _ same => by cases same) room

theorem ends_announced {p rest : Bytes} {n : Nat} (clean : s.reader.slot.first = none)
    (smooth : s.reader.source.Smooth)
    (room : s.scratch.length = scratchBytes) (bytes : s.reader.source.remaining = p ++ rest)
    (announced : f.Announces o p n) :
    let read := perform (.fetch (.blob o f))
    (n ≤ maxLength → n ≤ rest.length →
      Ends s read (.value (.bytes (rest.take n))) none (p.length + n)) ∧
      (n ≤ maxLength → rest.length < n →
        Ends s read (.value (.bytes [])) (some (.shortRead rest.length n))
          s.reader.source.remaining.length) ∧
      (maxLength < n →
        Ends s read (.value (.bytes [])) (some (.lengthTooLarge n maxLength)) p.length) := by
  obtain ⟨whole, cut, long⟩ := StreamReader.comes_payload clean smooth bytes announced
  exact ⟨fun bounded enough => ends_blob room (whole bounded enough),
    fun bounded short => ends_blob room (cut bounded short),
    fun great => ends_blob room (long great)⟩

theorem ends_unannounced (clean : s.reader.slot.first = none) (smooth : s.reader.source.Smooth)
    (room : s.scratch.length = scratchBytes)
    (unannounced : ∀ p n, p <+: s.reader.source.remaining → ¬ f.Announces o p n) :
    let input := s.reader.source.remaining
    match f.width? with
    | some w => input.length < w.bytes ∧ Ends s (perform (.fetch (.blob o f))) (.value (.bytes []))
        (some (.shortRead input.length w.bytes)) input.length
    | none => Ends s (perform (.fetch (.blob o f))) (.value (.bytes []))
        (some (if input.length < maxBytes then .shortRead 0 1 else .varintOverflow))
          (min input.length maxBytes) := by
  have comes := StreamReader.comes_unannounced clean smooth unannounced
  have payload {failure : Failure} {taken : Nat}
      (length : StreamReader.Comes s.reader none (some failure) taken
        ((StreamReader.length? o f).run s.reader)) :
      StreamReader.Comes s.reader none (some failure) taken
        ((StreamReader.payload? o f).run s.reader) := length.stop rfl
  cases width : f.width? with
  | some w =>
    rw [width] at comes
    exact ⟨comes.1, ends_blob room (payload comes.2)⟩
  | none =>
    rw [width] at comes
    exact ends_blob room (payload comes)

theorem announced_of_ends {b : Bytes} {taken : Nat} (clean : s.reader.slot.first = none)
    (smooth : s.reader.source.Smooth) (room : s.scratch.length = scratchBytes)
    (ends : Ends s (perform (.fetch (.blob o f))) (.value (.bytes b)) none taken) :
    ∃ p rest, s.reader.source.remaining = p ++ (b ++ rest) ∧ f.Announces o p b.length ∧
      b.length ≤ maxLength := by
  have fine {v : Reply} {failure : Failure} {taken' : Nat}
      (failed : Ends s (perform (.fetch (.blob o f))) v (some failure) taken') : False := by
    cases (ends.unique failed).2
  by_cases found : ∃ p n, p <+: s.reader.source.remaining ∧ f.Announces o p n
  · obtain ⟨p, n, ⟨rest, bytes⟩, found⟩ := found
    obtain ⟨whole, cut, long⟩ := ends_announced clean smooth room bytes.symm found
    have bounded : n ≤ maxLength := Nat.le_of_not_lt fun great => fine (long great)
    have enough : n ≤ rest.length := Nat.le_of_not_lt fun short => fine (cut bounded short)
    have same : b = rest.take n := by simpa using (ends.unique (whole bounded enough)).1
    have size : b.length = n := same ▸ List.length_take_of_le enough
    refine ⟨p, rest.drop n, ?_, size ▸ found, size.trans_le bounded⟩
    rw [same, List.take_append_drop, bytes]
  · have unannounced :=
      ends_unannounced clean smooth room fun p n front found' => found ⟨p, n, front, found'⟩
    cases width : f.width? with
    | some w =>
      rw [width] at unannounced
      exact (fine unannounced.2).elim
    | none =>
      rw [width] at unannounced
      exact (fine unannounced).elim

/-- A payload is read just where a field tells its length, no more than a buffer can hold, and as
many bytes stand behind the field. -/
theorem blob_parsed_exactly (s : ScratchReader) (clean : s.reader.slot.first = none)
    (smooth : s.reader.source.Smooth) (room : s.scratch.length = scratchBytes) (o : Order)
    (f : LengthField) :
    let input := s.reader.source.remaining
    let read := perform (.fetch (.blob o f))
    (∀ b, (∃ taken, Ends s read (.value (.bytes b)) none taken) ↔
        ∃ p rest, input = p ++ (b ++ rest) ∧ f.Announces o p b.length ∧ b.length ≤ maxLength) ∧
      (∀ p n rest, input = p ++ rest → f.Announces o p n →
        (n ≤ maxLength → n ≤ rest.length →
          Ends s read (.value (.bytes (rest.take n))) none (p.length + n)) ∧
        (n ≤ maxLength → rest.length < n →
          Ends s read (.value (.bytes [])) (some (.shortRead rest.length n)) input.length) ∧
        (maxLength < n →
          Ends s read (.value (.bytes [])) (some (.lengthTooLarge n maxLength)) p.length)) ∧
      ((∀ p n, p <+: input → ¬ f.Announces o p n) →
        match f.width? with
        | some w => input.length < w.bytes ∧
            Ends s read (.value (.bytes [])) (some (.shortRead input.length w.bytes)) input.length
        | none => Ends s read (.value (.bytes []))
            (some (if input.length < maxBytes then .shortRead 0 1 else .varintOverflow))
            (min input.length maxBytes)) := by
  intro input read
  refine ⟨fun b => ⟨fun ⟨taken, ends⟩ => announced_of_ends clean smooth room ends, ?_⟩,
    fun p n rest bytes found => ends_announced clean smooth room bytes found,
      ends_unannounced clean smooth room⟩
  rintro ⟨p, rest, bytes, found, bounded⟩
  have whole := (ends_announced clean smooth room bytes found).1 bounded (by simp)
  rw [List.take_left] at whole
  exact ⟨_, whole⟩

theorem blob_parsed_exactly_padded :
    let padded : Source :=
      ⟨[.data [0x82], .fault ⟨.interrupted, "again"⟩, .data [0x00, 7], .data [], .data [8, 9]]⟩
    let hostile : Source := ⟨[.data [0x80, 0, 0, 0, 0, 0, 0, 0, 7]]⟩
    let reader (source : Source) : ScratchReader := ⟨.over source false, [1, 2, 3, 4, 5, 6, 7, 8]⟩
    let read (o : Order) (f : LengthField) := perform (.fetch (.blob o f))
    padded.Smooth ∧ hostile.Smooth ∧ LengthField.variable.Announces .standard [0x82, 0x00] 2 ∧
      Ends (reader padded) (read .standard .variable) (.value (.bytes [7, 8])) none 4 ∧
      Ends (reader hostile) (read (.fixed .big) .eight) (.value (.bytes []))
        (some (.lengthTooLarge (2 ^ 63) maxLength)) 8 ∧
      Ends (reader padded) (read .standard .one) (.value (.bytes [])) (some (.shortRead 4 0x82)) 5 ∧
      Ends (reader ⟨[.data [1]]⟩) (read .standard .two) (.value (.bytes []))
        (some (.shortRead 1 2)) 1 := by
  intro padded hostile reader read
  have smooth : padded.Smooth := by decide
  have smooth' : hostile.Smooth := by decide
  have two : LengthField.variable.Announces .standard [0x82, 0x00] 2 := by decide
  have great : LengthField.eight.Announces (.fixed .big) [0x80, 0, 0, 0, 0, 0, 0, 0] (2 ^ 63) := by
    decide +kernel
  have more : LengthField.one.Announces .standard [0x82] 0x82 := by decide
  refine ⟨smooth, smooth', two, ?_, ?_, ?_, ?_⟩
  · exact ((blob_parsed_exactly (reader padded) rfl smooth rfl .standard .variable).2.1 _ _
      [7, 8, 9] rfl two).1 (by decide) (by decide)
  · exact ((blob_parsed_exactly (reader hostile) rfl smooth' rfl _ _).2.1 _ _
      [7] rfl great).2.2 (by decide +kernel)
  · exact ((blob_parsed_exactly (reader padded) rfl smooth rfl _ _).2.1 _ _
      [0, 7, 8, 9] rfl more).2.1 (by decide) (by decide)
  · refine ((blob_parsed_exactly (reader ⟨[.data [1]]⟩) rfl (by decide) rfl
      .standard .two).2.2 ?_).2
    rintro p n front ⟨size, -⟩
    have short : p.length ≤ 1 := front.length_le
    exact absurd size (Nat.ne_of_lt (Nat.lt_succ_of_le short))

end

end ScratchReader

end WireCodec
