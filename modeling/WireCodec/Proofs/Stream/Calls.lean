import WireCodec.Proofs.Stream.Blobs
import WireCodec.Proofs.Stream.Reporting
import WireCodec.Proofs.Stream.Tearing

/-!
# The calls of a write

A value goes to the sink in one buffer, a complex number in two, and a payload behind a buffer of
its own for its length. Each buffer is offered once. The second follows the first whatever came of
it, unless the writer is strict and the first was not taken whole. Nothing at all is offered of a
payload that its length field cannot announce.
-/

set_option autoImplicit false

namespace WireCodec

/-! ## The buffers of an item -/

/-- The bytes are as many as the width has and stand for the residue of the integer. -/
def Order.Spells (o : Order) (w : Width) (n : Int) (b : Bytes) : Prop :=
  b.length = w.bytes ∧ (o.value b : Int) = n % w.modulus

/-- The bytes are a length field that tells `n`, and no shorter one does. -/
def LengthField.Heads (f : LengthField) (o : Order) (p : Bytes) (n : Nat) : Prop :=
  f.Announces o p n ∧ ∀ q, f.Announces o q n → p.length ≤ q.length

/-- How an item is cut into a first buffer and, for some, a second. -/
inductive Item.Cut : Item Order → Bytes → Option Bytes → Prop
  | bytes (b : Bytes) : Cut (.bytes b) b none
  | word {o : Order} {w : Word} {b : Bytes} (spelt : o.Spells w.format.width w.toInt b) :
    Cut (.word o w) b none
  | bool (v : Bool) : Cut (.bool v) [if v then 1 else 0] none
  | uint {o : Order} {w : Width} {v : UInt64} {b : Bytes} (spelt : o.Spells w v.toNat b) :
    Cut (.uint o w v) b none
  | int {o : Order} {w : Width} {v : Int64} {b : Bytes} (spelt : o.Spells w v.toInt b) :
    Cut (.int o w v) b none
  | uvarint {v : UInt64} {b : Bytes} (shortest : Leb128.Shortest b v.toNat) :
    Cut (.uvarint v) b none
  | varint {v : Int64} {n : Nat} {b : Bytes}
    (numbered : (n : Int) = if v.toInt < 0 then -2 * v.toInt - 1 else 2 * v.toInt)
      (shortest : Leb128.Shortest b n) : Cut (.varint v) b none
  | float32 {o : Order} {p : UInt32} {b : Bytes} (spelt : o.Spells .b32 p.toNat b) :
    Cut (.float32 o p) b none
  | float64 {o : Order} {p : UInt64} {b : Bytes} (spelt : o.Spells .b64 p.toNat b) :
    Cut (.float64 o p) b none
  | complex64 {o : Order} {re im : UInt32} {b c : Bytes} (real : o.Spells .b32 re.toNat b)
      (imaginary : o.Spells .b32 im.toNat c) : Cut (.complex64 o re im) b (some c)
  | complex128 {o : Order} {re im : UInt64} {b c : Bytes} (real : o.Spells .b64 re.toNat b)
      (imaginary : o.Spells .b64 im.toNat c) : Cut (.complex128 o re im) b (some c)
  | blob {o : Order} {f : LengthField} {b p : Bytes} (fits : b.length ≤ f.maxLength)
    (heads : f.Heads o p b.length) :
      Cut (.blob o f b) p (some b)
  | text {o : Order} {f : LengthField} {s : String} {p : Bytes}
    (fits : (Utf8.encode s).length ≤ f.maxLength)
      (heads : f.Heads o p (Utf8.encode s).length) : Cut (.text o f s) p (some (Utf8.encode s))

namespace Order

variable {o : Order} {w : Width} {n : Int} {b c : Bytes}

theorem Spells.unique (h : o.Spells w n b) (h' : o.Spells w n c) : b = c := by
  have value : o.value b = o.value c := Int.ofNat.inj (h.2.trans h'.2.symm)
  rw [← o.digits_value b, ← o.digits_value c, value, h.1, h'.1]

theorem spells_digits {m : Nat} (o : Order) (same : (m : Int) % w.modulus = n % w.modulus) :
    o.Spells w n (o.digits w.bytes m) := by
  refine ⟨o.length_digits w.bytes m, ?_⟩
  rw [o.value_digits, Int.natCast_emod]
  exact same

theorem spells_word (o : Order) (w : Word) : o.Spells w.format.width w.toInt (w.encode o) := by
  rw [w.encode_eq_digits]
  exact spells_digits o w.bits_residue

theorem spells_int (o : Order) (w : Width) (v : Int64) :
    o.Spells w v.toInt (o.digits w.bytes v.toUInt64.toNat) := by
  refine spells_digits o ?_
  have residue : (v.toUInt64.toNat : Int) = v.toInt % (2 ^ 64 : Nat) := natCast_toNat v.toBitVec
  have dvd : (w.modulus : Int) ∣ (2 ^ 64 : Nat) := Int.natCast_dvd_natCast.mpr w.modulus_dvd
  rw [residue, Int.emod_emod_of_dvd _ dvd]

end Order

theorem LengthField.heads_iff {f : LengthField} {o : Order} {p : Bytes} {n : Nat}
    (fits : n ≤ f.maxLength) :
    f.Heads o p n ↔ p = f.encode o n := by
  unfold Heads Announces encode
  unfold maxLength Width.maxUnsigned at fits
  cases width : f.width? with
  | some w =>
    rw [width, Option.getD_some] at fits
    have below : n < w.modulus := by have pos := w.modulus_pos; omega
    dsimp only
    constructor
    · rintro ⟨⟨size, value⟩, -⟩
      rw [← value, ← size, o.digits_value]
    · rintro rfl
      refine ⟨⟨o.length_digits w.bytes n, ?_⟩,
        fun q ⟨size, _⟩ => (o.length_digits w.bytes n).trans_le size.ge⟩
      rw [o.value_digits]
      exact Nat.mod_eq_of_lt below
  | none =>
    rw [width, Option.getD_none] at fits
    have shortest := Leb128.shortest_encode (n := n) (Nat.lt_of_le_of_lt fits (by decide))
    exact ⟨fun heads => Leb128.Shortest.unique heads shortest, fun same => same ▸ shortest⟩

namespace Item

theorem counted_of_heads {o : Order} {f : LengthField} {b p : Bytes} (fits : b.length ≤ f.maxLength)
    (heads : f.Heads o p b.length) : counted o f b = .ok [p, b] := by
  rw [counted, if_neg (Nat.not_lt.mpr fits), (LengthField.heads_iff fits).mp heads]

theorem buffers_of_cut {i : Item Order} {b : Bytes} {c : Option Bytes} (cut : i.Cut b c) :
    i.buffers = .ok (b :: c.toList) := by
  cases cut with
  | bytes | bool => rfl
  | word spelt => rw [spelt.unique (Order.spells_word _ _)]; rfl
  | uint spelt => rw [spelt.unique (Order.spells_digits _ rfl)]; rfl
  | int spelt => rw [spelt.unique (Order.spells_int _ _ _)]; rfl
  | uvarint shortest => rw [shortest.unique (Leb128.shortest_encode (UInt64.toNat_lt _))]; rfl
  | varint numbered shortest =>
    rw [← Zigzag.toNat_toUnsigned, Int.natCast_inj] at numbered
    subst numbered
    rw [shortest.unique (Leb128.shortest_encode (UInt64.toNat_lt _))]
    rfl
  | float32 spelt | float64 spelt => rw [spelt.unique (Order.spells_digits _ rfl)]; rfl
  | complex64 real imaginary | complex128 real imaginary =>
    rw [real.unique (Order.spells_digits _ rfl), imaginary.unique (Order.spells_digits _ rfl)]
    rfl
  | blob fits heads | text fits heads => exact counted_of_heads fits heads

theorem length_le_of_overflow? {f : LengthField} {b : Bytes} {e : Failure}
    (fits : (if f.maxLength < b.length then some e else none) = none) : b.length ≤ f.maxLength := by
  by_contra great
  rw [if_pos (Nat.lt_of_not_le great)] at fits
  cases fits

theorem exists_cut {i : Item Order} (fits : i.overflow? = none) : ∃ b c, i.Cut b c := by
  cases i with
  | bytes b => exact ⟨_, _, .bytes b⟩
  | word o w => exact ⟨_, _, .word (o.spells_word w)⟩
  | bool v => exact ⟨_, _, .bool v⟩
  | uint o w v => exact ⟨_, _, .uint (o.spells_digits rfl)⟩
  | int o w v => exact ⟨_, _, .int (o.spells_int w v)⟩
  | uvarint v => exact ⟨_, _, .uvarint (Leb128.shortest_encode v.toNat_lt)⟩
  | varint v =>
    exact ⟨_, _, .varint (Zigzag.toNat_toUnsigned v) (Leb128.shortest_encode (UInt64.toNat_lt _))⟩
  | float32 o p => exact ⟨_, _, .float32 (o.spells_digits rfl)⟩
  | float64 o p => exact ⟨_, _, .float64 (o.spells_digits rfl)⟩
  | complex64 o re im => exact ⟨_, _, .complex64 (o.spells_digits rfl) (o.spells_digits rfl)⟩
  | complex128 o re im => exact ⟨_, _, .complex128 (o.spells_digits rfl) (o.spells_digits rfl)⟩
  | blob o f b =>
    have bound := length_le_of_overflow? fits
    exact ⟨_, _, .blob bound ((LengthField.heads_iff bound).mpr rfl)⟩
  | text o f s =>
    have bound := length_le_of_overflow? fits
    exact ⟨_, _, .text bound ((LengthField.heads_iff bound).mpr rfl)⟩

theorem buffers_of_overflow? {i : Item Order} {f : Failure} (overflow : i.overflow? = some f) :
    i.buffers = .error f := by
  rw [overflow?_eq] at overflow
  cases encoded : i.buffers with
  | error g =>
    rw [encoded] at overflow
    exact congrArg _ (Option.some.inj overflow)
  | ok bs => simp [encoded] at overflow

theorem cut_iff {i : Item Order} {b : Bytes} {c : Option Bytes} :
    i.Cut b c ↔ i.buffers = .ok (b :: c.toList) := by
  refine ⟨buffers_of_cut, fun encoded => ?_⟩
  have fits := i.overflow?_eq
  rw [encoded] at fits
  obtain ⟨b', c', cut⟩ := exists_cut fits
  have same := (buffers_of_cut cut).symm.trans encoded
  cases c <;> cases c' <;> cases same <;> exact cut

end Item

/-! ## The calls -/

namespace Sink

def takes (s : Sink) (history : List SinkCall) (b : Bytes) : Nat :=
  match s.accept history b with
  | .error _ => 0
  | .ok n => min n b.length

theorem taking_min (s : Sink) (b : Bytes) (n : Nat) :
    s.taking b (min n b.length) = s.taking b n := by
  rw [taking, taking, ← List.take_eq_take_min]

theorem isSome_verdict (s : Sink) (history : List SinkCall) (b : Bytes) :
    (s.verdict true history (.write b)).isSome = s.balks history b := by
  rw [verdict, balks]
  cases s.accept history b with
  | error e => rfl
  | ok n =>
    by_cases short : n < b.length
    · simp only [short, and_self, if_true, Option.isSome_some, decide_true]
    · simp only [short, and_false, if_false, Option.isSome_none, decide_false]

/-- The buffers that are offered: those up to the first at which the sink balks, if that is the end
of it. -/
def reached (s : Sink) (strict : Bool) : List SinkCall → List Bytes → List Bytes
  | _, [] => []
  | history, b :: bs =>
    b :: if strict && s.balks history b then [] else s.reached strict (history ++ [.write b]) bs

theorem reached_taking (s : Sink) (b : Bytes) (n : Nat) (strict : Bool) (history : List SinkCall)
    (bs : List Bytes) :
    (s.taking b n).reached strict history bs = s.reached strict history bs := by
  induction bs generalizing history with
  | nil => rfl
  | cons c bs ih =>
    rw [reached, reached, ih]
    rfl

end Sink

namespace StreamWriter

variable {w : StreamWriter}

theorem blocked_or (unblocked : w.slot.blocked = false) (f : Option Failure) :
    (ErrorSlot.mk w.slot.strict (w.slot.first.or f)).blocked = (w.slot.strict && f.isSome) := by
  obtain ⟨⟨strict, first⟩, sink⟩ := w
  cases strict <;> cases first <;> simp_all [ErrorSlot.blocked]

theorem offer_made (unblocked : w.slot.blocked = false) (b : Bytes) :
    let n := w.sink.takes w.sink.calls b
    let f := w.sink.verdict true w.sink.calls (.write b)
    ((offer b).run w).value = (n, ⟨⟨w.slot.strict, w.slot.first.or f⟩, w.sink.taking b n⟩) := by
  rw [Sink.takes, Sink.verdict]
  cases answer : w.sink.accept w.sink.calls b with
  | error e =>
    rw [offer_of_error unblocked (Sink.write_of_error answer), note_pure]
    rfl
  | ok n =>
    have taken := Sink.write_of_ok answer
    rw [← Sink.taking_min] at taken
    dsimp only
    rcases Nat.lt_or_ge n b.length with short | whole
    · rw [Nat.min_eq_left (Nat.le_of_lt short)] at taken ⊢
      rw [offer_of_short unblocked taken (Nat.ne_of_lt short), note_pure, if_pos ⟨rfl, short⟩]
      rfl
    · rw [Nat.min_eq_right whole] at taken ⊢
      rw [offer_of_whole unblocked taken, if_neg (fun part => Nat.not_lt.mpr whole part.2),
        Option.or_none]
      rfl

theorem calls_offerAll (unblocked : w.slot.blocked = false) (bs : List Bytes) :
    ((offerAll bs).run w).value.2.sink.calls =
      w.sink.calls ++ (w.sink.reached w.slot.strict w.sink.calls bs).map .write := by
  -- On the buffers, for any writer that is not blocked. One that balked at the first and is strict
  -- is blocked for the others.
  induction bs generalizing w with
  | nil => exact (List.append_nil _).symm
  | cons b bs ih =>
    let sink := w.sink.taking b (w.sink.takes w.sink.calls b)
    let slot : ErrorSlot :=
      ⟨w.slot.strict, w.slot.first.or (w.sink.verdict true w.sink.calls (.write b))⟩
    have after : slot.blocked = (w.slot.strict && w.sink.balks w.sink.calls b) := by
      rw [← Sink.isSome_verdict]
      exact blocked_or unblocked _
    have rest : ((offerAll (b :: bs)).run w).value.2 =
        ((offerAll bs).run ⟨slot, sink⟩).value.2 := by
      change ((offerAll bs).run ((offer b).run w).value.2).value.2 = _
      rw [offer_made unblocked]
    rw [rest, Sink.reached, ← after]
    cases stuck : slot.blocked with
    | true =>
      rw [offerAll_of_blocked stuck]
      rfl
    | false =>
      have same : sink.reached slot.strict sink.calls bs =
          w.sink.reached w.slot.strict (w.sink.calls ++ [.write b]) bs :=
        w.sink.reached_taking b _ slot.strict sink.calls bs
      rw [ih stuck, same, if_neg Bool.false_ne_true, List.map_cons]
      exact List.append_assoc _ _ _

theorem put_refused {i : Item Order} {f : Failure} (unblocked : w.slot.blocked = false)
    (refused : i.buffers = .error f) :
    (put i).run w = ⟨(0, ⟨w.slot.keeping f, w.sink⟩), w.slot.news .writer f⟩ := by
  rw [← note_pure]
  simp [put, StateT.run_bind, unblocked, refused]

theorem calls_put {i : Item Order} {first : Bytes} {second : Option Bytes}
    (unblocked : w.slot.blocked = false)
    (cut : i.Cut first second) : ((put i).run w).value.2.sink.calls =
      w.sink.calls ++ .write first ::
      if w.slot.strict && w.sink.balks w.sink.calls first then []
        else (second.map .write).toList := by
  rw [put_eq_offerAll (Item.buffers_of_cut cut), calls_offerAll unblocked, Sink.reached,
    List.map_cons, apply_ite (List.map _)]
  cases second with
  | none => rfl
  | some c =>
    have last (history : List SinkCall) : w.sink.reached w.slot.strict history [c] = [c] := by
      rw [Sink.reached, Sink.reached, ite_self]
    rw [Option.toList_some, last]
    rfl

end StreamWriter

namespace ScratchWriter

open StreamWriter (Reply)

/-- An item is offered in the buffers that it is cut into, each in one call; a strict writer
withholds the second if the sink balks at the first. -/
theorem put_calls (s : ScratchWriter) (room : s.scratch.length = Leb128.maxBytes)
    (unblocked : s.writer.slot.blocked = false) (i : Item Order) :
    let slot := s.writer.slot
    let sink := s.writer.sink
    ∃ reply s' events, runOn (perform (.put i)) s = ⟨.ok (reply, s'), events⟩ ∧
      match i.overflow? with
      | some f => s'.writer = ⟨slot.keeping f, sink⟩ ∧ events = slot.news .writer f
      | none => ∃ (first : Bytes) (second : Option Bytes), i.Cut first second ∧
          (s'.writer.sink.calls = sink.calls ++ .write first ::
            if slot.strict && sink.balks sink.calls first then [] else (second.map .write).toList) ∧
          ∀ b, i = .bytes b → reply = .count (sink.takes sink.calls b) ∧
            s'.writer.sink = sink.taking b (sink.takes sink.calls b) := by
  intro slot sink
  obtain ⟨scratch', -, ran⟩ := shadows_perform (.put i) s.writer s.scratch room
  refine ⟨_, _, _, ran, ?_⟩
  cases overflow : i.overflow? with
  | some f =>
    have refused := StreamWriter.put_refused unblocked (Item.buffers_of_overflow? overflow)
    rw [StreamWriter.perform, StateT.run_bind, refused]
    exact ⟨rfl, List.append_nil _⟩
  | none =>
    obtain ⟨first, second, cut⟩ := Item.exists_cut overflow
    refine ⟨first, second, cut, StreamWriter.calls_put unblocked cut, ?_⟩
    rintro b rfl
    have made := StreamWriter.offer_made unblocked b
    rw [StreamWriter.perform, put_of_single rfl]
    change Reply.count ((StreamWriter.offer b).run s.writer).value.1 = _ ∧
      ((StreamWriter.offer b).run s.writer).value.2.sink = _
    rw [made]
    exact ⟨rfl, rfl⟩

theorem put_calls_refused :
    let sink := Sink.scripted (some 2) [.refuse 1 ⟨.interrupted, "again"⟩]
    let writer (sink : Sink) (strict : Bool) : ScratchWriter :=
      ⟨.over sink strict, List.replicate 10 0xee⟩
    let blob : Item Order := .blob (.fixed .big) .one [7, 8, 9]
    let long : Item Order := .blob (.fixed .big) .one (List.replicate 256 0)
    let Calls (s : ScratchWriter) (i : Item Order) (calls : List SinkCall) : Prop :=
      ∃ reply s' events, runOn (perform (.put i)) s = ⟨.ok (reply, s'), events⟩ ∧
        s'.writer.sink.calls = calls
    (∀ strict, (writer sink strict).scratch.length = Leb128.maxBytes ∧
      (writer sink strict).writer.slot.blocked = false) ∧
      Calls (writer sink true) blob [.write [3]] ∧
      Calls (writer sink false) blob [.write [3], .write [7, 8, 9]] ∧
      Calls (writer sink true) long [] ∧
      ∃ s' events, runOn (perform (.put (.bytes [7, 8, 9]))) (writer (.scripted (some 2) []) true) =
        ⟨.ok (.count 2, s'), events⟩ := by
  intro sink writer blob long Calls
  have fine (sink : Sink) (strict : Bool) : (writer sink strict).writer.slot.blocked = false :=
    ErrorSlot.unblocked_of_clean rfl
  have cut {first : Bytes} {second : Option Bytes} (cut : blob.Cut first second) :
      first = [3] ∧ second = some [7, 8, 9] := by
    have encoded := Item.cut_iff.mp cut
    cases second <;> cases encoded
    exact ⟨rfl, rfl⟩
  have great : long.overflow? = some (.integerOverflow 256 255) := by
    rw [Item.overflow?, List.length_replicate]
    rfl
  refine ⟨fun strict => ⟨rfl, fine sink strict⟩, ?_, ?_, ?_, ?_⟩
  · obtain ⟨reply, s', events, ran, first, second, blob_cut, calls, -⟩ :=
      put_calls (writer sink true) rfl (fine _ _) blob
    obtain ⟨rfl, rfl⟩ := cut blob_cut
    exact ⟨reply, s', events, ran, calls⟩
  · obtain ⟨reply, s', events, ran, first, second, blob_cut, calls, -⟩ :=
      put_calls (writer sink false) rfl (fine _ _) blob
    obtain ⟨rfl, rfl⟩ := cut blob_cut
    exact ⟨reply, s', events, ran, calls⟩
  · have refused := put_calls (writer sink true) rfl (fine _ _) long
    rw [great] at refused
    obtain ⟨reply, s', events, ran, kept⟩ := refused
    exact ⟨reply, s', events, ran, congrArg (fun w => w.sink.calls) kept.1⟩
  · obtain ⟨reply, s', events, ran, first, second, -, -, count⟩ :=
      put_calls (writer (.scripted (some 2) []) true) rfl (fine _ _) (.bytes [7, 8, 9])
    obtain ⟨rfl, -⟩ := count _ rfl
    exact ⟨s', events, ran⟩

end ScratchWriter

end WireCodec
