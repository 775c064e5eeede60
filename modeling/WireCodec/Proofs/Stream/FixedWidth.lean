import WireCodec.Proofs.Accesses
import WireCodec.Proofs.Stream.Calls
import WireCodec.Proofs.Stream.Filling
import WireCodec.Proofs.Stream.ScratchReader

/-!
# Fixed widths

A word of fixed width can be written and read in two ways: by the operation of its own width, or by
the one to which the width is given as a number, which goes through 64 bits. Both do the same,
whatever the sink or the source does and however wide the value is. Signed words are read as
unsigned ones first; a cast or two shifts give them their sign.
-/

set_option autoImplicit false

namespace WireCodec

/-- The word as an integer of 64 bits that is written at a width given as a number. -/
def Word.wide (o : Order) (x : Word) : Item Order :=
  if x.format.signed then .int o x.format.width x.bits.toInt64 else .uint o x.format.width x.bits

def Word.wideValue (x : Word) : Int :=
  if x.format.signed then x.bits.toInt64.toInt else x.bits.toNat

def IntFormat.wide (o : Order) (f : IntFormat) : Field Order :=
  if f.signed then .int o f.width else .uint o f.width

/-- The two's complement word of the bytes that make an unsigned one: a cast where they fill a
machine word, shifts where they do not. -/
def Word.withSign : Word → Word
  | .u8 v => .i8 v.toInt8
  | .u16 v => .i16 v.toInt16
  | .u24 v => .i24 (signExtend v.toUInt64 24).toInt32
  | .u32 v => .i32 v.toInt32
  | .u40 v => .i40 (signExtend v 40)
  | .u48 v => .i48 (signExtend v 48)
  | .u56 v => .i56 (signExtend v 56)
  | .u64 v => .i64 v.toInt64
  | x => x

theorem Word.wideValue_eq (x : Word) : x.wideValue = x.toInt := by
  cases x <;> simp [wideValue, format, bits, toInt, IntFormat.unsigned, IntFormat.twosComplement]

theorem IntFormat.withSign_word (w : Width) {n : Nat} (small : n < w.modulus) :
    ((unsigned w).word n).withSign = (twosComplement w).word n := by
  have extended := toInt_signExtend_ofNat w small
  have whole : signExtend (UInt64.ofNat n) w.bits = Int64.ofInt (w.toSigned n) := by
    rw [← extended, Int64.ofInt_toInt]
  cases w with
  | b8 | b16 | b32 | b64 => rfl
  | b40 => exact congrArg Word.i40 whole
  | b48 => exact congrArg Word.i48 whole
  | b56 => exact congrArg Word.i56 whole
  | b24 =>
    have widened : (UInt32.ofNat n).toUInt64 = UInt64.ofNat n :=
      Accesses.toUInt64_ofNat32 (small.trans_le (by decide))
    change Word.i24 (signExtend (UInt32.ofNat n).toUInt64 Width.b24.bits).toInt32 =
      .i24 (Int32.ofInt _)
    rw [widened, ← extended, Int32.ofInt_int64ToInt]

/-! ## Writing -/

namespace ScratchWriter

open StreamWriter (Reply)

theorem putWord_eq_putUInt (o : Order) (x : Word) :
    putWord o x = putUInt o x.format.width x.bits := by
  have stored (scratch : Bytes) :
      storeWord o scratch x = o.putUInt scratch x.format.width.bytes x.bits := by
    rw [storeWord_eq_stamp, x.encode_eq_digits, Accesses.putUInt_bytes]
  rw [putWord, putUInt]
  simp only [stored]

theorem perform_wide (o : Order) (x : Word) :
    perform (.put (.word o x)) = perform (.put (x.wide o)) := by
  have same : perform (.put (.word o x)) =
      (do putUInt o x.format.width x.bits; pure Reply.done) := by
    rw [← putWord_eq_putUInt]
    rfl
  rw [same, Word.wide]
  split
  · change _ = (do putUInt o x.format.width x.bits.toInt64.toUInt64; pure Reply.done)
    rw [UInt64.toUInt64_toInt64]
  · rfl

end ScratchWriter

theorem StreamWriter.perform_wide (o : Order) (x : Word) :
    perform (.put (.word o x)) = perform (.put (x.wide o)) := by
  have encoded : (x.wide o).buffers = .ok [x.encode o] := by
    rw [x.encode_eq_digits, Word.wide]
    split <;> rw [Item.buffers]
    rw [UInt64.toUInt64_toInt64]
  have silent (n : Nat) : putReply (x.wide o) n = putReply (.word o x) n := by
    unfold Word.wide
    split <;> rfl
  have same : put (x.wide o) = put (.word o x) :=
    (put_eq_offerAll encoded).trans (put_eq_offerAll rfl).symm
  rw [perform, perform, same]
  simp only [silent]

/-! ## Reading -/

theorem StreamReader.number_congr {α : Type} (o : Order) (w : Width) {g h : Option Nat → α}
    (read : ∀ n < w.modulus, g (some n) = h (some n)) (unread : g none = h none) :
    (do let n ← number? o w; pure (g n)) = (do let n ← number? o w; pure (h n)) := by
  refine StateT.ext fun r => ?_
  rw [number?, exactly?]
  simp only [bind_assoc, pure_bind]
  by_cases blocked : r.slot.blocked = true
  · rw [run_bind_of (draw_blocked blocked _), run_bind_of (draw_blocked blocked _)]
    simp only [Bool.false_eq_true, if_false, Option.map_none, unread]
  · have unblocked : r.slot.blocked = false := Bool.eq_false_iff.mpr blocked
    rw [run_bind_of (draw_run unblocked _), run_bind_of (draw_run unblocked _)]
    cases stop :
      (r.source.pull w.bytes).stop.failure? (r.source.pull w.bytes).bytes.length w.bytes with
    | some f =>
      simp only [Option.isNone_some, Bool.false_eq_true, if_false, Option.map_none, unread]
    | none =>
      have size : (r.source.pull w.bytes).bytes.length = w.bytes :=
        Source.length_of_full (Stop.failure?_eq_none.mp stop)
      simp only [Option.isNone_none, if_true, Option.map_some, read _ (o.value_lt_modulus size)]

theorem StreamReader.fetch_wide (o : Order) (f : IntFormat) :
    fetch (.word o f) = fetch (f.wide o) := by
  have wide : fetch (f.wide o) =
      (do let n ← number? o f.width; pure (.int (f.read (n.getD 0)))) := by
    obtain ⟨signed, w⟩ := f
    cases signed <;> rfl
  rw [wide, fetch, word, bind_assoc]
  simp only [pure_bind]
  refine number_congr o f.width (fun n small => ?_) ?_
  · exact congrArg Value.int (f.toInt_word small)
  · exact congrArg Value.int (f.toInt_word f.width.modulus_pos)

namespace ScratchReader

open StreamReader (Reply)

variable {α β : Type}

theorem runOn_load_congr {g h : Bytes → Except Misuse α} {s : ScratchReader}
    (same : g s.scratch = h s.scratch) :
    runOn (load g) s = runOn (load h) s := by
  have got : runOn (get : Op Bytes) s = pure (.ok (s.scratch, s.scratch), s.reader) := rfl
  rw [load, load, runOn_bind got, runOn_bind got, same]

theorem filled_map (n : Nat) (g : Bytes → Except Misuse α) (missing : α) (k : α → β) :
    (do let v ← (do if ← fillScratch n then load g else pure missing : Op α); pure (k v)) =
      (do
        if ← fillScratch n then load (fun scratch => (g scratch).map k)
        else pure (k missing)) := by
  rw [bind_assoc]
  congr 1
  funext full
  cases full with
  | false => rfl
  | true =>
    simp only [if_true, load, bind_assoc]
    congr 1
    funext scratch
    cases g scratch <;> rfl

theorem runOn_filled_congr {n : Nat} {g h : Bytes → Except Misuse α} {missing : α}
    (same : ∀ scratch b : Bytes, b.length = n → n ≤ scratch.length →
      g (scratch.overlay 0 b) = h (scratch.overlay 0 b))
    (s : ScratchReader) :
    runOn (do if ← fillScratch n then load g else pure missing) s =
      runOn (do if ← fillScratch n then load h else pure missing) s := by
  -- Where the slot is blocked, or the buffer too short, nothing is loaded at all.
  obtain ⟨r, scratch⟩ := s
  rw [runOn_bind_eq, runOn_bind_eq]
  by_cases blocked : r.slot.blocked = true
  · rw [fillScratch_blocked blocked]
    rfl
  have unblocked : r.slot.blocked = false := Bool.eq_false_iff.mpr blocked
  by_cases fits : n ≤ scratch.length
  · rw [fillScratch_unblocked unblocked fits (StreamReader.draw_run unblocked n)]
    dsimp only
    cases stop : (r.source.pull n).stop.failure? (r.source.pull n).bytes.length n with
    | some f => rfl
    | none =>
      have size : (r.source.pull n).bytes.length = n :=
        Source.length_of_full (Stop.failure?_eq_none.mp stop)
      simp only [Option.isNone_none, if_true]
      rw [runOn_load_congr (same scratch _ size fits)]
  · have thrown : runOn (fillScratch n) ⟨r, scratch⟩ = pure (.error .shortSlice, r) := by
      rw [fillScratch, runOn_bind (runOn_getReader _), if_neg blocked]
      have got : runOn (get : Op Bytes) ⟨r, scratch⟩ = pure (.ok (scratch, scratch), r) := rfl
      rw [runOn_bind got, if_pos (Nat.lt_of_not_le fits)]
      rfl
    rw [thrown]
    rfl

/-- A signed number of a narrow width is first read as an unsigned one. -/
def fetchSigned (o : Order) (w : Width) : Op Word := do
  let x ← fetchWord o (.unsigned w)
  pure x.withSign

def fetchInt (o : Order) (w : Width) : Op Int64 := do
  let n ← uint? o w
  pure (signExtend (UInt64.ofNat (n.getD 0)) w.bits)

theorem runOn_fetchSigned (o : Order) (w : Width) (s : ScratchReader) :
    runOn (fetchSigned o w) s = runOn (fetchWord o (.twosComplement w)) s := by
  have missing : ((IntFormat.unsigned w).word 0).withSign = (IntFormat.twosComplement w).word 0 :=
    IntFormat.withSign_word w w.modulus_pos
  rw [fetchSigned, fetchWord, filled_map, missing]
  refine runOn_filled_congr (fun scratch b size fits => ?_) s
  rw [loadWord_overlay o (.unsigned w) size fits, loadWord_overlay o (.twosComplement w) size fits]
  exact congrArg Except.ok (IntFormat.withSign_word w (o.value_lt_modulus size))

theorem uint_map (o : Order) (w : Width) (k : Option Nat → α) :
    (do let n ← uint? o w; pure (k n)) =
      (do
        if ← fillScratch w.bytes then
          load (fun scratch => (o.getUInt scratch w.bytes).map fun v => k (some v.toNat))
        else pure (k none)) := by
  rw [uint?, filled_map]
  congr 1
  funext full
  congr 2
  funext scratch
  cases o.getUInt scratch w.bytes <;> rfl

theorem runOn_fetchInt (o : Order) (w : Width) (s : ScratchReader) :
    runOn (do let v ← fetchInt o w; pure (Value.int v.toInt)) s = runOn (fetch (.int o w)) s := by
  have missing : (signExtend (UInt64.ofNat 0) w.bits).toInt = w.toSigned 0 :=
    toInt_signExtend_ofNat w w.modulus_pos
  have extended : (do let v ← fetchInt o w; pure (Value.int v.toInt)) =
      (do
        let n ← uint? o w
        pure (Value.int (signExtend (UInt64.ofNat (n.getD 0)) w.bits).toInt)) := by
    rw [fetchInt, bind_assoc]
    simp only [pure_bind]
  rw [extended, fetch, uint_map, uint_map, Option.getD_none, missing]
  refine runOn_filled_congr (fun scratch b size fits => ?_) s
  rw [getUInt_overlay o w size fits, Except.map, Except.map,
    o.toNat_value (size.trans_le w.bytes_le), Option.getD_some,
    toInt_signExtend_ofNat w (o.value_lt_modulus size)]

theorem runOn_fetch_wide (o : Order) (f : IntFormat) (s : ScratchReader) :
    runOn (fetch (.word o f)) s = runOn (fetch (f.wide o)) s := by
  have wide : fetch (f.wide o) = (do let n ← uint? o f.width; pure (.int (f.read (n.getD 0)))) := by
    obtain ⟨signed, w⟩ := f
    cases signed <;> rfl
  rw [wide, fetch, fetchWord, filled_map, uint_map, f.toInt_word f.width.modulus_pos]
  refine runOn_filled_congr (fun scratch b size fits => ?_) s
  rw [loadWord_overlay o f size fits, getUInt_overlay o f.width size fits, Except.map, Except.map,
    o.toNat_value (size.trans_le f.width.bytes_le), f.toInt_word (o.value_lt_modulus size),
    Option.getD_some]

theorem step_congr {a b : Field Order} {s : ScratchReader}
    (same : runOn (fetch a) s = runOn (fetch b) s) :
    step (.fetch a) s = step (.fetch b) s := by
  rw [step, step, perform, perform, runOn_bind_eq, runOn_bind_eq, same]

/-! ## The integer that is read -/

theorem step_int (o : Order) (w : Width) {r r' : StreamReader} {scratch : Bytes}
    {d : StreamReader.Drawn} {events : List Event} (room : scratch.length = scratchBytes)
    (drawn : (StreamReader.draw w.bytes).run r = ⟨(d, r'), events⟩) :
    ∃ scratch', step (.fetch (.int o w)) ⟨r, scratch⟩ =
      .ok ⟨(.value (.int (w.toSigned (if d.complete then o.value d.bytes else 0))), ⟨r', scratch'⟩),
        events⟩ := by
  obtain ⟨scratch', -, stepped⟩ := step_eq (.fetch (.int o w)) r room
  have performed : StreamReader.perform (.fetch (.int o w)) = (do
      let d ← StreamReader.draw w.bytes
      pure (Reply.value (.int (w.toSigned (if d.complete then o.value d.bytes else 0))))) := by
    rw [StreamReader.perform, StreamReader.fetch, StreamReader.number?, StreamReader.exactly?]
    simp only [bind_assoc, pure_bind]
    congr 1
    funext d
    cases d.complete <;> rfl
  have stepped_plainly : StreamReader.step (.fetch (.int o w)) r =
      .ok ((StreamReader.perform (.fetch (.int o w))).run r) := rfl
  rw [stepped_plainly, performed, StreamReader.run_bind_of drawn] at stepped
  exact ⟨scratch', stepped.trans (congrArg Except.ok (Logged.ext rfl (List.append_nil events)))⟩

theorem step_int_of_full (o : Order) (w : Width) {s : ScratchReader}
    (room : s.scratch.length = scratchBytes) (unblocked : s.reader.slot.blocked = false)
    (full : (s.reader.source.pull w.bytes).stop = .full) :
    ∃ scratch', step (.fetch (.int o w)) s =
      .ok ⟨(.value (.int (w.toSigned (o.value (s.reader.source.pull w.bytes).bytes))),
        ⟨⟨s.reader.slot, ⟨(s.reader.source.pull w.bytes).rest⟩⟩, scratch'⟩), []⟩ := by
  have drawn := StreamReader.draw_run unblocked w.bytes
  simp only [Stop.failure?_eq_none.mpr full] at drawn
  exact step_int o w room drawn

theorem step_int_of_failed (o : Order) (w : Width) {s : ScratchReader}
    (room : s.scratch.length = scratchBytes)
    (failed : s.reader.slot.blocked = true ∨ (s.reader.source.pull w.bytes).stop ≠ .full) :
    ∃ s' events, step (.fetch (.int o w)) s = .ok ⟨(.value (.int 0), s'), events⟩ := by
  obtain ⟨d, r', events, drawn, part⟩ : ∃ d r' events,
      (StreamReader.draw w.bytes).run s.reader = ⟨(d, r'), events⟩ ∧ d.complete = false := by
    by_cases blocked : s.reader.slot.blocked = true
    · exact ⟨_, _, _, StreamReader.draw_blocked blocked _, rfl⟩
    · have torn := failed.resolve_left blocked
      refine ⟨_, _, _, StreamReader.draw_run (Bool.eq_false_iff.mpr blocked) _, ?_⟩
      rw [Option.isNone_eq_false_iff, Option.isSome_iff_ne_none]
      exact fun whole => torn (Stop.failure?_eq_none.mp whole)
  have zero : w.toSigned 0 = 0 := by cases w <;> decide
  obtain ⟨scratch', stepped⟩ := step_int o w room drawn
  rw [part, if_neg Bool.false_ne_true, zero] at stepped
  exact ⟨_, _, stepped⟩

end ScratchReader

theorem ScratchWriter.put_int (o : Order) (w : Width) (v : Int64) {s : ScratchWriter}
    (room : s.scratch.length = Leb128.maxBytes) (unblocked : s.writer.slot.blocked = false) :
    ∃ s' events, runOn (perform (.put (.int o w v))) s = ⟨.ok (.done, s'), events⟩ ∧
      s'.writer.sink.calls =
        s.writer.sink.calls ++ [.write (o.digits w.bytes v.toUInt64.toNat)] := by
  obtain ⟨scratch', -, ran⟩ := shadows_perform (.put (.int o w v)) s.writer s.scratch room
  have calls := StreamWriter.calls_put unblocked (.int (o.spells_int w v))
  have nothing (stopped : Bool) :
      (if stopped then [] else (Option.map SinkCall.write none).toList) = [] := by
    cases stopped <;> rfl
  rw [nothing] at calls
  exact ⟨_, _, ran, calls⟩

theorem Width.toSigned_value_iff (o : Order) (w : Width) (v : Int64) :
    w.toSigned (o.value (o.digits w.bytes v.toUInt64.toNat)) = v.toInt ↔
      -2 ^ (w.bits - 1) ≤ v.toInt ∧ v.toInt < 2 ^ (w.bits - 1) := by
  have residue := (o.spells_int w v).2
  constructor
  · intro same
    rw [← same]
    exact w.toSigned_bounds _
  · rintro ⟨low, high⟩
    refine (w.eq_toSigned low high ?_).symm
    rw [residue, Int.emod_emod]

/-- The operation of a width and the one that is given the width do the same; an integer comes back
just where it is in the signed range. -/
theorem fixed_widths_agree (o : Order) :
    (∀ x : Word, x.wideValue = x.toInt ∧
      ScratchWriter.perform (.put (.word o x)) = ScratchWriter.perform (.put (x.wide o)) ∧
      StreamWriter.perform (.put (.word o x)) = StreamWriter.perform (.put (x.wide o))) ∧
    (∀ f : IntFormat,
      (∀ s, ScratchReader.step (.fetch (.word o f)) s = ScratchReader.step (.fetch (f.wide o)) s) ∧
      ∀ r, StreamReader.step (.fetch (.word o f)) r = StreamReader.step (.fetch (f.wide o)) r) ∧
    (∀ (w : Width) (s : ScratchReader),
      ScratchReader.runOn (ScratchReader.fetchSigned o w) s =
          ScratchReader.runOn (ScratchReader.fetchWord o (.twosComplement w)) s ∧
        ScratchReader.runOn (do let v ← ScratchReader.fetchInt o w; pure (Value.int v.toInt)) s =
          ScratchReader.runOn (ScratchReader.fetch (.int o w)) s) ∧
    (∀ (w : Width) (s : ScratchReader), s.scratch.length = ScratchReader.scratchBytes →
      let p := s.reader.source.pull w.bytes
      let InRange (v : Int) : Prop := -2 ^ (8 * w.bytes - 1) ≤ v ∧ v < 2 ^ (8 * w.bytes - 1)
      let Stored (v : Int) : Prop := v % w.modulus = o.value p.bytes % w.modulus
      (s.reader.slot.blocked = false → p.stop = .full →
        ∃ v scratch', ScratchReader.step (.fetch (.int o w)) s =
            .ok ⟨(.value (.int v), ⟨⟨s.reader.slot, ⟨p.rest⟩⟩, scratch'⟩), []⟩ ∧
          InRange v ∧ Stored v ∧ ∀ u, InRange u → Stored u → u = v) ∧
      (s.reader.slot.blocked = true ∨ p.stop ≠ .full →
        ∃ s' events,
          ScratchReader.step (.fetch (.int o w)) s = .ok ⟨(.value (.int 0), s'), events⟩)) ∧
    (∀ (w : Width) (v : Int64) (s : ScratchWriter),
      s.scratch.length = Leb128.maxBytes → s.writer.slot.blocked = false →
      ∃ d s' events, ScratchWriter.runOn (ScratchWriter.perform (.put (.int o w v))) s =
        ⟨.ok (.done, s'), events⟩ ∧
        s'.writer.sink.calls = s.writer.sink.calls ++ [.write d] ∧
        ∀ (r : ScratchReader) (rest : List Segment), r.scratch.length = ScratchReader.scratchBytes →
          r.reader.slot.blocked = false → r.reader.source.pull w.bytes = ⟨d, .full, rest⟩ →
          ∃ u r', ScratchReader.step (.fetch (.int o w)) r = .ok ⟨(.value (.int u), r'), []⟩ ∧
            (u = v.toInt ↔
              -2 ^ (8 * w.bytes - 1) ≤ v.toInt ∧ v.toInt < 2 ^ (8 * w.bytes - 1))) := by
  refine ⟨fun x => ⟨x.wideValue_eq, ScratchWriter.perform_wide o x, StreamWriter.perform_wide o x⟩,
    fun f => ⟨fun s => ScratchReader.step_congr (ScratchReader.runOn_fetch_wide o f s),
      fun r => ?_⟩,
    fun w s => ⟨ScratchReader.runOn_fetchSigned o w s, ScratchReader.runOn_fetchInt o w s⟩, ?_, ?_⟩
  · have stepped (g : Field Order) (proper : r.misuse? (.fetch g) = none) :
        StreamReader.step (.fetch g) r = .ok ((StreamReader.perform (.fetch g)).run r) := by
      rw [StreamReader.step, proper]
    have proper : r.misuse? (.fetch (f.wide o)) = none := by
      unfold IntFormat.wide
      split <;> rfl
    rw [stepped _ rfl, stepped _ proper, StreamReader.perform, StreamReader.perform,
      StreamReader.fetch_wide]
  · intro w s room p InRange Stored
    refine ⟨fun unblocked full => ?_, ScratchReader.step_int_of_failed o w room⟩
    obtain ⟨scratch', stepped⟩ := ScratchReader.step_int_of_full o w room unblocked full
    exact ⟨_, scratch', stepped, w.toSigned_bounds _, w.toSigned_residue _, fun u range stored =>
      w.eq_toSigned range.1 range.2 stored⟩
  · intro w v s room unblocked
    obtain ⟨s', events, ran, calls⟩ := ScratchWriter.put_int o w v room unblocked
    refine ⟨_, s', events, ran, calls, fun r rest room unblocked pulled => ?_⟩
    obtain ⟨scratch', stepped⟩ :=
      ScratchReader.step_int_of_full o w room unblocked (congrArg Pulled.stop pulled)
    rw [pulled] at stepped
    exact ⟨_, _, stepped, Width.toSigned_value_iff o w v⟩

theorem fixed_widths_agree_three_bytes :
    let o : Order := .picked .big
    let read (b : Bytes) := ScratchReader.step (.fetch (.int o .b24)) (.over ⟨[.data b]⟩ true)
    (∃ r', read [255, 255, 254] = .ok ⟨(.value (.int (-2)), r'), []⟩) ∧
      (∃ r' events, read [255, 255] = .ok ⟨(.value (.int 0), r'), events⟩) ∧
      ∃ d s' events,
        ScratchWriter.runOn (ScratchWriter.perform (.put (.int o .b24 0x800000)))
          (.over .accepting true) =
          ⟨.ok (.done, s'), events⟩ ∧ s'.writer.sink.calls = [.write d] ∧ d = [128, 0, 0] ∧
        ∃ u r', read d = .ok ⟨(.value (.int u), r'), []⟩ ∧ u ≠ 0x800000 := by
  intro o read
  obtain ⟨-, -, -, reads, writes⟩ := fixed_widths_agree o
  refine ⟨?_, (reads .b24 (.over ⟨[.data [255, 255]]⟩ true) rfl).2 (.inr (by decide)), ?_⟩
  · obtain ⟨v, scratch', stepped, -, -, unique⟩ :=
      (reads .b24 (.over ⟨[.data [255, 255, 254]]⟩ true) rfl).1 rfl (by decide)
    obtain rfl : -2 = v := unique (-2) (by decide) (by decide)
    exact ⟨_, stepped⟩
  · obtain ⟨d, s', events, ran, calls, back⟩ := writes .b24 0x800000 (.over .accepting true) rfl rfl
    have offered :
        (ScratchWriter.runOn (ScratchWriter.perform (.put (.int o .b24 0x800000)))
          (.over .accepting true)).value.map (fun x => x.2.writer.sink.calls) =
            .ok [.write [128, 0, 0]] := by decide
    rw [ran] at offered
    have same : [SinkCall.write d] = [.write [128, 0, 0]] :=
      calls.symm.trans (Except.ok.inj offered)
    obtain rfl : d = [128, 0, 0] := SinkCall.write.inj (List.cons.inj same).1
    obtain ⟨u, r', stepped, iff⟩ :=
      back (.over ⟨[.data [128, 0, 0]]⟩ true) [.data []] rfl rfl (by decide)
    have beyond : ¬ (2 ^ 23 : Int) < 2 ^ 23 := by decide
    exact ⟨_, s', events, ran, calls, rfl, u, r', stepped, fun equal => beyond (iff.mp equal).2⟩

end WireCodec
