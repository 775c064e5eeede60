import WireCodec.Proofs.Repair
import WireCodec.Proofs.Stream.Remnants

/-!
# Payloads as texts

A counted payload may be read as bytes, as a text or as a lossy text. All three take the same from
the source, and fail alike where the payload cannot be had. They part where it is there and is not
well-formed: the text is then missing, and that is a failure of the data, while the lossy text is
the repair of the payload, and no failure.
-/

set_option autoImplicit false

namespace WireCodec

namespace Parse

variable {α β : Type}

/-- Whatever the source, the failure is another. -/
def Avoids (p : Parse α) (g : Failure) : Prop := ∀ s e s', p.runOn s = (.error e, s') → e ≠ g

theorem avoids_pure (v : α) (g : Failure) : Avoids (pure v) g := by
  rintro s e s' ⟨⟩

theorem avoids_throw {e g : Failure} (other : e ≠ g) : Avoids (throw e : Parse α) g := by
  rintro s e' s' ⟨⟩
  exact other

theorem Avoids.bind {p : Parse α} {q : α → Parse β} {g : Failure} (first : p.Avoids g)
    (second : ∀ v, (q v).Avoids g) :
    (p >>= q).Avoids g := by
  intro s e s' failed
  rcases parsed : p.runOn s with ⟨e' | v, mid⟩
  · rw [runOn_bind_error parsed] at failed
    cases failed
    exact first _ _ _ parsed
  · rw [runOn_bind_ok parsed] at failed
    exact second v _ _ _ failed

theorem avoids_take (n : Nat) : (take n).Avoids .invalidUtf8 := by
  intro s e s' failed
  rw [runOn_take] at failed
  cases stop : (s.pull n).stop with
  | full =>
    rw [stop] at failed
    cases failed
  | ended | failed _ =>
    rw [stop] at failed
    cases failed
    rintro ⟨⟩

theorem avoids_base128From (fuel : Nat) (a : Leb128.Accumulator) :
    (base128From fuel a).Avoids .invalidUtf8 := by
  induction fuel generalizing a with
  | zero => exact avoids_throw (by rintro ⟨⟩)
  | succ fuel ih =>
    refine (avoids_take 1).bind fun b => ?_
    split
    · exact avoids_pure _ _
    · exact ih _
    · exact avoids_throw (by rintro ⟨⟩)

theorem avoids_payload (o : Order) (f : LengthField) : (payload o f).Avoids .invalidUtf8 := by
  have announced : (length o f).Avoids .invalidUtf8 := by
    unfold length
    split
    · exact (avoids_take _).bind fun _ => avoids_pure _ _
    · exact avoids_base128From _ _
  refine announced.bind fun n => ?_
  split
  · exact avoids_throw (by rintro ⟨⟩)
  · exact avoids_take n

end Parse

namespace StreamReader

variable {r : StreamReader} {o : Order} {f : LengthField}

/-- A payload, read as any of the three. -/
inductive Payload : Field Order → Order → LengthField → Prop
  | blob (o : Order) (f : LengthField) : Payload (.blob o f) o f
  | text (o : Order) (f : LengthField) : Payload (.text o f) o f
  | lossyText (o : Order) (f : LengthField) : Payload (.lossyText o f) o f

theorem fetch_payload_none {d : Field Order} (payload : Payload d o f) {r' : StreamReader}
    {events : List Event} (ran : (payload? o f).run r = ⟨(none, r'), events⟩) :
    (fetch d).run r = ⟨(d.zero, r'), events⟩ := by
  cases payload <;> (rw [fetch, run_bind_of ran]; exact Logged.ext rfl (List.append_nil _))

section Decoded

variable {r' : StreamReader} {b : Bytes} {events : List Event}
    (ran : (payload? o f).run r = ⟨(some b, r'), events⟩)
include ran

theorem fetch_blob_some : (fetch (.blob o f)).run r = ⟨(.bytes b, r'), events⟩ := by
  rw [fetch, run_bind_of ran]
  exact Logged.ext rfl (List.append_nil _)

theorem fetch_lossyText_some :
    (fetch (.lossyText o f)).run r = ⟨(.text (Utf8.decodeLossy b), r'), events⟩ := by
  rw [fetch, run_bind_of ran]
  exact Logged.ext rfl (List.append_nil _)

theorem fetch_text_some {t : String} (wellFormed : b = Utf8.encode t) :
    (fetch (.text o f)).run r = ⟨(.text t, r'), events⟩ := by
  rw [fetch, run_bind_of ran]
  simp only [Utf8.decode?_eq_some.mpr wellFormed]
  exact Logged.ext rfl (List.append_nil _)

theorem fetch_text_illFormed (illFormed : ∀ t, b ≠ Utf8.encode t) : (fetch (.text o f)).run r =
    ⟨(.text "", ⟨r'.slot.keeping .invalidUtf8, r'.source⟩),
      events ++ r'.slot.news .reader .invalidUtf8⟩ := by
  have nothing : Utf8.decode? b = none := Option.eq_none_iff_forall_ne_some.mpr fun t found =>
    illFormed t (Utf8.decode?_eq_some.mp found)
  rw [fetch, run_bind_of ran]
  simp only [nothing, note_pure]

end Decoded

end StreamReader

namespace ScratchReader

open StreamReader (Payload)

theorem step_of_fetch {s : ScratchReader} (room : s.scratch.length = scratchBytes) {d : Field Order}
    (entire : d.mayBeShort = false) {v : Value} {r : StreamReader} {events : List Event}
    (ran : (StreamReader.fetch d).run s.reader = ⟨(v, r), events⟩) :
    ∃ scratch, step (.fetch d) s = .ok ⟨(.value v, ⟨r, scratch⟩), events⟩ := by
  have proper : s.reader.misuse? (.fetch d) = none := by
    cases d with
    | bytes n => cases entire
    | _ => rfl
  obtain ⟨scratch, -, stepped⟩ := step_eq (.fetch d) s.reader room
  have whole : (StreamReader.perform (.fetch d)).run s.reader = ⟨(.value v, r), events⟩ := by
    rw [StreamReader.perform, StreamReader.run_bind_of ran]
    exact Logged.ext rfl (List.append_nil _)
  rw [StreamReader.step, proper, whole] at stepped
  exact ⟨scratch, stepped⟩

theorem step_of_missing {s : ScratchReader} (room : s.scratch.length = scratchBytes)
    {d : Field Order} {o : Order} {f : LengthField}
    (payload : Payload d o f) {r : StreamReader} {events : List Event}
    (ran : (StreamReader.payload? o f).run s.reader = ⟨(none, r), events⟩) :
    ∃ scratch, step (.fetch d) s = .ok ⟨(.value d.zero, ⟨r, scratch⟩), events⟩ :=
  step_of_fetch room (by cases payload <;> rfl) (StreamReader.fetch_payload_none payload ran)

/-- A payload is taken alike as a blob, as a text and as a lossy text; the answers part only where
it is there and not well-formed. -/
theorem texts_agree_with_blob (s : ScratchReader) (room : s.scratch.length = scratchBytes)
    (o : Order) (f : LengthField) :
    ∃ (b : Bytes) (t l : String) (blob text lossy : ScratchReader) (events events' : List Event),
      step (.fetch (.blob o f)) s = .ok ⟨(.value (.bytes b), blob), events⟩ ∧
      step (.fetch (.text o f)) s = .ok ⟨(.value (.text t), text), events'⟩ ∧
      step (.fetch (.lossyText o f)) s = .ok ⟨(.value (.text l), lossy), events⟩ ∧
      text.reader.source = blob.reader.source ∧ lossy.reader = blob.reader ∧
      (s.reader.slot.blocked = false → ∀ payload rest,
        (Parse.payload o f).runOn s.reader.source = (.ok payload, rest) →
        b = payload ∧ blob.reader = ⟨s.reader.slot, rest⟩ ∧ events = [] ∧
        Utf8.Repairs payload l.toList ∧
        (∀ u, payload = Utf8.encode u → t = u ∧ l = u ∧ text.reader = blob.reader ∧ events' = []) ∧
        ((∀ u, payload ≠ Utf8.encode u) →
          t = "" ∧ text.reader.slot = s.reader.slot.keeping .invalidUtf8 ∧
          events' = s.reader.slot.news .reader .invalidUtf8)) ∧
      (s.Misses (.blob o f) → b = [] ∧ t = "" ∧ l = "" ∧ text.reader = blob.reader ∧
        events' = events ∧
        (s.reader.slot.blocked = true → blob.reader = s.reader ∧ events = []) ∧
        (s.reader.slot.blocked = false → ∃ g,
          g ≠ .invalidUtf8 ∧ blob.reader.slot = s.reader.slot.keeping g ∧
          events = s.reader.slot.news .reader g)) ∧
      (lossy.reader.slot.first = some .invalidUtf8 → s.reader.slot.first = some .invalidUtf8) := by
  by_cases blocked : s.reader.slot.blocked = true
  · have ran := StreamReader.attempt_blocked blocked (Parse.payload o f)
    rw [← StreamReader.payload_eq] at ran
    obtain ⟨_, blob⟩ := step_of_missing room (.blob o f) ran
    obtain ⟨_, text⟩ := step_of_missing room (.text o f) ran
    obtain ⟨_, lossy⟩ := step_of_missing room (.lossyText o f) ran
    refine ⟨_, _, _, _, _, _, _, _, blob, text, lossy, rfl, rfl,
      fun unblocked => ?_, fun _ => ?_, id⟩
    · exact absurd (blocked.symm.trans unblocked) (by decide)
    · exact ⟨rfl, rfl, rfl, rfl, rfl,
        fun _ => ⟨rfl, rfl⟩, fun unblocked => absurd (blocked.symm.trans unblocked) (by decide)⟩
  have unblocked : s.reader.slot.blocked = false := Bool.eq_false_iff.mpr blocked
  rcases parsed : (Parse.payload o f).runOn s.reader.source with ⟨g | payload, rest⟩
  · have ran := StreamReader.attempt_error unblocked parsed
    rw [← StreamReader.payload_eq] at ran
    have other := Parse.avoids_payload o f _ _ _ parsed
    obtain ⟨_, blob⟩ := step_of_missing room (.blob o f) ran
    obtain ⟨_, text⟩ := step_of_missing room (.text o f) ran
    obtain ⟨_, lossy⟩ := step_of_missing room (.lossyText o f) ran
    refine ⟨_, _, _, _, _, _, _, _, blob, text, lossy, rfl, rfl,
      fun _ _ _ found => ?_, fun _ => ?_, fun kept => ?_⟩
    · cases found
    · exact ⟨rfl, rfl, rfl, rfl, rfl, fun set => absurd set blocked, fun _ => ⟨g, other, rfl, rfl⟩⟩
    · cases first : s.reader.slot.first with
      | none =>
        rw [ErrorSlot.keeping, first] at kept
        exact absurd (Option.some.inj kept) other
      | some e =>
        rw [ErrorSlot.keeping, first] at kept
        exact kept
  · have ran := StreamReader.attempt_ok unblocked parsed
    rw [← StreamReader.payload_eq] at ran
    have there : ¬ s.Misses (.blob o f) := by
      rintro (set | ⟨g, _, failed⟩)
      · exact blocked set
      · rw [Field.parse, Parse.runOn_bind_ok parsed] at failed
        cases failed
    obtain ⟨_, blob⟩ := step_of_fetch room rfl (StreamReader.fetch_blob_some ran)
    obtain ⟨_, lossy⟩ := step_of_fetch room rfl (StreamReader.fetch_lossyText_some ran)
    have repairs := Utf8.repairs_decodeLossy payload
    by_cases wellFormed : ∃ u, payload = Utf8.encode u
    · obtain ⟨u, rfl⟩ := wellFormed
      obtain ⟨_, text⟩ := step_of_fetch room rfl (StreamReader.fetch_text_some ran rfl)
      refine ⟨_, _, _, _, _, _, _, _, blob, text, lossy, rfl, rfl,
        fun _ _ _ found => ?_, fun missed => absurd missed there, id⟩
      cases found
      refine ⟨rfl, rfl, rfl, repairs, fun u' same => ?_, fun illFormed => absurd rfl (illFormed u)⟩
      obtain rfl := Utf8.encode_inj same
      exact ⟨rfl, by rw [Utf8.decodeLossy, Utf8.decode?_encode]; rfl, rfl, rfl⟩
    · have illFormed := not_exists.mp wellFormed
      obtain ⟨_, text⟩ := step_of_fetch room rfl (StreamReader.fetch_text_illFormed ran illFormed)
      refine ⟨_, _, _, _, _, _, _, _, blob, text, lossy, rfl, rfl,
        fun _ _ _ found => ?_, fun missed => absurd missed there, id⟩
      cases found
      exact ⟨rfl, rfl, rfl, repairs,
        fun u same => absurd same (illFormed u), fun _ => ⟨rfl, rfl, rfl⟩⟩

theorem texts_agree_with_blob_illFormed :
    let s : ScratchReader := .over ⟨[.data [3, 0xC3, 0x28, 0x61, 9]]⟩ true
    let text : Field Order := .text (.fixed .little) .one
    let lossyText : Field Order := .lossyText (.fixed .little) .one
    ∃ (kept kept' : ScratchReader) (l : String) (events : List Event),
      l.toList = [Utf8.replacement, '(', 'a'] ∧
      step (.fetch text) s = .ok ⟨(.value (.text ""), kept), [.firstFailure .reader .invalidUtf8]⟩ ∧
      step (.fetch lossyText) s = .ok ⟨(.value (.text l), kept'), events⟩ ∧
      kept.reader.slot.first = some .invalidUtf8 ∧ kept'.reader.slot.first = none ∧
      kept.reader.source = kept'.reader.source := by
  intro s text lossyText
  obtain ⟨b, t, l, blob, kept, kept', events, events', -, read, read', source, same,
    decoded, -, -⟩ :=
    texts_agree_with_blob s rfl (.fixed .little) .one
  obtain ⟨-, whole, -, repairs, -, illFormed⟩ := decoded rfl [0xC3, 0x28, 0x61] ⟨[.data [9]]⟩ rfl
  have broken : Utf8.decode? [0xC3, 0x28, 0x61] = none := by decide +kernel
  obtain ⟨rfl, slot, rfl⟩ := illFormed fun u wellFormed => by
    rw [Utf8.decode?_eq_some.mpr wellFormed] at broken
    cases broken
  have repaired := repairs.unique (Utf8.repairs_decodeLossy _)
  refine ⟨kept, kept', l, events, repaired, read, read', ?_, ?_, ?_⟩
  · rw [slot]
    rfl
  · rw [same, whole]
    rfl
  · rw [source, same]

end ScratchReader

end WireCodec
