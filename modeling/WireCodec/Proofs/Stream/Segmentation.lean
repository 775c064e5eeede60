import WireCodec.Proofs.Stream.Runs
import WireCodec.Proofs.Stream.Taking

/-!
# How a source cuts up its bytes

Two readers are alike if they keep the same failure and their smooth sources have the same bytes to
come. No action made of pulls can tell alike readers apart, and it leaves them alike; so runs of
such actions are seen to be the same, also where the bytes end inside a value.
-/

set_option autoImplicit false

namespace WireCodec

namespace StreamReader

variable {α β : Type}

/-- Readers that differ at most in how their sources cut up the same bytes, and where they
interrupt. -/
structure Alike (r r' : StreamReader) : Prop where
  slot : r.slot = r'.slot
  smooth : r.source.Smooth
  smooth' : r'.source.Smooth
  bytes : r.source.remaining = r'.source.remaining

/-- Whether an action treats alike readers alike: the same answer, the same events, and again alike
readers. -/
def Uniform (a : Action StreamReader α) : Prop :=
  ∀ r r' : StreamReader, Alike r r' →
    (a.run r).value.1 = (a.run r').value.1 ∧ (a.run r).events = (a.run r').events ∧
      Alike (a.run r).value.2 (a.run r').value.2

theorem uniform_pure (v : α) : Uniform (pure v) := fun _ _ alike => ⟨rfl, rfl, alike⟩

theorem Uniform.bind {a : Action StreamReader α} {f : α → Action StreamReader β} (first : Uniform a)
    (then_ : ∀ v, Uniform (f v)) : Uniform (a >>= f) := by
  intro r r' alike
  obtain ⟨value, events, alike⟩ := first r r' alike
  obtain ⟨value', events', alike'⟩ := then_ (a.run r).value.1 _ _ alike
  rw [StateT.run_bind, StateT.run_bind]
  simp only [Logged.value_bind, Logged.events_bind]
  rw [← value, ← events]
  exact ⟨value', by rw [events'], alike'⟩

theorem uniform_of_slot (g : ErrorSlot → α) : Uniform (do let r ← get; pure (g r.slot)) :=
  fun _ _ alike => ⟨congrArg g alike.slot, rfl, alike⟩

theorem uniform_note (f : Failure) : Uniform (note f) := by
  intro r r' alike
  obtain ⟨slot, source⟩ := r
  obtain ⟨slot', source'⟩ := r'
  obtain ⟨same, smooth, smooth', bytes⟩ := alike
  simp only at same
  subst same
  exact ⟨rfl, rfl, rfl, smooth, smooth', bytes⟩

theorem uniform_draw (n : Nat) : Uniform (draw n) := by
  intro r r' alike
  obtain ⟨slot, source⟩ := r
  obtain ⟨slot', source'⟩ := r'
  obtain ⟨same, smooth, smooth', bytes⟩ := alike
  simp only at same smooth smooth' bytes
  subst same
  by_cases blocked : slot.blocked = true
  · have idle (s : Source) : (draw n).run ⟨slot, s⟩ = pure (⟨[], false⟩, ⟨slot, s⟩) := by
      simp [draw, StateT.run_bind, blocked]
    rw [idle, idle]
    exact ⟨rfl, rfl, rfl, smooth, smooth', bytes⟩
  · have unblocked : slot.blocked = false := Bool.eq_false_iff.mpr blocked
    obtain ⟨left, left_smooth, left_bytes, result⟩ := draw_of_smooth unblocked smooth n
    obtain ⟨left', left_smooth', left_bytes', result'⟩ := draw_of_smooth unblocked smooth' n
    have alike_left : Alike ⟨slot, left⟩ ⟨slot, left'⟩ :=
      ⟨rfl, left_smooth, left_smooth', by rw [left_bytes, left_bytes', bytes]⟩
    rw [result, result', ← bytes]
    by_cases enough : n ≤ source.remaining.length
    · rw [if_pos enough, if_pos enough]
      exact ⟨rfl, rfl, alike_left⟩
    · rw [if_neg enough, if_neg enough]
      exact ((uniform_note _).bind fun _ => uniform_pure _) _ _ alike_left

theorem uniform_exactly (n : Nat) : Uniform (exactly? n) :=
  (uniform_draw n).bind fun _ => uniform_pure _

theorem uniform_number (o : Order) (w : Width) : Uniform (number? o w) :=
  (uniform_exactly w.bytes).bind fun _ => uniform_pure _

theorem uniform_base128From (fuel : Nat) (a : Leb128.Accumulator) :
    Uniform (base128From? fuel a) := by
  induction fuel generalizing a with
  | zero => exact uniform_pure _
  | succ fuel ih =>
    rw [base128From?]
    refine (uniform_exactly 1).bind fun b => ?_
    split
    · split
      · exact uniform_pure _
      · exact ih _
      · exact (uniform_note _).bind fun _ => uniform_pure _
    · exact uniform_pure _

theorem uniform_length (o : Order) (f : LengthField) : Uniform (length? o f) := by
  unfold length?
  split
  · exact uniform_number o _
  · exact uniform_base128From _ _

theorem uniform_payload (o : Order) (f : LengthField) : Uniform (payload? o f) := by
  refine (uniform_length o f).bind fun n => ?_
  split
  · exact uniform_pure _
  · split
    · exact (uniform_note _).bind fun _ => uniform_pure _
    · exact uniform_exactly _

theorem uniform_fetch (f : Field Order) : Uniform (fetch f) := by
  cases f with
  | bytes n => exact (uniform_draw n).bind fun _ => uniform_pure _
  | fill dst => exact (uniform_draw dst.length).bind fun _ => uniform_pure _
  | word o f =>
    exact ((uniform_number o f.width).bind fun _ => uniform_pure _).bind fun _ => uniform_pure _
  | bool => exact (uniform_number _ .b8).bind fun _ => uniform_pure _
  | uint o w | int o w => exact (uniform_number o w).bind fun _ => uniform_pure _
  | uvarint | varint => exact (uniform_base128From _ _).bind fun _ => uniform_pure _
  | float32 o =>
    exact ((uniform_number o .b32).bind fun _ => uniform_pure _).bind fun _ => uniform_pure _
  | float64 o =>
    exact ((uniform_number o .b64).bind fun _ => uniform_pure _).bind fun _ => uniform_pure _
  | complex64 o =>
    have part : Uniform (pattern32 o) := (uniform_number o .b32).bind fun _ => uniform_pure _
    exact part.bind fun _ => part.bind fun _ => uniform_pure _
  | complex128 o =>
    have part : Uniform (pattern64 o) := (uniform_number o .b64).bind fun _ => uniform_pure _
    exact part.bind fun _ => part.bind fun _ => uniform_pure _
  | blob o f | lossyText o f => exact (uniform_payload o f).bind fun _ => uniform_pure _
  | text o f =>
    refine (uniform_payload o f).bind fun b => ?_
    split
    · exact uniform_pure _
    · split
      · exact uniform_pure _
      · exact (uniform_note _).bind fun _ => uniform_pure _

/-- Whether a command reaches the source by pulls alone: it neither hands out a single read nor
touches the source. -/
def Command.Pulling : Command → Prop
  | .transfer _ => False
  | .push _ => False
  | _ => True

instance (c : Command) : Decidable c.Pulling :=
  match c with
  | .transfer _ | .push _ => inferInstanceAs (Decidable False)
  | .fetch _ | .reset | .takeError | .error | .debug => inferInstanceAs (Decidable True)

theorem uniform_reset : Uniform reset := by
  intro r r' alike
  exact ⟨rfl, rfl, congrArg ErrorSlot.clear alike.slot, alike.smooth, alike.smooth', alike.bytes⟩

theorem uniform_perform {c : Command} (pulling : c.Pulling) : Uniform (perform c) := by
  cases c with
  | fetch f => exact (uniform_fetch f).bind fun _ => uniform_pure _
  | transfer dst => exact absurd pulling id
  | push segments => exact absurd pulling id
  | reset => exact uniform_reset.bind fun _ => uniform_pure _
  | takeError =>
    intro r r' alike
    have answer := congrArg (fun s : ErrorSlot => Reply.failure s.first) alike.slot
    exact ⟨answer, rfl, (uniform_reset r r' alike).2.2⟩
  | error => exact uniform_of_slot fun s => Reply.failure s.first
  | debug => exact uniform_of_slot fun s => Reply.text (s.debugText "Decoder")

theorem misuse?_of_alike {r r' : StreamReader} (alike : Alike r r') (c : Command) :
    r.misuse? c = r'.misuse? c := by
  cases c with
  | fetch f => cases f <;> simp [misuse?, alike.slot]
  | transfer | reset | takeError | error | debug | push => rfl

def ending (outcome : Except Misuse StreamReader) : Except Misuse (ErrorSlot × Bytes) :=
  outcome.map fun r => (r.slot, r.source.remaining)

theorem run_of_alike {r r' : StreamReader} (alike : Alike r r') (cs : List Command)
    (pulling : ∀ c ∈ cs, c.Pulling) :
    (run cs r).1 = (run cs r').1 ∧ ending (run cs r).2 = ending (run cs r').2 := by
  induction cs generalizing r r' with
  | nil =>
    refine ⟨rfl, ?_⟩
    simp only [run, ending, Except.map, alike.slot, alike.bytes]
  | cons c cs ih =>
    have fault := misuse?_of_alike alike c
    simp only [run, step, ← fault]
    cases r.misuse? c with
    | some m => exact ⟨rfl, rfl⟩
    | none =>
      obtain ⟨reply, events, alike⟩ := uniform_perform (pulling c List.mem_cons_self) r r' alike
      obtain ⟨sights, outcome⟩ := ih alike fun d hd => pulling d (List.mem_cons_of_mem c hd)
      simp only [reply, events, sights, alike.slot, alike.bytes]
      exact ⟨trivial, outcome⟩

/-- Sources that bring the same bytes, with nothing but interruptions besides, give the same run,
wherever the bytes end. -/
theorem run_eq_of_same_bytes (source source' : Source) (smooth : source.Smooth)
    (smooth' : source'.Smooth)
    (bytes : source.remaining = source'.remaining) (strict : Bool) (cs : List Command)
    (pulling : ∀ c ∈ cs, c.Pulling) :
    (run cs (.over source strict)).1 = (run cs (.over source' strict)).1 ∧
      ending (run cs (.over source strict)).2 = ending (run cs (.over source' strict)).2 := by
  have alike : Alike (.over source strict) (.over source' strict) := ⟨rfl, smooth, smooth', bytes⟩
  exact run_of_alike alike cs pulling

theorem run_eq_of_same_bytes_torn :
    let source : Source := ⟨[.data [1, 0, 3, 7, 8]]⟩
    let source' : Source :=
      ⟨[.data [1], .fault ⟨.interrupted, "again"⟩, .data [0], .data [], .data [3, 7], .data [8]]⟩
    let cs : List Command :=
      [.fetch (.word (.fixed .big) ⟨true, .b16⟩), .fetch (.blob (.fixed .little) .one), .takeError,
        .fetch (.fill [0, 0])]
    source.Smooth ∧ source'.Smooth ∧ source.remaining = source'.remaining ∧ (∀ c ∈ cs, c.Pulling) ∧
      (run cs (.over source true)).1 = (run cs (.over source' true)).1 ∧
      ending (run cs (.over source true)).2 = ending (run cs (.over source' true)).2 := by
  intro source source' cs
  have smooth : source.Smooth := by decide
  have smooth' : source'.Smooth := by decide
  have pulling : ∀ c ∈ cs, c.Pulling := by decide
  exact ⟨smooth, smooth', rfl, pulling,
    run_eq_of_same_bytes source source' smooth smooth' rfl true cs pulling⟩

end StreamReader

end WireCodec
