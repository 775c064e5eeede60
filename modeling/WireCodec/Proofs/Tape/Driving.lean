import WireCodec.Proofs.Tape.Drive
import WireCodec.Proofs.Tape.Outcomes

/-!
# What a drive reads

Where its head stands inside the tape, a drive reads what the scan of the same name reads, and its
head ends where the scan ends. It never traps on the way. An operation that fails half-way may leave
the head behind the part that it has read; one that puts the head back fails without a trace.
-/

set_option autoImplicit false

namespace WireCodec

theorem Scan.runFrom_map {α β : Type} (s : Scan α) (p : α → β) (array : Bytes) (pos : Nat) :
    (do let v ← s; pure (p v) : Scan β).runFrom array pos =
      match s.runFrom array pos with
      | ⟨.ok (v, q), events⟩ => ⟨.ok (p v, q), events⟩
      | ⟨.error e, events⟩ => ⟨.error e, events⟩ := by
  rw [runFrom_bind_eq]
  rcases s.runFrom array pos with ⟨outcome, events⟩
  cases outcome with
  | ok r => exact Logged.ext rfl (List.append_nil events)
  | error e => rfl

theorem Scan.runFrom_number_one (array : Bytes) (pos : Nat) :
    (number .b8).runFrom array pos =
      (do let b ← byte; pure b.toNat : Scan Nat).runFrom array pos := by
  rw [runFrom_map, runFrom_byte, runFrom_number]
  by_cases inside : pos < array.length
  · have room : ¬ array.length - pos < Width.b8.bytes :=
      Nat.not_lt.mpr (Nat.le_sub_of_add_le' inside)
    rw [if_neg room, List.getElem?_eq_getElem inside, List.drop_eq_getElem_cons inside]
    rfl
  · have short : array.length - pos < Width.b8.bytes := by
      change array.length - pos < 1
      omega
    rw [if_pos short, List.getElem?_eq_none (Nat.le_of_not_lt inside)]
    rfl

namespace Drive

open Tape (Load Request)

variable {α β γ δ : Type}

/-- Sizes and positions of an array in memory stay far from the end of 64 bits. -/
structure Sound (d : Drive) : Prop where
  inside : d.tape.pos ≤ d.tape.length
  fits : d.tape.length ≤ maxLength

theorem Sound.behind {d : Drive} (sound : d.Sound) {n : Nat} (room : n ≤ d.tape.remaining) :
    d.tape.pos + n ≤ d.tape.length :=
  Nat.add_le_of_le_sub' sound.inside room

theorem runOn_pure (v : α) (d : Drive) : runOn (pure v) d = pure (.ok (.ok v, d)) := rfl

theorem runOn_get (d : Drive) : runOn (get : Op Drive) d = pure (.ok (.ok d, d)) := rfl

theorem runOn_head (d : Drive) : runOn head d = pure (.ok (.ok d.tape.pos, d)) := rfl

theorem runOn_moveTo (pos : Nat) (d : Drive) :
    runOn (moveTo pos) d = pure (.ok (.ok (), d.movedTo pos)) := rfl

theorem runOn_bind_eq (a : Op α) (k : α → Op β) (d : Drive) : runOn (a >>= k) d =
    match runOn a d with
    | ⟨.ok (.ok v, mid), events⟩ => ⟨(runOn (k v) mid).value, events ++ (runOn (k v) mid).events⟩
    | ⟨.ok (.error f, mid), events⟩ => ⟨.ok (.error f, mid), events⟩
    | ⟨.error x, events⟩ => ⟨.error x, events⟩ := by
  unfold runOn
  rw [ExceptT.run_bind, StateT.run_bind, ExceptT.run_bind]
  rcases ((ExceptT.run a).run d).run with ⟨outcome, events⟩
  rcases outcome with x | ⟨v | f, mid⟩
  · exact Logged.ext rfl (List.append_nil events)
  · exact Logged.ext rfl (List.append_nil events)
  · rfl

theorem runOn_bind {a : Op α} {d mid : Drive} {v : α} (h : runOn a d = pure (.ok (.ok v, mid)))
    (k : α → Op β) :
    runOn (a >>= k) d = runOn (k v) mid := by
  rw [runOn_bind_eq, h]
  rfl

theorem runOn_bind_error {a : Op α} {d mid : Drive} {f : Failure}
    (h : runOn a d = pure (.ok (.error f, mid)))
    (k : α → Op β) : runOn (a >>= k) d = pure (.ok (.error f, mid)) := by
  rw [runOn_bind_eq, h]
  rfl

theorem runOn_map (a : Op α) (p : α → β) (d : Drive) : runOn (do let v ← a; pure (p v)) d =
    match runOn a d with
    | ⟨.ok (.ok v, last), events⟩ => ⟨.ok (.ok (p v), last), events⟩
    | ⟨.ok (.error f, last), events⟩ => ⟨.ok (.error f, last), events⟩
    | ⟨.error x, events⟩ => ⟨.error x, events⟩ := by
  rw [runOn_bind_eq]
  rcases runOn a d with ⟨outcome, events⟩
  rcases outcome with x | ⟨v | f, last⟩
  · rfl
  · rfl
  · exact Logged.ext rfl (List.append_nil events)

theorem runOn_restoring (a : Op α) (d : Drive) : runOn (restoring a) d =
    match runOn a d with
    | ⟨.ok (.ok v, last), events⟩ => ⟨.ok (.ok v, last), events⟩
    | ⟨.ok (.error f, last), events⟩ => ⟨.ok (.error f, last.movedTo d.tape.pos), events⟩
    | ⟨.error x, events⟩ => ⟨.error x, events⟩ := by
  rw [restoring, runOn_bind (runOn_head d)]
  unfold runOn
  rw [ExceptT.run_tryCatch, StateT.run_bind, ExceptT.run_bind]
  rcases ((ExceptT.run a).run d).run with ⟨outcome, events⟩
  rcases outcome with x | ⟨v | f, last⟩
  · exact Logged.ext rfl (List.append_nil events)
  · exact Logged.ext rfl (List.append_nil events)
  · exact Logged.ext rfl (List.append_nil events)

/-! ## Numbers in slices -/

theorem getUInt_of_length {b : Bytes} {w : Width} (full : b.length = w.bytes) :
    (Order.fixed .little).getUInt b w.bytes = .ok (UInt64.ofNat (littleValue b)) := by
  have whole : b.leading w.bytes = .ok b := by
    rw [Bytes.leading, if_pos (Nat.le_of_eq full.symm), List.take_of_length_le (Nat.le_of_eq full)]
  rw [Order.getUInt, Width.ofBytes, w.ofBytes?_bytes]
  change (b.leading w.bytes >>= _) = _
  rw [whole]
  rfl

theorem putUInt_of_length {b : Bytes} {w : Width} (full : b.length = w.bytes) (v : UInt64) :
    (Order.fixed .little).putUInt b w.bytes v = .ok (littleDigits w.bytes v.toNat) := by
  have digits := length_littleDigits w.bytes v.toNat
  rw [Order.putUInt, Width.ofBytes, w.ofBytes?_bytes]
  change b.stamp (littleDigits w.bytes v.toNat) = _
  rw [Bytes.stamp, if_pos (by omega), Bytes.overlay, Nat.zero_add, digits, ← full, List.drop_length,
    List.append_nil]
  rfl

theorem toNat_ofNat_littleValue {b : Bytes} (short : b.length ≤ 8) :
    (UInt64.ofNat (littleValue b)).toNat = littleValue b := by
  have lt := littleValue_lt b
  have le : 256 ^ b.length ≤ 256 ^ 8 := Nat.pow_le_pow_right (by decide) short
  exact UInt64.toNat_ofNat_of_lt' (Nat.lt_of_lt_of_le lt le)

/-! ## The head -/

theorem runOn_sum {a b : Nat} (small : a + b < UInt64.size) (d : Drive) :
    runOn (sum a b) d = pure (.ok (.ok (a + b), d)) := by
  rw [sum, if_pos small]
  rfl

theorem runOn_difference {a b : Nat} (le : b ≤ a) (d : Drive) :
    runOn (difference a b) d = pure (.ok (.ok (a - b), d)) := by
  rw [difference, if_pos le]
  rfl

theorem runOn_slice {b : Bytes} {start stop : Nat} (le : start ≤ stop) (inside : stop ≤ b.length)
    (d : Drive) :
    runOn (slice b start stop) d = pure (.ok (.ok ((b.drop start).take (stop - start)), d)) := by
  rw [slice, if_pos ⟨le, inside⟩]
  rfl

theorem runOn_ensure {d : Drive} (sound : d.Sound) (n : Nat) : runOn (ensure n) d = pure (.ok (
    if d.tape.remaining < n then .error (.outOfBounds d.tape.pos n d.tape.length)
      else .ok (), d)) := by
  rw [ensure, runOn_bind (runOn_get d), runOn_bind (runOn_difference sound.inside d)]
  change runOn (if d.tape.remaining < n then _ else _) d = _
  split <;> rfl

theorem runOn_sum_small {m n : Nat} (small : m + n ≤ maxLength) (d : Drive) :
    runOn (sum m n) d = pure (.ok (.ok (m + n), d)) := by
  have far : maxLength < UInt64.size := by decide
  exact runOn_sum (Nat.lt_of_le_of_lt small far) d

theorem runOn_sum_pos {d : Drive} (sound : d.Sound) {n : Nat} (room : n ≤ d.tape.remaining) :
    runOn (sum d.tape.pos n) d = pure (.ok (.ok (d.tape.pos + n), d)) :=
  runOn_sum_small (Nat.le_trans (sound.behind room) sound.fits) d

theorem runOn_advance {d : Drive} (sound : d.Sound) (n : Nat) : runOn (advance n) d = pure (.ok (
    if d.tape.remaining < n then (.error (.outOfBounds d.tape.pos n d.tape.length), d)
    else (.ok (), d.movedTo (d.tape.pos + n)))) := by
  have ensured := runOn_ensure sound n
  rw [advance]
  by_cases short : d.tape.remaining < n
  · rw [if_pos short] at ensured ⊢
    exact runOn_bind_error ensured _
  · rw [if_neg short] at ensured ⊢
    rw [runOn_bind ensured, runOn_bind (runOn_head d),
      runOn_bind (runOn_sum_pos sound (Nat.le_of_not_lt short))]
    exact runOn_moveTo _ d

theorem runOn_claim {d : Drive} (sound : d.Sound) (n : Nat) : runOn (claim n) d = pure (.ok (
    if d.tape.remaining < n then (.error (.outOfBounds d.tape.pos n d.tape.length), d)
    else (.ok (d.tape.pos, (d.tape.bytes.drop d.tape.pos).take n),
      d.movedTo (d.tape.pos + n)))) := by
  have ensured := runOn_ensure sound n
  rw [claim]
  by_cases short : d.tape.remaining < n
  · rw [if_pos short] at ensured ⊢
    exact runOn_bind_error ensured _
  · rw [if_neg short] at ensured ⊢
    have room := Nat.le_of_not_lt short
    have window :=
      runOn_slice (Nat.le_add_right d.tape.pos n) (sound.behind room) (d.movedTo (d.tape.pos + n))
    rw [Nat.add_sub_cancel_left] at window
    rw [runOn_bind ensured, runOn_bind (runOn_head d), runOn_bind (runOn_sum_pos sound room),
      runOn_bind (runOn_moveTo _ d), runOn_bind (runOn_get _)]
    exact runOn_bind window _

theorem bytes_eq (n : Nat) : bytes n = (do let claimed ← claim n; pure claimed.2) := by
  simp only [bytes, claim, bind_assoc, pure_bind, bind_pure]

theorem runOn_bytes {d : Drive} (sound : d.Sound) (n : Nat) : runOn (bytes n) d = pure (.ok (
    if d.tape.remaining < n then (.error (.outOfBounds d.tape.pos n d.tape.length), d)
    else (.ok ((d.tape.bytes.drop d.tape.pos).take n), d.movedTo (d.tape.pos + n)))) := by
  rw [bytes_eq, runOn_map, runOn_claim sound]
  by_cases short : d.tape.remaining < n
  · simp only [if_pos short]
    rfl
  · simp only [if_neg short]
    rfl

theorem length_window {t : Tape} {n : Nat} (room : n ≤ t.remaining) :
    ((t.bytes.drop t.pos).take n).length = n := by
  rw [List.length_take, List.length_drop]
  exact Nat.min_eq_left room

theorem runOn_number {d : Drive} (sound : d.Sound) (width : Nat) : runOn (number width) d =
    if d.tape.remaining < width then
      pure (.ok (.error (.outOfBounds d.tape.pos width d.tape.length), d))
    else
      match Width.ofBytes? width with
      | none => ⟨.error (.misuse (.width width)), []⟩
      | some _ =>
        pure (.ok (.ok (littleValue ((d.tape.bytes.drop d.tape.pos).take width)),
          d.movedTo (d.tape.pos + width))) := by
  have taken := runOn_bytes sound width
  rw [number]
  by_cases short : d.tape.remaining < width
  · rw [if_pos short] at taken ⊢
    exact runOn_bind_error taken _
  · rw [if_neg short] at taken ⊢
    rw [runOn_bind taken]
    cases known : Width.ofBytes? width with
    | none =>
      rw [Order.getUInt, Width.ofBytes, known]
      rfl
    | some w =>
      obtain rfl := Width.bytes_of_ofBytes? known
      have full := length_window (Nat.le_of_not_lt short)
      have small := w.bytes_le
      rw [getUInt_of_length full, ofMisuse, runOn_bind (runOn_pure _ _),
        toNat_ofNat_littleValue (by omega)]
      rfl

theorem runOn_number_bytes {d : Drive} (sound : d.Sound) (w : Width) :
    runOn (number w.bytes) d = pure (.ok (
    if d.tape.remaining < w.bytes then (.error (.outOfBounds d.tape.pos w.bytes d.tape.length), d)
    else (.ok (littleValue ((d.tape.bytes.drop d.tape.pos).take w.bytes)),
      d.movedTo (d.tape.pos + w.bytes)))) := by
  rw [runOn_number sound, w.ofBytes?_bytes]
  split <;> rfl

/-! ## Reading what a scan reads -/

/-- The operation comes to what the scan has come to; `g` makes its value and its destination, and
`back` says where a failure may leave the head. -/
inductive Agrees (g : Bytes → α → β × Bytes) (back : Nat → Prop) (d : Drive) :
    Logged (Except Failure (α × Nat)) → Logged (Except Trap (Except Failure β × Drive)) → Prop
  | ok (v : α) (pos : Nat) (events : List Event) (forward : d.tape.pos ≤ pos)
    (inside : pos ≤ d.tape.length) :
      Agrees g back d ⟨.ok (v, pos), events⟩
        ⟨.ok (.ok (g d.destination v).1, ⟨⟨d.tape.bytes, pos⟩, (g d.destination v).2⟩), events⟩
  | error (f : Failure) (pos : Nat) (events : List Event) (allowed : back pos) :
      Agrees g back d ⟨.error f, events⟩ ⟨.ok (.error f, d.movedTo pos), events⟩

def keep (dst : Bytes) (v : α) : α × Bytes := (v, dst)

def fillWith (dst payload : Bytes) : Nat × Bytes := (payload.length, dst.overlay 0 payload)

/-- On every sound drive the operation reads what the scan reads for a destination of that
length. -/
def Mirrors (g : Bytes → α → β × Bytes) (s : Nat → Scan α) (a : Op β) : Prop :=
  ∀ d, d.Sound → Agrees g (fun _ => True) d
    ((s d.destination.length).runFrom d.tape.bytes d.tape.pos) (runOn a d)

/-- A failure leaves no trace. -/
def Restores (g : Bytes → α → β × Bytes) (s : Nat → Scan α) (a : Op β) : Prop :=
  ∀ d, d.Sound → Agrees g (· = d.tape.pos) d
    ((s d.destination.length).runFrom d.tape.bytes d.tape.pos) (runOn a d)

section Reading

variable {g : Bytes → α → β × Bytes} {s : Nat → Scan α} {a : Op β}

theorem Restores.mirrors (h : Restores g s a) : Mirrors g s a := by
  intro d sound
  have ended := h d sound
  generalize (s d.destination.length).runFrom d.tape.bytes d.tape.pos = x at ended ⊢
  generalize runOn a d = y at ended ⊢
  cases ended with
  | ok v pos events forward inside => exact .ok v pos events forward inside
  | error f pos events _ => exact .error f pos events trivial

theorem Mirrors.restoring (h : Mirrors g s a) : Restores g s (restoring a) := by
  intro d sound
  have ended := h d sound
  rw [runOn_restoring]
  generalize (s d.destination.length).runFrom d.tape.bytes d.tape.pos = x at ended ⊢
  generalize runOn a d = y at ended ⊢
  cases ended with
  | ok v pos events forward inside => exact .ok v pos events forward inside
  | error f pos events _ => exact .error f d.tape.pos events rfl

theorem Mirrors.bind {s : Scan γ} {a : Op γ} {f : γ → Nat → Scan α} {k : γ → Op β}
    (first : Mirrors keep (fun _ => s) a) (second : ∀ v, Mirrors g (f v) (k v)) :
    Mirrors g (fun n => s >>= fun v => f v n) (a >>= k) := by
  intro d sound
  have ended := first d sound
  rw [Scan.runFrom_bind_eq, runOn_bind_eq]
  generalize s.runFrom d.tape.bytes d.tape.pos = x at ended ⊢
  generalize runOn a d = y at ended ⊢
  cases ended with
  | error f pos events _ => exact .error f pos events trivial
  | ok v pos events forward inside =>
    -- The second part starts where the first has left the head, with the destination as it was.
    have last := second v (d.movedTo pos) ⟨inside, sound.fits⟩
    change Agrees g _ (d.movedTo pos)
      ((f v d.destination.length).runFrom d.tape.bytes pos) _ at last
    change Agrees g _ d ⟨_, events ++ ((f v d.destination.length).runFrom d.tape.bytes pos).events⟩
      ⟨(runOn (k v) (d.movedTo pos)).value, events ++ (runOn (k v) (d.movedTo pos)).events⟩
    generalize (f v d.destination.length).runFrom d.tape.bytes pos = x at last ⊢
    generalize runOn (k v) (d.movedTo pos) = y at last ⊢
    cases last with
    | ok w pos' events' forward' inside' =>
      exact .ok w pos' (events ++ events') (Nat.le_trans forward forward') inside'
    | error f pos' events' _ => exact .error f pos' (events ++ events') trivial

theorem Restores.map (h : Restores g s a) (p : β → γ) :
    Restores (fun dst v => (p (g dst v).1, (g dst v).2)) s (do let w ← a; pure (p w)) := by
  intro d sound
  have ended := h d sound
  rw [runOn_map]
  generalize (s d.destination.length).runFrom d.tape.bytes d.tape.pos = x at ended ⊢
  generalize runOn a d = y at ended ⊢
  cases ended with
  | ok v pos events forward inside => exact .ok v pos events forward inside
  | error f pos events allowed => exact .error f pos events allowed

theorem Restores.map_both {s : Scan α} {a : Op α} (h : Restores keep (fun _ => s) a) (p : α → β) :
    Restores keep (fun _ => do let v ← s; pure (p v)) (do let v ← a; pure (p v)) := by
  intro d sound
  have ended := h d sound
  rw [runOn_map, Scan.runFrom_map]
  generalize s.runFrom d.tape.bytes d.tape.pos = x at ended ⊢
  generalize runOn a d = y at ended ⊢
  cases ended with
  | ok v pos events forward inside => exact .ok (p v) pos events forward inside
  | error f pos events allowed => exact .error f pos events allowed

end Reading

/-! ## Parts of a read -/

theorem mirrors_pure (v : α) : Mirrors keep (fun _ => pure v) (pure v) :=
  fun d sound => .ok v d.tape.pos [] (Nat.le_refl _) sound.inside

theorem mirrors_throw (g : Bytes → α → β × Bytes) (f : Failure) :
    Mirrors g (fun _ => throw f) (throw f) :=
  fun d _ => .error f d.tape.pos [] trivial

theorem mirrors_head : Mirrors keep (fun _ => get) head :=
  fun d sound => .ok d.tape.pos d.tape.pos [] (Nat.le_refl _) sound.inside

theorem mirrors_report (e : Event) : Mirrors keep (fun _ => Scan.report e) (report e) :=
  fun d sound => .ok () d.tape.pos [e] (Nat.le_refl _) sound.inside

theorem agrees_over {d : Drive} (sound : d.Sound) (n : Nat) (v : α) :
    Agrees keep (· = d.tape.pos) d
      (pure
        (if d.tape.remaining < n then .error (.outOfBounds d.tape.pos n d.tape.length)
        else .ok (v, d.tape.pos + n)))
      (pure (.ok
        (if d.tape.remaining < n then (.error (.outOfBounds d.tape.pos n d.tape.length), d)
        else (.ok v, d.movedTo (d.tape.pos + n))))) := by
  split
  · exact .error _ d.tape.pos [] rfl
  · next room => exact .ok v _ [] (Nat.le_add_right _ _) (sound.behind (Nat.le_of_not_lt room))

theorem restores_advance (n : Nat) : Restores keep (fun _ => Scan.advance n) (advance n) := by
  intro d sound
  rw [Scan.runFrom_advance, runOn_advance sound]
  exact agrees_over sound n ()

theorem restores_bytes (n : Nat) : Restores keep (fun _ => Scan.bytes n) (bytes n) := by
  intro d sound
  rw [Scan.runFrom_bytes, runOn_bytes sound]
  exact agrees_over sound n _

theorem restores_byte : Restores keep (fun _ => Scan.byte) byte := by
  intro d sound
  have first := Scan.runFrom_byte d.tape.bytes d.tape.pos
  have taken := runOn_bytes sound 1
  unfold Tape.remaining Tape.length at taken
  rw [first, byte]
  by_cases inside : d.tape.pos < d.tape.bytes.length
  · have room : ¬ d.tape.bytes.length - d.tape.pos < 1 := by omega
    rw [if_neg room, List.drop_eq_getElem_cons inside, List.take_succ_cons, List.take_zero] at taken
    rw [List.getElem?_eq_getElem inside, runOn_bind taken]
    exact .ok _ _ [] (Nat.le_add_right _ _) inside
  · have short : d.tape.bytes.length - d.tape.pos < 1 := by omega
    rw [if_pos short] at taken
    rw [List.getElem?_eq_none (Nat.le_of_not_lt inside), runOn_bind_error taken]
    exact .error _ d.tape.pos [] rfl

theorem restores_number (w : Width) : Restores keep (fun _ => Scan.number w) (number w.bytes) := by
  intro d sound
  rw [Scan.runFrom_number, runOn_number_bytes sound]
  exact agrees_over sound w.bytes _

theorem restores_plainNumber (w : Width) :
    Restores keep (fun _ => Scan.number w) (plainNumber w) := by
  cases w with
  | b8 =>
    -- A number of one byte is not put together from digits.
    intro d sound
    rw [Scan.runFrom_number_one]
    exact restores_byte.map_both UInt8.toNat d sound
  | b16 | b24 | b32 | b40 | b48 | b56 | b64 => exact restores_number _

theorem restores_pattern32 : Restores keep (fun _ => Scan.pattern32) pattern32 :=
  (restores_number .b32).map_both UInt32.ofNat

theorem restores_pattern64 : Restores keep (fun _ => Scan.pattern64) pattern64 :=
  (restores_number .b64).map_both UInt64.ofNat

theorem mirrors_tag : Mirrors keep (fun _ => Scan.tag) tag := by
  refine mirrors_head.bind fun pos => restores_byte.mirrors.bind fun code => ?_
  cases Tag.ofCode? code with
  | some g => exact mirrors_pure g
  | none => exact (mirrors_report _).bind fun _ => mirrors_throw keep _

theorem restores_expect (g : Tag) : Restores keep (fun _ => Scan.expect g) (expect g) := by
  refine (mirrors_tag.bind fun found => ?_).restoring
  by_cases same : found = g
  · simp only [same, ite_true]
    exact mirrors_pure ()
  · simp only [same, ite_false]
    exact mirrors_throw keep _

theorem mirrors_pair {s : Scan α} {a : Op α} (h : Mirrors keep (fun _ => s) a) :
    Mirrors keep (fun _ => do let re ← s; let im ← s; pure (re, im))
      (do let re ← a; let im ← a; pure (re, im)) :=
  h.bind fun re => h.bind fun im => mirrors_pure (re, im)

theorem restores_taggedNumber (g : Tag) (w : Width) :
    Restores keep (fun _ => do Scan.expect g; Scan.number w) (taggedNumber g w.bytes) :=
  ((restores_expect g).mirrors.bind fun _ => (restores_number w).mirrors).restoring

theorem restores_taggedPair (g : Tag) {s : Scan α} {a : Op α} (h : Restores keep (fun _ => s) a) :
    Restores keep (fun _ => do Scan.expect g; let re ← s; let im ← s; pure (re, im))
      (taggedPair g a) :=
  ((restores_expect g).mirrors.bind fun _ => mirrors_pair h.mirrors).restoring

theorem restores_peek : Restores keep (fun _ => Scan.peek) peek := by
  refine Mirrors.restoring fun d sound => ?_
  have first := mirrors_tag d sound
  rw [runOn_bind (runOn_head d), runOn_bind_eq, Scan.peek, Scan.runFrom_bind (Scan.runFrom_get _ _),
    Scan.runFrom_bind_eq]
  generalize Scan.tag.runFrom d.tape.bytes d.tape.pos = x at first ⊢
  generalize runOn tag d = y at first ⊢
  cases first with
  | ok g pos events _ _ => exact .ok g d.tape.pos (events ++ []) (Nat.le_refl _) sound.inside
  | error f pos events _ => exact .error f pos events trivial

theorem restores_integer : Restores keep (fun _ => Scan.integer) integer := by
  refine (mirrors_tag.bind fun found => ?_).restoring
  cases found with
  | integer f => exact ((restores_number f.width).map_both _).mirrors
  | float32 => exact (restores_pattern32.map_both _).mirrors
  | float64 => exact (restores_pattern64.map_both _).mirrors
  | blob c | string c | complex64 | complex128 => exact mirrors_throw keep _

theorem restores_float : Restores keep (fun _ => Scan.float) float := by
  refine (mirrors_tag.bind fun found => ?_).restoring
  cases found with
  | integer f => exact ((restores_number f.width).map_both _).mirrors
  | float32 => exact (restores_pattern32.map_both _).mirrors
  | float64 => exact restores_pattern64.mirrors
  | blob c | string c | complex64 | complex128 => exact mirrors_throw keep _

theorem restores_measured {s : Scan Unit} {a : Op Unit} (h : Mirrors keep (fun _ => s) a) :
    Restores keep (fun _ => do let start ← get; s; let pos ← get; pure (pos - start))
      (do let start ← head; restoring a; let pos ← head; difference pos start) := by
  intro d sound
  have ended := h.restoring d sound
  rw [runOn_bind (runOn_head d), runOn_bind_eq, Scan.runFrom_bind (Scan.runFrom_get _ _),
    Scan.runFrom_bind_eq]
  generalize s.runFrom d.tape.bytes d.tape.pos = x at ended ⊢
  generalize runOn (restoring a) d = y at ended ⊢
  cases ended with
  | error f pos events allowed => exact .error f pos events allowed
  | ok v pos events forward inside =>
    dsimp only
    -- No read moves the head back, so the difference of the two positions never traps.
    rw [runOn_bind (runOn_head _), runOn_difference forward]
    exact .ok (pos - d.tape.pos) pos (events ++ []) forward inside

theorem restores_drain (g : Tag) : Restores keep (fun _ => Scan.drain g) (drain g) := by
  unfold Scan.drain drain
  cases g.layout with
  | fixed n => exact restores_measured (restores_advance n).mirrors
  | counted c =>
    have parts := (restores_number c.width).mirrors.bind fun n => (restores_advance n).mirrors
    have measured := restores_measured parts
    simp only [bind_assoc] at measured
    exact measured

theorem restores_skip : Restores keep (fun _ => Scan.skip) skip :=
  (mirrors_tag.bind fun g => (restores_drain g).mirrors.bind fun _ => mirrors_pure g).restoring

/-! ## Payloads -/

theorem runOn_fill {d : Drive} (sound : d.Sound) {n : Nat} (room : n ≤ d.destination.length) :
    runOn (fill n) d = pure (.ok (
      if d.tape.remaining < n then (.error (.outOfBounds d.tape.pos n d.tape.length), d)
      else (.ok (), ⟨⟨d.tape.bytes, d.tape.pos + n⟩,
        d.destination.overlay 0 ((d.tape.bytes.drop d.tape.pos).take n)⟩))) := by
  have taken := runOn_bytes sound n
  rw [fill, runOn_bind (runOn_get d), runOn_bind (runOn_slice (Nat.zero_le n) room d)]
  by_cases short : d.tape.remaining < n
  · rw [if_pos short] at taken ⊢
    exact runOn_bind_error taken _
  · rw [if_neg short] at taken ⊢
    have full : ((d.destination.drop 0).take (n - 0)).length = n := by
      rw [List.length_take, List.length_drop]
      exact Nat.min_eq_left room
    have same := (length_window (Nat.le_of_not_lt short)).trans full.symm
    rw [runOn_bind taken, if_pos same]
    rfl

theorem restores_counted (c : LengthClass) :
    Restores fillWith (fun capacity => Scan.counted c capacity) (counted c) := by
  refine ((restores_number c.width).mirrors.bind fun n d sound => ?_).restoring
  rw [runOn_bind (runOn_get d)]
  by_cases small : d.destination.length < n
  · rw [if_pos small, if_pos small]
    exact .error _ d.tape.pos [] trivial
  · rw [if_neg small, if_neg small]
    have filled := runOn_fill sound (Nat.le_of_not_lt small)
    rw [Scan.runFrom_bytes]
    by_cases short : d.tape.remaining < n
    · rw [if_pos short] at filled
      rw [if_pos (show d.tape.bytes.length - d.tape.pos < n from short), runOn_bind_error filled]
      exact .error _ d.tape.pos [] trivial
    · rw [if_neg short] at filled
      rw [if_neg (show ¬ d.tape.bytes.length - d.tape.pos < n from short), runOn_bind filled]
      have room := Nat.le_of_not_lt short
      have ended : Agrees fillWith (fun _ => True) d _ _ :=
        .ok ((d.tape.bytes.drop d.tape.pos).take n) (d.tape.pos + n) [] (Nat.le_add_right _ _)
          (sound.behind room)
      rw [fillWith, length_window room] at ended
      exact ended

theorem restores_taggedBlob (c : LengthClass) :
    Restores fillWith (fun capacity => Scan.taggedBlob c capacity) (taggedBlob c) :=
  ((restores_expect (.blob c)).mirrors.bind fun _ => (restores_counted c).mirrors).restoring

theorem restores_anyBlob : Restores fillWith (fun capacity => Scan.anyBlob capacity) anyBlob := by
  refine (mirrors_tag.bind fun found => ?_).restoring
  cases found with
  | blob c => exact (restores_counted c).mirrors
  | integer f | string c | float32 | float64 | complex64 | complex128 =>
    exact mirrors_throw fillWith _

theorem restores_fillString :
    Restores fillWith (fun capacity => Scan.anyString capacity) fillString := by
  refine (mirrors_tag.bind fun found => ?_).restoring
  cases found with
  | string c => exact (restores_counted c).mirrors
  | integer f | blob c | float32 | float64 | complex64 | complex128 =>
    exact mirrors_throw fillWith _

theorem restores_anyString : Restores (fun dst payload => (payload, dst.overlay 0 payload))
    (fun capacity => Scan.anyString capacity) anyString := by
  intro d sound
  have ended := restores_fillString d sound
  rw [anyString, runOn_bind_eq]
  generalize (Scan.anyString d.destination.length).runFrom d.tape.bytes d.tape.pos = x at ended ⊢
  generalize runOn fillString d = y at ended ⊢
  cases ended with
  | error f pos events allowed => exact .error f pos events allowed
  | ok payload pos events forward inside =>
    have room : payload.length ≤ (d.destination.overlay 0 payload).length := by
      simp only [Bytes.overlay, List.length_append]
      omega
    have front : ((d.destination.overlay 0 payload).drop 0).take (payload.length - 0) =
        payload := by
      simp [Bytes.overlay]
    dsimp only [fillWith]
    rw [runOn_bind (runOn_get _), runOn_slice (Nat.zero_le _) room, front, Logged.events_pure,
      List.append_nil]
    exact .ok payload pos events forward inside

/-! ## Requests and loads -/

theorem restores_request (r : Request) : Restores keep (fun _ => r.scan) (request r) := by
  cases r with
  | word w =>
    have read := (restores_plainNumber w).map_both
      fun n => Tape.Answer.int ((IntFormat.unsigned w).word n).toInt
    simp only [Request.scan, Scan.word, bind_assoc, pure_bind]
    exact read
  | float32 => exact restores_pattern32.map_both _
  | float64 => exact restores_pattern64.map_both _
  | bytes n => exact (restores_bytes n).map_both _
  | taggedWord f =>
    have read := (restores_taggedNumber (.integer f) f.width).map_both
      fun n => Tape.Answer.int (f.word n).toInt
    simp only [Request.scan, Scan.taggedWord, Scan.word, bind_assoc, pure_bind] at read ⊢
    exact read
  | taggedFloat32 =>
    have read :=
      (restores_taggedNumber .float32 .b32).map_both fun n => Tape.Answer.float32 (UInt32.ofNat n)
    simp only [Request.scan, Scan.taggedFloat32, Scan.pattern32, bind_assoc, pure_bind] at read ⊢
    exact read
  | taggedFloat64 =>
    have read :=
      (restores_taggedNumber .float64 .b64).map_both fun n => Tape.Answer.float64 (UInt64.ofNat n)
    simp only [Request.scan, Scan.taggedFloat64, Scan.pattern64, bind_assoc, pure_bind] at read ⊢
    exact read
  | complex64 =>
    exact (restores_taggedPair .complex64 restores_pattern32).map_both
      fun v => Tape.Answer.complex64 v.1 v.2
  | complex128 =>
    exact (restores_taggedPair .complex128 restores_pattern64).map_both
      fun v => Tape.Answer.complex128 v.1 v.2
  | integer => exact restores_integer.map_both _
  | float => exact restores_float.map_both _
  | peek => exact restores_peek.map_both _
  | expect g => exact (restores_expect g).map_both _
  | drain g => exact (restores_drain g).map_both _
  | skip => exact restores_skip.map_both _
  | advance n => exact (restores_advance n).map_both _

theorem Restores.runOn_eq {g : Bytes → α → β × Bytes} {s : Nat → Scan α} {a : Op β}
    (h : Restores g s a) {d : Drive} (sound : d.Sound) : runOn a d =
      match (s d.destination.length).runFrom d.tape.bytes d.tape.pos with
      | ⟨.ok (v, pos), events⟩ =>
        ⟨.ok (.ok (g d.destination v).1, ⟨⟨d.tape.bytes, pos⟩, (g d.destination v).2⟩), events⟩
      | ⟨.error f, events⟩ => ⟨.ok (.error f, d), events⟩ := by
  have ended := h d sound
  generalize (s d.destination.length).runFrom d.tape.bytes d.tape.pos = x at ended ⊢
  generalize runOn a d = y at ended ⊢
  cases ended with
  | ok v pos events _ _ => rfl
  | error f pos events allowed =>
    subst allowed
    rfl

theorem Restores.inside {g : Bytes → α → β × Bytes} {s : Nat → Scan α} {a : Op β}
    (h : Restores g s a) {d : Drive} (sound : d.Sound) {v : α} {pos : Nat} {events : List Event}
    (ran : (s d.destination.length).runFrom d.tape.bytes d.tape.pos = ⟨.ok (v, pos), events⟩) :
    pos ≤ d.tape.length := by
  have ended := h d sound
  rw [ran] at ended
  generalize runOn a d = y at ended
  cases ended with
  | ok _ _ _ _ inside => exact inside

theorem load_inside (l : Load) {d : Drive} (sound : d.Sound) {payload : Bytes} {pos : Nat}
    {events : List Event}
    (ran : (l.scan d.destination.length).runFrom d.tape.bytes d.tape.pos =
      ⟨.ok (payload, pos), events⟩) :
    pos ≤ d.tape.length := by
  cases l with
  | slice => exact (restores_bytes d.destination.length).inside sound ran
  | blob c => exact (restores_counted c).inside sound ran
  | taggedBlob c => exact (restores_taggedBlob c).inside sound ran
  | anyBlob => exact restores_anyBlob.inside sound ran
  | stringBytes | text => exact restores_anyString.inside sound ran

theorem runOn_load_of_answer {l : Load} {g : Bytes → Bytes → Tape.Answer × Bytes}
    (h : Restores g (fun n => l.scan n) (load l))
    (answers : ∀ dst payload, l.answer payload = .ok (g dst payload).1 ∧
      dst.overlay 0 payload = (g dst payload).2)
    {d : Drive} (sound : d.Sound) : runOn (load l) d =
      match (l.scan d.destination.length).runFrom d.tape.bytes d.tape.pos with
      | ⟨.ok (payload, pos), events⟩ =>
        ⟨.ok (l.answer payload, ⟨⟨d.tape.bytes, pos⟩, d.destination.overlay 0 payload⟩), events⟩
      | ⟨.error f, events⟩ => ⟨.ok (.error f, d), events⟩ := by
  rw [h.runOn_eq sound]
  rcases (l.scan d.destination.length).runFrom d.tape.bytes d.tape.pos with ⟨outcome, events⟩
  rcases outcome with f | ⟨payload, pos⟩
  · rfl
  · obtain ⟨answer, filled⟩ := answers d.destination payload
    dsimp only
    rw [answer, filled]

theorem runOn_load_slice {d : Drive} (sound : d.Sound) : runOn (load .slice) d =
    match (Scan.bytes d.destination.length).runFrom d.tape.bytes d.tape.pos with
    | ⟨.ok (payload, pos), events⟩ =>
      ⟨.ok (.ok .done, ⟨⟨d.tape.bytes, pos⟩, d.destination.overlay 0 payload⟩), events⟩
    | ⟨.error f, events⟩ => ⟨.ok (.error f, d), events⟩ := by
  have filled := runOn_fill sound (Nat.le_refl d.destination.length)
  unfold Tape.remaining Tape.length at filled
  rw [load, runOn_bind (runOn_get d), Scan.runFrom_bytes]
  by_cases short : d.tape.bytes.length - d.tape.pos < d.destination.length
  · rw [if_pos short] at filled ⊢
    exact runOn_bind_error filled _
  · rw [if_neg short] at filled ⊢
    exact runOn_bind filled _

theorem runOn_load (l : Load) {d : Drive} (sound : d.Sound) : runOn (load l) d =
    match (l.scan d.destination.length).runFrom d.tape.bytes d.tape.pos with
    | ⟨.ok (payload, pos), events⟩ =>
      ⟨.ok (l.answer payload, ⟨⟨d.tape.bytes, pos⟩, d.destination.overlay 0 payload⟩), events⟩
    | ⟨.error f, events⟩ => ⟨.ok (.error f, d), events⟩ := by
  cases l with
  | slice => exact runOn_load_slice sound
  | blob c => exact runOn_load_of_answer ((restores_counted c).map _) (fun _ _ => ⟨rfl, rfl⟩) sound
  | taggedBlob c =>
    exact runOn_load_of_answer ((restores_taggedBlob c).map _) (fun _ _ => ⟨rfl, rfl⟩) sound
  | anyBlob => exact runOn_load_of_answer (restores_anyBlob.map _) (fun _ _ => ⟨rfl, rfl⟩) sound
  | stringBytes =>
    exact runOn_load_of_answer (restores_anyString.map _) (fun _ _ => ⟨rfl, rfl⟩) sound
  | text =>
    -- The string is taken by then, and nothing puts the head back.
    have found := restores_anyString.runOn_eq sound
    rw [load, runOn_bind_eq, found, Load.scan]
    rcases (Scan.anyString d.destination.length).runFrom d.tape.bytes d.tape.pos with
      ⟨outcome, events⟩
    rcases outcome with f | ⟨payload, pos⟩
    · rfl
    · dsimp only
      rw [Load.answer]
      cases Utf8.decode? payload with
      | some s => exact Logged.ext rfl (List.append_nil events)
      | none => exact Logged.ext rfl (List.append_nil events)

end Drive

end WireCodec
