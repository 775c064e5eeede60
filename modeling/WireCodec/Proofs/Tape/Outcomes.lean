import WireCodec.Proofs.Tape.Runs

/-!
# What scans and commands come to

One equation for each part of a scan and for each kind of command, failures included. A scan in two
parts fails where its first part does; a command that runs a scan moves the head where the scan
ends, and leaves it where the scan fails.
-/

set_option autoImplicit false

namespace WireCodec

namespace Scan

variable {α β : Type}

theorem runFrom_bind_eq (s : Scan α) (f : α → Scan β) (array : Bytes) (pos : Nat) :
    (s >>= f).runFrom array pos =
      match s.runFrom array pos with
      | ⟨.ok (v, mid), events⟩ =>
        ⟨((f v).runFrom array mid).value, events ++ ((f v).runFrom array mid).events⟩
      | ⟨.error e, events⟩ => ⟨.error e, events⟩ := by
  unfold runFrom
  rw [ReaderT.run_bind, StateT.run_bind, ExceptT.run_bind]
  rcases ((s.run array).run pos).run with ⟨outcome, events⟩
  cases outcome with
  | ok r => rfl
  | error e => exact Logged.ext rfl (List.append_nil events)

theorem runFrom_bind_error {s : Scan α} {array : Bytes} {pos : Nat} {e : Failure}
    (h : s.runFrom array pos = pure (.error e))
    (f : α → Scan β) : (s >>= f).runFrom array pos = pure (.error e) := by
  rw [runFrom_bind_eq, h]
  rfl

theorem runFrom_bind_eq_ok {s : Scan α} {f : α → Scan β} {array : Bytes} {pos q : Nat} {w : β} :
    (s >>= f).runFrom array pos = pure (.ok (w, q)) ↔
      ∃ v mid, s.runFrom array pos = pure (.ok (v, mid)) ∧
        (f v).runFrom array mid = pure (.ok (w, q)) := by
  constructor
  · intro h
    rw [runFrom_bind_eq] at h
    rcases outcome : s.runFrom array pos with ⟨r, events⟩
    rw [outcome] at h
    cases r with
    | error e => cases h
    | ok r =>
      have value := congrArg Logged.value h
      have quiet := congrArg Logged.events h
      obtain ⟨none_before, none_after⟩ := List.append_eq_nil_iff.mp quiet
      subst none_before
      exact ⟨r.1, r.2, rfl, Logged.ext value none_after⟩
  · rintro ⟨v, mid, first, second⟩
    rw [runFrom_bind first, second]

theorem runFrom_advance (n : Nat) (array : Bytes) (pos : Nat) : (advance n).runFrom array pos =
    pure
      (if array.length - pos < n then .error (.outOfBounds pos n array.length)
      else .ok ((), pos + n)) := by
  rw [advance, runFrom_bind (runFrom_read array pos), runFrom_bind (runFrom_get array pos)]
  split
  · rfl
  · exact runFrom_set array pos (pos + n)

theorem runFrom_bytes (n : Nat) (array : Bytes) (pos : Nat) : (bytes n).runFrom array pos =
    pure (if array.length - pos < n then .error (.outOfBounds pos n array.length)
      else .ok ((array.drop pos).take n, pos + n)) := by
  have moved := runFrom_advance n array pos
  rw [bytes, runFrom_bind (runFrom_read array pos), runFrom_bind (runFrom_get array pos)]
  by_cases short : array.length - pos < n
  · rw [if_pos short] at moved ⊢
    exact runFrom_bind_error moved _
  · rw [if_neg short] at moved ⊢
    exact runFrom_bind moved

theorem runFrom_number (w : Width) (array : Bytes) (pos : Nat) : (number w).runFrom array pos =
    pure (if array.length - pos < w.bytes then .error (.outOfBounds pos w.bytes array.length)
      else .ok (littleValue ((array.drop pos).take w.bytes), pos + w.bytes)) := by
  have taken := runFrom_bytes w.bytes array pos
  by_cases short : array.length - pos < w.bytes
  · rw [if_pos short] at taken ⊢
    exact runFrom_bind_error taken _
  · rw [if_neg short] at taken ⊢
    exact runFrom_bind taken

theorem runFrom_byte (array : Bytes) (pos : Nat) : byte.runFrom array pos =
    match array[pos]? with
    | none => pure (.error (.outOfBounds pos 1 array.length))
    | some b => pure (.ok (b, pos + 1)) := by
  have taken := runFrom_bytes 1 array pos
  by_cases inside : pos < array.length
  · have room : ¬ array.length - pos < 1 := by omega
    rw [if_neg room, List.drop_eq_getElem_cons inside, List.take_succ_cons, List.take_zero] at taken
    rw [List.getElem?_eq_getElem inside]
    exact runFrom_bind taken
  · have short : array.length - pos < 1 := by omega
    rw [if_pos short] at taken
    rw [List.getElem?_eq_none (Nat.le_of_not_lt inside)]
    exact runFrom_bind_error taken _

theorem runFrom_tag (array : Bytes) (pos : Nat) : tag.runFrom array pos =
    match array[pos]? with
    | none => pure (.error (.outOfBounds pos 1 array.length))
    | some code =>
      match Tag.ofCode? code with
      | some t => pure (.ok (t, pos + 1))
      | none => ⟨.error (.corruptTag code), [.corruptTag code pos]⟩ := by
  have first := runFrom_byte array pos
  rw [tag, runFrom_bind (runFrom_get array pos)]
  cases here : array[pos]? with
  | none =>
    rw [here] at first
    exact runFrom_bind_error first _
  | some code =>
    rw [here] at first
    rw [runFrom_bind first]
    dsimp only
    cases Tag.ofCode? code with
    | some t => rfl
    | none => rfl

end Scan

namespace Tape

theorem scan_of_ok {α : Type} {s : Scan α} {t : Tape} {a : α} {pos : Nat} {events : List Event}
    (h : s.runFrom t.bytes t.pos = ⟨.ok (a, pos), events⟩) :
    (scan s).run t = ⟨(.ok a, { t with pos }), events⟩ := by
  apply Logged.ext <;> simp [scan, StateT.run_bind, h]

theorem scan_of_error {α : Type} {s : Scan α} {t : Tape} {f : Failure} {events : List Event}
    (h : s.runFrom t.bytes t.pos = ⟨.error f, events⟩) :
    (scan s).run t = ⟨(.error f, t), events⟩ := by
  apply Logged.ext <;> simp [scan, StateT.run_bind, h]

theorem step_read_of_ok {r : Request} {t : Tape} {a : Answer} {pos : Nat} {events : List Event}
    (h : r.scan.runFrom t.bytes t.pos = ⟨.ok (a, pos), events⟩) :
    step (.read r) t = .ok ⟨(.plain (.ok a), { t with pos }), events⟩ := by
  rw [step, StateT.run_map, scan_of_ok h]
  exact congrArg Except.ok (Logged.ext rfl (by simp))

theorem step_read_of_error {r : Request} {t : Tape} {f : Failure} {events : List Event}
    (h : r.scan.runFrom t.bytes t.pos = ⟨.error f, events⟩) :
    step (.read r) t = .ok ⟨(.plain (.error f), t), events⟩ := by
  rw [step, StateT.run_map, scan_of_error h]
  exact congrArg Except.ok (Logged.ext rfl (by simp))

theorem step_load_of_ok {l : Load} {dst payload : Bytes} {t : Tape} {pos : Nat}
    {events : List Event}
    (h : (l.scan dst.length).runFrom t.bytes t.pos = ⟨.ok (payload, pos), events⟩) :
    step (.load l dst) t =
      .ok ⟨(.loaded (l.answer payload) (dst.overlay 0 payload), { t with pos }), events⟩ := by
  rw [step, StateT.run_map, load, StateT.run_bind, scan_of_ok h]
  exact congrArg Except.ok (Logged.ext rfl (by simp))

theorem step_load_of_error {l : Load} {dst : Bytes} {t : Tape} {f : Failure} {events : List Event}
    (h : (l.scan dst.length).runFrom t.bytes t.pos = ⟨.error f, events⟩) :
    step (.load l dst) t = .ok ⟨(.loaded (.error f) dst, t), events⟩ := by
  rw [step, StateT.run_map, load, StateT.run_bind, scan_of_error h]
  exact congrArg Except.ok (Logged.ext rfl (by simp))

theorem step_readTag_eq (t : Tape) : step .readTag t = .ok (
    match t.bytes[t.pos]? with
    | none => pure (.plain (.error (.outOfBounds t.pos 1 t.length)), t)
    | some code =>
      match Tag.ofCode? code with
      | some g => pure (.plain (.ok (.tag g)), { t with pos := t.pos + 1 })
      | none =>
        ⟨(.plain (.error (.corruptTag code)), { t with pos := t.pos + 1 }),
          [.corruptTag code t.pos]⟩) := by
  have first := Scan.runFrom_tag t.bytes t.pos
  cases here : t.bytes[t.pos]? with
  | none =>
    rw [here] at first
    rw [step, StateT.run_map, readTag, StateT.run_bind, scan_of_error first]
    rfl
  | some code =>
    rw [here] at first
    dsimp only at first ⊢
    cases known : Tag.ofCode? code with
    | some g =>
      rw [known] at first
      rw [step, StateT.run_map, readTag, StateT.run_bind, scan_of_ok first]
      rfl
    | none =>
      rw [known] at first
      rw [step, StateT.run_map, readTag, StateT.run_bind, scan_of_error first]
      rfl

theorem step_readUInt_eq (width : Nat) (t : Tape) : step (.readUInt width) t =
    if t.remaining < width then .ok (pure (.plain (.error (.outOfBounds t.pos width t.length)), t))
    else
      match Width.ofBytes? width with
      | none => .error (.width width)
      | some _ => .ok (pure (.plain (.ok (.int (littleValue ((t.bytes.drop t.pos).take width)))),
          { t with pos := t.pos + width })) := by
  rw [step, readUInt, withWidth, Width.ofBytes]
  cases known : Width.ofBytes? width with
  | none =>
    by_cases short : t.remaining < width
    · simp [short, Except.map]
    · simp [short, Except.map]
  | some w =>
    obtain rfl := Width.bytes_of_ofBytes? known
    have number : (Scan.number w).runFrom t.bytes t.pos =
        pure
          (if t.remaining < w.bytes then .error (.outOfBounds t.pos w.bytes t.length)
          else .ok (littleValue ((t.bytes.drop t.pos).take w.bytes), t.pos + w.bytes)) :=
      Scan.runFrom_number w t.bytes t.pos
    by_cases short : t.remaining < w.bytes
    · rw [if_pos short] at number ⊢
      dsimp only
      rw [scan_of_error number]
      rfl
    · rw [if_neg short] at number ⊢
      dsimp only
      rw [scan_of_ok number]
      rfl

theorem step_writeUInt_eq (width : Nat) (v : UInt64) (t : Tape) : step (.writeUInt width v) t =
    if t.remaining < width then .ok (pure (.plain (.error (.outOfBounds t.pos width t.length)), t))
    else
      match Width.ofBytes? width with
      | none => .error (.width width)
      | some _ =>
        .ok (pure
          (.done, ⟨t.bytes.overlay t.pos (littleDigits width v.toNat), t.pos + width⟩)) := by
  cases known : Width.ofBytes? width with
  | none =>
    rw [step, writeUInt, withWidth, Width.ofBytes, known]
    by_cases short : t.remaining < width
    · rw [if_pos short]
      dsimp only
      rw [if_pos short]
      rfl
    · rw [if_neg short]
      dsimp only
      rw [if_neg short]
      rfl
  | some w =>
    obtain rfl := Width.bytes_of_ofBytes? known
    have same : step (.writeUInt w.bytes v) t = step (.put (.uint w v)) t := by
      simp only [step, writeUInt, withWidth, Width.ofBytes, known, StateT.run_map]
      rfl
    rw [same, step_put]
    simp only [Entry.encode, length_littleDigits]
    split <;> rfl

end Tape
end WireCodec
