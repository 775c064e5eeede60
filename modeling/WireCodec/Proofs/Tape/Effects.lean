import WireCodec.Proofs.Tape.Skipping
import WireCodec.Proofs.Tape.Storing

/-!
# What a command does to a tape

All that one command can do, in five cases. It reads and moves the head, it is refused and leaves
everything as it was, or it stores bytes at the head; and there are the two failures that move the
head all the same. What stops the caller for good is a width that no integer has, and only where the
tape has that many bytes left.
-/

set_option autoImplicit false

namespace WireCodec

namespace Tape

def Command.encoding? : Command → Option (Except Failure Bytes)
  | .put e => some e.encode
  | .writeUInt width v => some (.ok (littleDigits width v.toNat))
  | _ => none

def Command.width? : Command → Option Nat
  | .readUInt width => some width
  | .writeUInt width _ => some width
  | _ => none

inductive Effect (c : Command) (t : Tape) : Reply → Tape → List Event → Prop
  | moved (a : Answer) (dst : Bytes) (pos : Nat) (events : List Event) (reads : c.encoding? = none)
    (inside : pos ≤ t.length) :
      Effect c t (c.reply (.ok a) dst) { t with pos } events
  | refused (f : Failure) (events : List Event) :
    Effect c t (c.reply (.error f) c.destination) t events
  | stored (b : Bytes) (encoded : c.encoding? = some (.ok b)) (room : b.length ≤ t.remaining) :
      Effect c t .done ⟨t.bytes.overlay t.pos b, t.pos + b.length⟩ []
  | corrupt (code : UInt8) (asked : c = .readTag) (here : t.bytes[t.pos]? = some code)
    (unknown : Tag.ofCode? code = none) :
      Effect c t (.plain (.error (.corruptTag code))) { t with pos := t.pos + 1 }
        [.corruptTag code t.pos]
  | illFormed (dst payload : Bytes) (pos : Nat) (events : List Event) (asked : c = .load .text dst)
      (taken : step (.load .stringBytes dst) t =
        .ok ⟨(.loaded (.ok (.bytes payload)) (dst.overlay 0 payload), { t with pos }), events⟩)
      (illFormed : Utf8.decode? payload = none) (inside : pos ≤ t.length) :
      Effect c t (.loaded (.error .invalidUtf8) (dst.overlay 0 payload)) { t with pos } events

theorem failure?_reply_ok (c : Command) (a : Answer) (dst : Bytes) :
    (c.reply (.ok a) dst).failure? = none := by
  cases c <;> rfl

theorem failure?_reply_error (c : Command) (f : Failure) (dst : Bytes) :
    (c.reply (.error f) dst).failure? = some f := by
  cases c <;> rfl

variable {t t' : Tape} {reply : Reply} {events : List Event}

theorem effect_read (sound : (⟨t, []⟩ : Drive).Sound) {r : Request}
    (ran : step (.read r) t = .ok ⟨(reply, t'), events⟩) : Effect (.read r) t reply t' events := by
  rcases scanned : r.scan.runFrom t.bytes t.pos with ⟨f | ⟨a, pos⟩, noted⟩
  · rw [step_read_of_error scanned] at ran
    cases ran
    exact .refused f events
  · rw [step_read_of_ok scanned] at ran
    cases ran
    exact .moved a [] pos events rfl ((Drive.restores_request r).inside sound scanned)

theorem effect_load {dst : Bytes} (sound : (⟨t, dst⟩ : Drive).Sound) {l : Load}
    (ran : step (.load l dst) t = .ok ⟨(reply, t'), events⟩) :
    Effect (.load l dst) t reply t' events := by
  rcases scanned : (l.scan dst.length).runFrom t.bytes t.pos with ⟨f | ⟨payload, pos⟩, noted⟩
  · rw [step_load_of_error scanned] at ran
    cases ran
    exact .refused f events
  · rw [step_load_of_ok scanned] at ran
    cases ran
    have inside := Drive.load_inside l sound scanned
    cases l with
    | slice => exact .moved .done _ pos events rfl inside
    | blob c | taggedBlob c => exact .moved (.count payload.length) _ pos events rfl inside
    | anyBlob => exact .moved (.count payload.length) _ pos events rfl inside
    | stringBytes => exact .moved (.bytes payload) _ pos events rfl inside
    | text =>
      rw [Load.answer]
      cases formed : Utf8.decode? payload with
      | some s => exact .moved (.text s) _ pos events rfl inside
      | none =>
        have taken := @step_load_of_ok .stringBytes dst _ _ _ _ scanned
        exact .illFormed dst payload pos events rfl taken formed inside

theorem effect_readTag (ran : step .readTag t = .ok ⟨(reply, t'), events⟩) :
    Effect .readTag t reply t' events := by
  rw [step_readTag_eq] at ran
  cases here : t.bytes[t.pos]? with
  | none =>
    simp only [here] at ran
    cases ran
    exact .refused _ []
  | some code =>
    have inside : t.pos + 1 ≤ t.length := (List.getElem?_eq_some_iff.mp here).1
    cases known : Tag.ofCode? code with
    | some g =>
      simp only [here, known] at ran
      cases ran
      exact .moved (.tag g) [] (t.pos + 1) [] rfl inside
    | none =>
      simp only [here, known] at ran
      cases ran
      exact .corrupt code rfl here known

theorem effect_readUInt (inside : t.pos ≤ t.length) {width : Nat}
    (ran : step (.readUInt width) t = .ok ⟨(reply, t'), events⟩) :
    Effect (.readUInt width) t reply t' events := by
  rw [step_readUInt_eq] at ran
  by_cases short : t.remaining < width
  · rw [if_pos short] at ran
    cases ran
    exact .refused _ []
  · rw [if_neg short] at ran
    cases known : Width.ofBytes? width with
    | none =>
      simp only [known] at ran
      cases ran
    | some w =>
      simp only [known] at ran
      cases ran
      unfold remaining at short
      exact .moved _ [] (t.pos + width) [] rfl (by omega)

theorem effect_put {e : Entry} (ran : step (.put e) t = .ok ⟨(reply, t'), events⟩) :
    Effect (.put e) t reply t' events := by
  rw [step_put] at ran
  cases encoded : e.encode with
  | error f =>
    simp only [encoded] at ran
    cases ran
    exact .refused f []
  | ok b =>
    by_cases short : t.remaining < b.length
    · simp only [encoded, if_pos short] at ran
      cases ran
      exact .refused _ []
    · simp only [encoded, if_neg short] at ran
      cases ran
      exact .stored b (congrArg some encoded) (Nat.le_of_not_lt short)

theorem effect_writeUInt {width : Nat} {v : UInt64}
    (ran : step (.writeUInt width v) t = .ok ⟨(reply, t'), events⟩) :
    Effect (.writeUInt width v) t reply t' events := by
  rw [step_writeUInt_eq] at ran
  by_cases short : t.remaining < width
  · rw [if_pos short] at ran
    cases ran
    exact .refused _ []
  · rw [if_neg short] at ran
    cases known : Width.ofBytes? width with
    | none =>
      simp only [known] at ran
      cases ran
    | some w =>
      simp only [known] at ran
      cases ran
      have size := length_littleDigits width v.toNat
      have stored :=
        Effect.stored (c := .writeUInt width v) (t := t) (littleDigits width v.toNat) rfl (by omega)
      rwa [size] at stored

theorem effect_seek {pos : Nat} (ran : step (.seek pos) t = .ok ⟨(reply, t'), events⟩) :
    Effect (.seek pos) t reply t' events := by
  rw [step_seek] at ran
  by_cases beyond : t.length < pos
  · rw [if_pos beyond] at ran
    cases ran
    exact .refused _ []
  · rw [if_neg beyond] at ran
    cases ran
    exact .moved .done [] pos [] rfl (Nat.le_of_not_lt beyond)

theorem effect_of_step (inside : t.pos ≤ t.length) (fits : t.length ≤ maxLength) {c : Command}
    (ran : step c t = .ok ⟨(reply, t'), events⟩) : Effect c t reply t' events := by
  cases c with
  | read r => exact effect_read ⟨inside, fits⟩ ran
  | readTag => exact effect_readTag ran
  | readUInt width => exact effect_readUInt inside ran
  | load l dst => exact effect_load ⟨inside, fits⟩ ran
  | put e => exact effect_put ran
  | writeUInt width v => exact effect_writeUInt ran
  | seek pos => exact effect_seek ran
  | rewind =>
    cases ran
    exact .moved .done [] 0 [] rfl (Nat.zero_le _)

theorem misfit_iff {width : Nat} {m : Misuse} {refusal answer : Logged (Reply × Tape)} :
    (if t.remaining < width then .ok refusal
      else match Width.ofBytes? width with
        | none => .error (.width width)
        | some _ => .ok answer : Except Misuse (Logged (Reply × Tape))) = .error m ↔
      ¬ (1 ≤ width ∧ width ≤ 8) ∧ width ≤ t.remaining ∧ m = .width width := by
  rw [← Width.ofBytes?_eq_none]
  by_cases short : t.remaining < width
  · rw [if_pos short]
    simp [Nat.not_le.mpr short]
  · rw [if_neg short]
    cases Width.ofBytes? width with
    | none => simp [Nat.le_of_not_lt short, eq_comm]
    | some w => simp

theorem step_eq_error {c : Command} {m : Misuse} : step c t = .error m ↔
    ∃ width, c.width? = some width ∧ ¬ (1 ≤ width ∧ width ≤ 8) ∧ width ≤ t.remaining ∧
      m = .width width := by
  cases c with
  | readUInt width =>
    rw [step_readUInt_eq]
    refine misfit_iff.trans ?_
    simp [Command.width?]
  | writeUInt width v =>
    rw [step_writeUInt_eq]
    refine misfit_iff.trans ?_
    simp [Command.width?]
  | read r | readTag | load l dst | put e | seek pos | rewind => simp [step, Command.width?]

end Tape

end WireCodec
