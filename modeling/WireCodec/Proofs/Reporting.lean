import WireCodec.Proofs.Stream.Reporting
import WireCodec.Proofs.Tape.Reporting

/-!
# What reaches the log

The log mirrors the failures. Each end of a stream writes one line for each failure that it comes to
keep, and a drive one for each byte that it fails to take for a tag; neither writes anything else.
-/

set_option autoImplicit false

namespace WireCodec

theorem Tells.events {array : Bytes} {pos : Nat} {f : Option Failure} {events : List Event}
    (told : Tells array pos f events) :
    (∀ code, f = some (.corruptTag code) →
      events = [.corruptTag code pos] ∧ array[pos]? = some code ∧ (code = 0 ∨ 28 < code.toNat)) ∧
    ((∀ code, f ≠ some (.corruptTag code)) → events = []) := by
  cases told with
  | corrupt code here unknown =>
    refine ⟨fun found same => ?_, fun intact => absurd rfl (intact code)⟩
    cases same
    exact ⟨rfl, here, Tag.ofCode?_eq_none.mp unknown⟩
  | silent intact => exact ⟨fun code same => absurd same (intact code), fun _ => rfl⟩

/-- A step of a stream reports the failure that it comes to keep, a step of a drive the corrupt tag
that it fails of, and neither anything else. -/
theorem log_mirrors_failures :
    (∀ (cs : List StreamWriter.Command) (s : ScratchWriter), s.scratch.length = Leb128.maxBytes →
      ∃ (sights : List StreamWriter.Sight) (last : ScratchWriter),
        ScratchWriter.run cs s = .ok (sights, last) ∧
        sights.map (·.events) =
          List.zipWith (Event.between .writer) (s.writer.slot.first :: sights.map (·.first))
            (sights.map (·.first))) ∧
    (∀ (cs : List StreamReader.Command) (s : ScratchReader),
      s.scratch.length = ScratchReader.scratchBytes →
      let sights := (ScratchReader.run cs s).1
      sights.map (·.events) = List.zipWith (Event.between .reader)
        (s.reader.slot.first :: sights.map (·.slot.first)) (sights.map (·.slot.first))) ∧
    (∀ (c : Tape.Command) (t t' : Tape) (reply : Tape.Reply) (events : List Event),
      t.pos ≤ t.length →
      t.length ≤ maxLength → Drive.step c t = .ok ⟨(reply, t'), events⟩ →
        (∀ code, reply.failure? = some (.corruptTag code) →
          events = [.corruptTag code t.pos] ∧ t.bytes[t.pos]? = some code ∧
          (code = 0 ∨ 28 < code.toNat)) ∧
        ((∀ code, reply.failure? ≠ some (.corruptTag code)) → events = [])) ∧
    (∀ f, (Event.firstFailure .writer f).text =
      "DEBUG encoder recorded first error error=" ++ f.message) ∧
    (∀ f, (Event.firstFailure .reader f).text =
      "DEBUG decoder recorded first error error=" ++ f.message) ∧
    ∀ code pos, (Event.corruptTag code pos).text =
      "WARN corrupt type tag tag=" ++ toString code.toNat ++ " pos=" ++ toString pos := by
  refine ⟨?_, ?_, ?_, fun _ => rfl, fun _ => rfl, fun _ _ => rfl⟩
  · rintro cs ⟨w, scratch⟩ room
    obtain ⟨last, -, ran⟩ := ScratchWriter.run_eq cs w room
    exact ⟨_, _, ran, StreamWriter.events_run cs w⟩
  · rintro cs ⟨r, scratch⟩ room
    obtain ⟨last, -, ran⟩ := ScratchReader.run_eq cs r room
    rw [ran]
    exact StreamReader.events_run cs r
  · intro c t t' reply events inside fits stepped
    exact (Tape.tells_of_step ((Drive.step_of_tape inside fits).mp stepped)).events

theorem log_mirrors_failures_once_each :
    let writer : ScratchWriter := ⟨.over (Sink.scripted (some 1) []) false, List.replicate 10 0⟩
    let writes : List StreamWriter.Command :=
      [.put (.bytes [1, 2]), .put (.bytes [3, 4]), .reset, .put (.bytes [5, 6])]
    let reader : ScratchReader := ⟨.over ⟨[.data [128]]⟩ true, List.replicate 8 0⟩
    let reads : List StreamReader.Command := [.fetch .uvarint, .fetch .bool, .takeError, .error]
    let t : Tape := ⟨[7, 29, 1], 1⟩
    let refused : Tape.Reply := .plain (.error (.corruptTag 29))
    writer.scratch.length = Leb128.maxBytes ∧ reader.scratch.length = ScratchReader.scratchBytes ∧
      t.pos ≤ t.length ∧ t.length ≤ maxLength ∧
      Drive.step (.read .integer) t = .ok ⟨(refused, t), [.corruptTag 29 1]⟩ ∧
      (∃ (sights : List StreamWriter.Sight) (last : ScratchWriter),
        ScratchWriter.run writes writer = .ok (sights, last) ∧
        sights.map (·.events) =
          List.zipWith (Event.between .writer) (none :: sights.map (·.first))
            (sights.map (·.first))) ∧
      t.bytes[t.pos]? = some 29 ∧
      let sights := (ScratchReader.run reads reader).1
      sights.map (·.events) = List.zipWith (Event.between .reader)
        (none :: sights.map (·.slot.first)) (sights.map (·.slot.first)) := by
  have scanned : Tape.step (.read .integer) ⟨[7, 29, 1], 1⟩ =
      .ok ⟨(.plain (.error (.corruptTag 29)), ⟨[7, 29, 1], 1⟩), [.corruptTag 29 1]⟩ := rfl
  intro writer writes reader reads t refused
  have inside : t.pos ≤ t.length := by decide
  have fits : t.length ≤ maxLength := by decide
  have stepped := (Drive.step_of_tape inside fits).mpr scanned
  obtain ⟨written, read, driven, -, -, -⟩ := log_mirrors_failures
  obtain ⟨-, here, -⟩ := (driven _ _ _ _ _ inside fits stepped).1 29 rfl
  exact ⟨rfl, rfl, inside, fits, stepped, written writes writer rfl, here, read reads reader rfl⟩

end WireCodec
