import WireCodec.Proofs.Tape.Locality

/-!
# Integers in their narrowest form

An integer is stored in the least width that holds it, signed where it can be. A machine finds the
width on a ladder, with bounds that are machine words. It is read back from the bytes that are
stored, and no integer encoding that reads as the same integer has fewer of them, so storing again
what was read never takes more room than it took.
-/

set_option autoImplicit false

namespace WireCodec

/-- Whether the bytes of a width hold an integer, as a signed or as an unsigned number. -/
def Width.Holds (w : Width) (v : Int) : Prop := -2 ^ (8 * w.bytes - 1) ≤ v ∧ v < 2 ^ (8 * w.bytes)

instance (w : Width) (v : Int) : Decidable (w.Holds v) :=
  inferInstanceAs (Decidable (-2 ^ (8 * w.bytes - 1) ≤ v ∧ v < 2 ^ (8 * w.bytes)))

theorem Width.holds_iff {w : Width} {v : Int} :
    w.Holds v ↔ w.minSigned ≤ v ∧ v ≤ w.maxUnsigned := by
  have greatest : (w.maxUnsigned : Int) = 2 ^ (8 * w.bytes) - 1 := by cases w <;> rfl
  rw [greatest, Int.le_sub_one_iff]
  rfl

theorem find?_least {α : Type} {l : List α} {size : α → Nat}
    (ascending : l.Pairwise fun a b => size a ≤ size b)
    {p : α → Bool} {a b : α} (found : l.find? p = some a) (mem : b ∈ l) (passes : p b = true) :
    size a ≤ size b := by
  obtain ⟨-, before, after, rfl, fail⟩ := List.find?_eq_some_iff_append.mp found
  rcases List.mem_append.mp mem with early | late
  · have failed := fail b early
    rw [passes] at failed
    cases failed
  · rcases List.mem_cons.mp late with rfl | later
    · exact Nat.le_refl _
    · have tail := (List.pairwise_append.mp ascending).2.1
      exact List.rel_of_pairwise_cons tail later

namespace IntFormat

/-- A step of the ladder, with the bounds of its width as machine words. -/
structure Rung where
  width : Width
  least : Int64
  greatest : Int64
  greatestUnsigned : UInt64

namespace Rung

def of (w : Width) : Rung :=
  ⟨w, Int64.ofInt w.minSigned, Int64.ofInt w.maxSigned, UInt64.ofNat w.maxUnsigned⟩

def fits (r : Rung) (v : Int64) : Bool := r.least ≤ v && v ≤ r.greatestUnsigned.toInt64

end Rung

/-- The widest integers have no rung: no signed word holds their greatest unsigned number. -/
def ladder : List Rung := [Width.b8, .b16, .b24, .b32, .b40, .b48, .b56].map .of

def climb (v : Int64) : IntFormat :=
  match ladder.find? fun r => r.fits v with
  | some r => if r.greatest < v then .unsigned r.width else .twosComplement r.width
  | none => .twosComplement .b64

theorem Rung.bounds_of {w : Width} (narrow : w ≠ .b64) :
    (Rung.of w).least.toInt = w.minSigned ∧ (Rung.of w).greatest.toInt = w.maxSigned ∧
      (Rung.of w).greatestUnsigned.toInt64.toInt = w.maxUnsigned := by
  cases w with
  | b64 => exact absurd rfl narrow
  | b8 | b16 | b24 | b32 | b40 | b48 | b56 => decide

theorem Rung.fits_of {w : Width} (narrow : w ≠ .b64) (v : Int64) :
    (Rung.of w).fits v = (w.minSigned ≤ v.toInt && v.toInt ≤ w.maxUnsigned) := by
  obtain ⟨least, -, greatest⟩ := bounds_of narrow
  simp only [fits, Int64.le_iff_toInt_le, least, greatest]

theorem Rung.find?_of {ws : List Width} (narrow : ∀ w ∈ ws, w ≠ .b64) (v : Int64) :
    (ws.map Rung.of).find? (fun r => r.fits v) =
      (ws.find? fun w => w.minSigned ≤ v.toInt && v.toInt ≤ w.maxUnsigned).map Rung.of := by
  induction ws with
  | nil => rfl
  | cons w ws ih =>
    have others := ih fun w' mem => narrow w' (List.mem_cons_of_mem w mem)
    rw [List.map_cons, List.find?_cons, List.find?_cons,
      fits_of (narrow w List.mem_cons_self), others]
    split <;> rfl

theorem narrowest_of_width {v : Int} {w : Width}
    (chosen : (Width.all.find? fun w => w.minSigned ≤ v && v ≤ w.maxUnsigned).getD .b64 = w) :
    narrowest v = if v ≤ w.maxSigned then .twosComplement w else .unsigned w := by
  subst chosen
  rfl

theorem climb_eq (v : Int64) : climb v = narrowest v.toInt := by
  have all : Width.all = [.b8, .b16, .b24, .b32, .b40, .b48, .b56] ++ [.b64] := rfl
  rw [climb, ladder, Rung.find?_of (by decide)]
  -- Both searches take the widths in the same order; they part only where no rung fits.
  cases found : [Width.b8, .b16, .b24, .b32, .b40, .b48, .b56].find? fun w =>
      w.minSigned ≤ v.toInt && v.toInt ≤ w.maxUnsigned with
  | some w =>
    have narrow : w ≠ .b64 := by
      rintro rfl
      exact absurd (List.mem_of_find?_eq_some found) (by decide)
    obtain ⟨-, greatest, -⟩ := Rung.bounds_of narrow
    rw [narrowest_of_width (w := w) (by rw [all, List.find?_append, found]; rfl)]
    simp only [Option.map_some, Int64.lt_iff_toInt_lt, greatest]
    by_cases small : v.toInt ≤ w.maxSigned
    · rw [if_pos small, if_neg (Int.not_lt.mpr small)]
      rfl
    · rw [if_neg small, if_pos (Int.not_le.mp small)]
      rfl
  | none =>
    have last : v.toInt ≤ Width.b64.maxSigned := Int.le_sub_one_of_lt v.toInt_lt
    have widest :
        (Width.all.find? fun w => w.minSigned ≤ v.toInt && v.toInt ≤ w.maxUnsigned).getD .b64 =
          .b64 := by
      rw [all, List.find?_append, found, Option.none_or, List.find?_singleton]
      split <;> rfl
    rw [narrowest_of_width widest, if_pos last]
    rfl

theorem narrowest_spec (v : Int64) :
    ∃ w : Width, w.Holds v.toInt ∧ (∀ w' : Width, w'.Holds v.toInt → w.bytes ≤ w'.bytes) ∧
      narrowest v.toInt =
        if v.toInt < 2 ^ (8 * w.bytes - 1) then .twosComplement w else .unsigned w := by
  have ascending : Width.all.Pairwise fun a b => a.bytes ≤ b.bytes := by decide
  have widest : Width.b64.Holds v.toInt := ⟨v.le_toInt, Int.lt_trans v.toInt_lt (by decide)⟩
  have passes {w : Width} (holds : w.Holds v.toInt) :
      (w.minSigned ≤ v.toInt && v.toInt ≤ w.maxUnsigned) = true := by
    simpa using Width.holds_iff.mp holds
  cases found : Width.all.find? fun w => w.minSigned ≤ v.toInt && v.toInt ≤ w.maxUnsigned with
  | none => exact absurd (passes widest) (List.find?_eq_none.mp found .b64 (Width.mem_all .b64))
  | some w =>
    have holds := List.find?_some found
    simp only [Bool.and_eq_true, decide_eq_true_eq] at holds
    have least (w' : Width) (holds' : w'.Holds v.toInt) : w.bytes ≤ w'.bytes :=
      find?_least ascending found (Width.mem_all w') (passes holds')
    refine ⟨w, Width.holds_iff.mpr holds, least, ?_⟩
    rw [narrowest_of_width (w := w) (by rw [found]; rfl)]
    simp only [Width.maxSigned, Int.le_sub_one_iff]
    rfl

theorem holds_read (f : IntFormat) {n : Nat} (small : n < f.width.modulus) :
    f.width.Holds (f.read n) := by
  have size : (f.width.modulus : Int) = 2 ^ (8 * f.width.bytes) := by cases f.width <;> rfl
  have half : (2 : Int) ^ (8 * f.width.bytes) = 2 * 2 ^ (8 * f.width.bytes - 1) := by
    cases f.width <;> rfl
  have pos : (0 : Int) < 2 ^ (8 * f.width.bytes - 1) := by cases f.width <;> decide
  unfold Width.Holds read
  split
  · have least := Int.le_bmod (x := n) f.width.modulus_pos
    have greatest := Int.bmod_lt (x := n) f.width.modulus_pos
    change -2 ^ (8 * f.width.bytes - 1) ≤ Int.bmod n f.width.modulus ∧
      Int.bmod n f.width.modulus < 2 ^ (8 * f.width.bytes)
    omega
  · omega

theorem holds_ofInt_read (f : IntFormat) {n : Nat} (small : n < f.width.modulus) :
    f.width.Holds (Int64.ofInt (f.read n)).toInt := by
  have holds := f.holds_read small
  by_cases widest : f.width = .b64
  · rw [widest]
    exact ⟨Int64.le_toInt _, Int.lt_trans (Int64.toInt_lt _) (by decide)⟩
  · have least : -2 ^ 63 ≤ -(2 : Int) ^ (8 * f.width.bytes - 1) := by cases f.width <;> decide
    have greatest : (2 : Int) ^ (8 * f.width.bytes) ≤ 2 ^ 63 := by
      cases width : f.width with
      | b64 => exact absurd width widest
      | b8 | b16 | b24 | b32 | b40 | b48 | b56 => decide
    rwa [Int64.toInt_ofInt_of_le (Int.le_trans least holds.1) (Int.lt_of_lt_of_le holds.2 greatest)]

theorem width_ite (p : Prop) [Decidable p] (w : Width) :
    (if p then twosComplement w else unsigned w).width = w := by
  split <;> rfl

end IntFormat

theorem Scan.runFrom_integer_eq_ok {f : IntFormat} {array : Bytes} {pos q : Nat} {v : Int64}
    (here : array[pos]? = some (Tag.integer f).code) :
    integer.runFrom array pos = pure (.ok (v, q)) ↔
      f.width.bytes ≤ array.length - (pos + 1) ∧ q = pos + 1 + f.width.bytes ∧
        v = Int64.ofInt (f.read (littleValue ((array.drop (pos + 1)).take f.width.bytes))) := by
  rw [integer, runFrom_bind_eq_ok]
  constructor
  · rintro ⟨g, mid, first, second⟩
    obtain ⟨there, rfl⟩ := runFrom_tag_eq_ok.mp first
    rw [here, Option.some.injEq] at there
    obtain rfl := Tag.code_inj there
    obtain ⟨n, mid, third, fourth⟩ := runFrom_bind_eq_ok.mp second
    obtain ⟨room, rfl, rfl⟩ := runFrom_number_eq_ok.mp third
    cases fourth
    exact ⟨room, rfl, rfl⟩
  · rintro ⟨room, rfl, rfl⟩
    refine ⟨.integer f, pos + 1, runFrom_tag_eq_ok.mpr ⟨here, rfl⟩, ?_⟩
    exact runFrom_bind_eq_ok.mpr ⟨_, _, runFrom_number_eq_ok.mpr ⟨room, rfl, rfl⟩, rfl⟩

namespace Tape

theorem of_step_integer {t t' : Tape} {f : IntFormat} {v : Int64} {events : List Event}
    (here : t.bytes[t.pos]? = some (Tag.integer f).code)
    (read : step (.read .integer) t = .ok ⟨(.plain (.ok (.int v.toInt)), t'), events⟩) :
    f.width.Holds v.toInt ∧ 1 + f.width.bytes ≤ t.remaining ∧
    t' = { t with pos := t.pos + (1 + f.width.bytes) } := by
  rcases scanned : Request.integer.scan.runFrom t.bytes t.pos with ⟨e | ⟨a, q⟩, noted⟩
  · rw [step_read_of_error scanned] at read
    cases read
  · obtain ⟨rfl, -⟩ := Request.local_scan (r := .integer) (by rintro ⟨⟩) _ _ _ _ _ scanned
    rw [step_read_of_ok scanned] at read
    obtain ⟨v', mid, first, second⟩ := Scan.runFrom_bind_eq_ok.mp scanned
    cases second
    obtain ⟨room, rfl, rfl⟩ := (Scan.runFrom_integer_eq_ok here).mp first
    simp only [Except.ok.injEq, Logged.mk.injEq, Prod.mk.injEq, Reply.plain.injEq,
      Answer.int.injEq] at read
    obtain ⟨⟨same, rfl⟩, -⟩ := read
    rw [← same]
    have small := littleValue_lt ((t.bytes.drop (t.pos + 1)).take f.width.bytes)
    obtain ⟨-, size⟩ := Bytes.HasAt.window room
    rw [size] at small
    refine ⟨f.holds_ofInt_read small, ?_, by rw [Nat.add_assoc]⟩
    have inside := (List.getElem?_eq_some_iff.mp here).1
    unfold remaining length
    omega

end Tape

namespace Drive

theorem step_put_integer {v : Int64} {w : Width} {f : IntFormat}
    (form : IntFormat.narrowest v.toInt = f) (width : f.width = w)
    {t : Tape} (inside : t.pos ≤ t.length) (fits : t.length ≤ maxLength)
    (room : 1 + w.bytes ≤ t.remaining) :
    step (.put (.integer v)) t = .ok (pure (.done,
      ⟨t.bytes.overlay t.pos ((Tag.integer f).code :: littleDigits w.bytes v.toUInt64.toNat),
        t.pos + (1 + w.bytes)⟩)) := by
  subst form width
  have size :=
    Entry.length_tagged (.integer (.narrowest v.toInt)) (IntFormat.narrowest v.toInt).width.bytes
      v.toUInt64.toNat
  rw [step_of_tape inside fits, Tape.step_put]
  simp only [Entry.encode, Entry.taggedInteger, size, if_neg (Nat.not_lt.mpr room)]
  rfl

/-- An integer is stored in the least width that holds it, signed if it can be, and is read back
from there. -/
theorem integer_stored_narrowest (v : Int64) : ∃ w : Width,
    w.Holds v.toInt ∧ (∀ w' : Width, w'.Holds v.toInt → w.bytes ≤ w'.bytes) ∧
    let f : IntFormat := if v.toInt < 2 ^ (8 * w.bytes - 1) then .twosComplement w else .unsigned w
    let b : Bytes := (Tag.integer f).code :: littleDigits w.bytes v.toUInt64.toNat
    IntFormat.climb v = f ∧
    (∀ t : Tape, t.pos ≤ t.length → t.length ≤ maxLength → 1 + w.bytes ≤ t.remaining →
      let stored : Bytes := t.bytes.overlay t.pos b
      step (.put (.integer v)) t = .ok (pure (.done, ⟨stored, t.pos + (1 + w.bytes)⟩)) ∧
      step (.read .integer) ⟨stored, t.pos⟩ =
        .ok (pure (.plain (.ok (.int v.toInt)), ⟨stored, t.pos + (1 + w.bytes)⟩))) ∧
    ∀ (t t' : Tape) (g : IntFormat) (events : List Event), t.pos ≤ t.length → t.length ≤ maxLength →
      t.bytes[t.pos]? = some (Tag.integer g).code →
      step (.read .integer) t = .ok ⟨(.plain (.ok (.int v.toInt)), t'), events⟩ →
      t.pos + (1 + w.bytes) ≤ t'.pos ∧
      step (.put (.integer v)) t =
        .ok (pure (.done, ⟨t.bytes.overlay t.pos b, t.pos + (1 + w.bytes)⟩)) := by
  obtain ⟨w, holds, least, form⟩ := IntFormat.narrowest_spec v
  refine ⟨w, holds, least, ?_⟩
  intro f b
  have width : f.width = w := IntFormat.width_ite _ w
  refine ⟨(IntFormat.climb_eq v).trans form, ?_, ?_⟩
  · intro t inside fits room stored
    have size : b.length = 1 + w.bytes := by
      rw [List.length_cons, length_littleDigits, Nat.add_comm]
    have encoded : (Entry.integer v).encode = .ok b := by
      rw [Entry.encode, Entry.taggedInteger, form]
      exact congrArg
        (fun u : Width => Except.ok ((Tag.integer f).code :: littleDigits u.bytes v.toUInt64.toNat))
        width
    have length_eq : stored.length = t.bytes.length :=
      t.bytes.length_overlay t.pos b (size ▸ Nat.add_le_of_le_sub' inside room)
    have inside' : t.pos ≤ (⟨stored, t.pos⟩ : Tape).length := inside.trans_eq length_eq.symm
    have fits' : (⟨stored, t.pos⟩ : Tape).length ≤ maxLength := length_eq.trans_le fits
    have stands : stored.HasAt t.pos b :=
      List.prefix_iff_eq_take.mpr (Bytes.take_drop_overlay inside).symm
    have back := Tape.step_readBack (t := ⟨stored, t.pos⟩) (.integer v) encoded stands
    rw [size] at back
    exact ⟨step_put_integer form width inside fits room,
      (step_of_tape inside' fits').mpr back⟩
  · intro t t' g events inside fits here read
    obtain ⟨fits_width, room, rfl⟩ := Tape.of_step_integer here ((step_of_tape inside fits).mp read)
    have narrower := least g.width fits_width
    exact ⟨by dsimp only; omega, step_put_integer form width inside fits (by omega)⟩

theorem integer_stored_narrowest_again :
    let t : Tape := ⟨[0, 0, 0, 0, 0], 1⟩
    let wide : Tape := ⟨[11, 255, 0, 0], 0⟩
    step (.put (.integer (-8388608))) t = .ok (pure (.done, ⟨[0, 11, 0, 0, 128], 5⟩)) ∧
      step (.read .integer) ⟨[0, 11, 0, 0, 128], 1⟩ =
        .ok (pure (.plain (.ok (.int (-8388608))), ⟨[0, 11, 0, 0, 128], 5⟩)) ∧
      step (.read .integer) wide = .ok (pure (.plain (.ok (.int 255)), { wide with pos := 4 })) ∧
      step (.put (.integer 255)) wide = .ok (pure (.done, ⟨[1, 255, 0, 0], 2⟩)) := by
  have found : Tape.step (.read .integer) ⟨[11, 255, 0, 0], 0⟩ =
      .ok (pure (.plain (.ok (.int 255)), ⟨[11, 255, 0, 0], 4⟩)) := rfl
  intro t wide
  obtain ⟨w, holds, least, -, stores, -⟩ := integer_stored_narrowest (-8388608)
  have upper := least .b24 (by decide)
  obtain rfl : w = .b24 := by
    cases w with
    | b24 => rfl
    | b8 | b16 => exact absurd holds (by decide)
    | b32 | b40 | b48 | b56 | b64 => exact absurd upper (by decide)
  obtain ⟨put, back⟩ := stores t (by decide) (by decide) (by decide)
  obtain ⟨w, -, least, -, -, again⟩ := integer_stored_narrowest 255
  have upper := least .b8 (by decide)
  obtain rfl : w = .b8 := by
    cases w with
    | b8 => rfl
    | b16 | b24 | b32 | b40 | b48 | b56 | b64 => exact absurd upper (by decide)
  have read : step (.read .integer) wide =
      .ok (pure (.plain (.ok (.int 255)), { wide with pos := 4 })) :=
    (step_of_tape (by decide) (by decide)).mpr found
  exact ⟨put, back, read,
    (again wide _ (.twosComplement .b24) [] (by decide) (by decide) rfl read).2⟩

end Drive

end WireCodec
