import WireCodec.Proofs.Tape.Outcomes

/-!
# How far a scan goes

Where a scan ends depends on the array alone, if it ends at all. `Layout.Ends` says where a payload
ends by the layout of its tag; draining, and every scan of a payload, reaches that place or fails. A
scan that succeeds reports nothing.
-/

set_option autoImplicit false

namespace WireCodec

/-- The length that stands at a position, in the width of a length class. -/
def Bytes.announced (array : Bytes) (pos : Nat) (c : LengthClass) : Nat :=
  littleValue ((array.drop pos).take c.bytes)

/-- Where a payload ends that starts at a position: it is all there, its length field included. -/
def Layout.Ends (array : Bytes) (pos q : Nat) : Layout → Prop
  | .fixed size => size ≤ array.length - pos ∧ q = pos + size
  | .counted c =>
    c.bytes ≤ array.length - pos ∧ array.announced pos c ≤ array.length - (pos + c.bytes) ∧
      q = pos + c.bytes + array.announced pos c

theorem Tag.ofCode?_eq_some {code : UInt8} {g : Tag} : ofCode? code = some g ↔ code = g.code := by
  constructor
  · intro h
    have found := List.find?_some h
    exact (beq_iff_eq.mp found).symm
  · rintro rfl
    exact ofCode?_code g

theorem Tag.code_inj {g g' : Tag} (h : g.code = g'.code) : g = g' := by
  have same := ofCode?_code g
  rw [h, ofCode?_code] at same
  exact (Option.some.inj same).symm

theorem Tag.ends_bounds {g : Tag} {array : Bytes} {pos q : Nat} (h : g.layout.Ends array pos q) :
    pos + 1 ≤ q ∧ q ≤ array.length := by
  cases layout : g.layout with
  | fixed size =>
    rw [layout] at h
    obtain ⟨room, rfl⟩ := h
    have pos_size : 0 < size := by
      cases g with
      | integer f =>
        cases layout
        exact f.width.bytes_pos
      | blob c | string c => cases layout
      | float32 | float64 | complex64 | complex128 =>
        cases layout
        decide
    omega
  | counted c =>
    rw [layout] at h
    obtain ⟨field, room, rfl⟩ := h
    have pos_field : 0 < c.bytes := c.width.bytes_pos
    omega

namespace Scan

variable {α β : Type} {array : Bytes} {pos q : Nat}

/-- Whether a scan succeeds, and ends at `q`. -/
def Reaches (s : Scan α) (array : Bytes) (pos q : Nat) : Prop :=
  ∃ v, s.runFrom array pos = pure (.ok (v, q))

theorem reaches_bind {s : Scan α} {f : α → Scan β} :
    (s >>= f).Reaches array pos q ↔
      ∃ v mid, s.runFrom array pos = pure (.ok (v, mid)) ∧ (f v).Reaches array mid q := by
  constructor
  · rintro ⟨w, h⟩
    obtain ⟨v, mid, first, second⟩ := runFrom_bind_eq_ok.mp h
    exact ⟨v, mid, first, w, second⟩
  · rintro ⟨v, mid, first, w, second⟩
    exact ⟨w, runFrom_bind_eq_ok.mpr ⟨v, mid, first, second⟩⟩

theorem reaches_bind_of {s : Scan α} {f : α → Scan β} {P : Nat → Prop}
    (h : ∀ v mid, (f v).Reaches array mid q ↔ P mid) :
    (s >>= f).Reaches array pos q ↔ ∃ mid, s.Reaches array pos mid ∧ P mid := by
  rw [reaches_bind]
  constructor
  · rintro ⟨v, mid, first, second⟩
    exact ⟨mid, ⟨v, first⟩, (h v mid).mp second⟩
  · rintro ⟨mid, ⟨v, first⟩, second⟩
    exact ⟨v, mid, first, (h v mid).mpr second⟩

theorem reaches_pure (v : α) : (pure v : Scan α).Reaches array pos q ↔ q = pos := by
  constructor
  · rintro ⟨w, h⟩
    cases h
    rfl
  · rintro rfl
    exact ⟨v, rfl⟩

theorem reaches_map {s : Scan α} (g : α → β) : (do let v ← s; pure (g v)).Reaches array pos q ↔
    s.Reaches array pos q := by
  rw [reaches_bind_of fun v mid => reaches_pure (g v)]
  constructor
  · rintro ⟨mid, first, rfl⟩
    exact first
  · exact fun first => ⟨q, first, rfl⟩

theorem runFrom_advance_eq_ok {n : Nat} :
    (advance n).runFrom array pos = pure (.ok ((), q)) ↔ n ≤ array.length - pos ∧ q = pos + n := by
  rw [runFrom_advance]
  constructor
  · intro h
    split at h
    · cases h
    · cases h
      exact ⟨by omega, rfl⟩
  · rintro ⟨room, rfl⟩
    rw [if_neg (by omega)]

theorem reaches_bytes {n : Nat} :
    (bytes n).Reaches array pos q ↔ n ≤ array.length - pos ∧ q = pos + n := by
  unfold Reaches
  rw [runFrom_bytes]
  constructor
  · rintro ⟨v, h⟩
    split at h
    · cases h
    · cases h
      exact ⟨by omega, rfl⟩
  · rintro ⟨room, rfl⟩
    exact ⟨_, by rw [if_neg (by omega)]⟩

theorem runFrom_number_eq_ok {w : Width} {n : Nat} :
    (number w).runFrom array pos = pure (.ok (n, q)) ↔
    w.bytes ≤ array.length - pos ∧ n = littleValue ((array.drop pos).take w.bytes) ∧
    q = pos + w.bytes := by
  rw [runFrom_number]
  constructor
  · intro h
    split at h
    · cases h
    · cases h
      exact ⟨by omega, rfl, rfl⟩
  · rintro ⟨room, rfl, rfl⟩
    rw [if_neg (by omega)]

theorem reaches_number (w : Width) :
    (number w).Reaches array pos q ↔ (Layout.fixed w.bytes).Ends array pos q :=
  reaches_map _ |>.trans reaches_bytes

theorem runFrom_tag_eq_ok {g : Tag} :
    tag.runFrom array pos = pure (.ok (g, q)) ↔ array[pos]? = some g.code ∧ q = pos + 1 := by
  rw [runFrom_tag]
  cases here : array[pos]? with
  | none =>
    constructor
    · intro h
      cases h
    · rintro ⟨h, -⟩
      cases h
  | some code =>
    rw [Option.some.injEq, ← Tag.ofCode?_eq_some]
    dsimp only
    cases Tag.ofCode? code with
    | none =>
      constructor
      · intro h
        cases congrArg Logged.value h
      · rintro ⟨h, -⟩
        cases h
    | some g' =>
      constructor
      · intro h
        cases h
        exact ⟨rfl, rfl⟩
      · rintro ⟨h, rfl⟩
        cases h
        rfl

theorem reaches_tag_bind {f : Tag → Scan α} {g : Tag} (here : array[pos]? = some g.code) :
    (tag >>= f).Reaches array pos q ↔ (f g).Reaches array (pos + 1) q := by
  rw [reaches_bind]
  constructor
  · rintro ⟨g', mid, first, second⟩
    obtain ⟨there, rfl⟩ := runFrom_tag_eq_ok.mp first
    rw [here, Option.some.injEq] at there
    rwa [Tag.code_inj there]
  · exact fun second => ⟨g, pos + 1, runFrom_tag_eq_ok.mpr ⟨here, rfl⟩, second⟩

theorem runFrom_expect_eq_ok {g : Tag} :
    (expect g).runFrom array pos = pure (.ok ((), q)) ↔
      array[pos]? = some g.code ∧ q = pos + 1 := by
  rw [expect, runFrom_bind_eq_ok]
  constructor
  · rintro ⟨found, mid, first, second⟩
    obtain ⟨here, rfl⟩ := runFrom_tag_eq_ok.mp first
    by_cases same : found = g
    · rw [if_pos same] at second
      cases second
      rw [← same]
      exact ⟨here, rfl⟩
    · rw [if_neg same] at second
      cases second
  · rintro ⟨here, rfl⟩
    exact ⟨g, pos + 1, runFrom_tag_eq_ok.mpr ⟨here, rfl⟩, by rw [if_pos rfl]; rfl⟩

theorem reaches_expect_bind {g : Tag} {s : Scan α} :
    (do expect g; s).Reaches array pos q ↔
      array[pos]? = some g.code ∧ s.Reaches array (pos + 1) q := by
  rw [reaches_bind]
  constructor
  · rintro ⟨_, mid, first, second⟩
    obtain ⟨here, rfl⟩ := runFrom_expect_eq_ok.mp first
    exact ⟨here, second⟩
  · rintro ⟨here, second⟩
    exact ⟨(), pos + 1, runFrom_expect_eq_ok.mpr ⟨here, rfl⟩, second⟩

theorem reaches_pair {s : Scan α} {size : Nat}
    (h : ∀ pos q, s.Reaches array pos q ↔ (Layout.fixed size).Ends array pos q) :
    (do let a ← s; let b ← s; pure (a, b)).Reaches array pos q ↔
      (Layout.fixed (size + size)).Ends array pos q := by
  rw [reaches_bind_of fun a mid => (reaches_map fun b => (a, b)).trans (h mid q)]
  constructor
  · rintro ⟨mid, first, room', rfl⟩
    obtain ⟨room, rfl⟩ := (h pos mid).mp first
    exact ⟨by omega, by omega⟩
  · rintro ⟨room, rfl⟩
    exact ⟨pos + size, (h _ _).mpr ⟨by omega, rfl⟩, by omega, by omega⟩

theorem reaches_pattern32 : pattern32.Reaches array pos q ↔ (Layout.fixed 4).Ends array pos q :=
  (reaches_map _).trans (reaches_number .b32)

theorem reaches_pattern64 : pattern64.Reaches array pos q ↔ (Layout.fixed 8).Ends array pos q :=
  (reaches_map _).trans (reaches_number .b64)

theorem reaches_counted {c : LengthClass} {capacity : Nat}
    (holds : c.bytes ≤ array.length - pos → array.announced pos c ≤ capacity) :
    (counted c capacity).Reaches array pos q ↔ (Layout.counted c).Ends array pos q := by
  rw [counted, reaches_bind]
  constructor
  · rintro ⟨n, mid, first, second⟩
    obtain ⟨field, n_eq, rfl⟩ := runFrom_number_eq_ok.mp first
    obtain rfl : n = array.announced pos c := n_eq
    rw [if_neg (Nat.not_lt.mpr (holds field)), reaches_bytes] at second
    exact ⟨field, second⟩
  · rintro ⟨field, room, rfl⟩
    refine ⟨array.announced pos c, pos + c.bytes, runFrom_number_eq_ok.mpr ⟨field, rfl, rfl⟩, ?_⟩
    rw [if_neg (Nat.not_lt.mpr (holds field)), reaches_bytes]
    exact ⟨room, rfl⟩

theorem runFrom_drain_eq_ok {g : Tag} {n : Nat} :
    (drain g).runFrom array pos = pure (.ok (n, q)) ↔ g.layout.Ends array pos q ∧ n = q - pos := by
  have measure (mid : Nat) :
      (do let behind ← get; pure (behind - pos) : Scan Nat).runFrom array mid =
      pure (.ok (n, q)) ↔ mid = q ∧ n = q - pos := by
    rw [runFrom_bind (runFrom_get array mid)]
    constructor
    · intro h
      cases h
      exact ⟨rfl, rfl⟩
    · rintro ⟨rfl, rfl⟩
      rfl
  rw [drain, runFrom_bind (runFrom_get array pos)]
  cases layout : g.layout with
  | fixed size =>
    dsimp only
    rw [runFrom_bind_eq_ok]
    constructor
    · rintro ⟨_, mid, first, second⟩
      obtain ⟨rfl, n_eq⟩ := (measure mid).mp second
      exact ⟨runFrom_advance_eq_ok.mp first, n_eq⟩
    · rintro ⟨ends, n_eq⟩
      exact ⟨(), q, runFrom_advance_eq_ok.mpr ends, (measure q).mpr ⟨rfl, n_eq⟩⟩
  | counted c =>
    dsimp only
    rw [runFrom_bind_eq_ok]
    constructor
    · rintro ⟨announced, mid, first, second⟩
      obtain ⟨_, mid', moved, last⟩ := runFrom_bind_eq_ok.mp second
      obtain ⟨rfl, n_eq⟩ := (measure mid').mp last
      obtain ⟨field, rfl, rfl⟩ := runFrom_number_eq_ok.mp first
      exact ⟨⟨field, runFrom_advance_eq_ok.mp moved⟩, n_eq⟩
    · rintro ⟨⟨field, behind⟩, n_eq⟩
      refine ⟨_, _, runFrom_number_eq_ok.mpr ⟨field, rfl, rfl⟩, ?_⟩
      exact runFrom_bind_eq_ok.mpr ⟨(), q, runFrom_advance_eq_ok.mpr behind,
        (measure q).mpr ⟨rfl, n_eq⟩⟩

theorem runFrom_skip_eq_ok {g : Tag} : skip.runFrom array pos = pure (.ok (g, q)) ↔
    array[pos]? = some g.code ∧ g.layout.Ends array (pos + 1) q := by
  rw [skip, runFrom_bind_eq_ok]
  constructor
  · rintro ⟨found, mid, first, second⟩
    obtain ⟨n, mid', drained, last⟩ := runFrom_bind_eq_ok.mp second
    cases last
    obtain ⟨here, rfl⟩ := runFrom_tag_eq_ok.mp first
    exact ⟨here, (runFrom_drain_eq_ok.mp drained).1⟩
  · rintro ⟨here, ends⟩
    refine ⟨g, pos + 1, runFrom_tag_eq_ok.mpr ⟨here, rfl⟩, ?_⟩
    exact runFrom_bind_eq_ok.mpr ⟨_, q, runFrom_drain_eq_ok.mpr ⟨ends, rfl⟩, rfl⟩

/-- Whether a scan that succeeds has reported nothing. -/
def Quiet (s : Scan α) : Prop :=
  ∀ (array : Bytes) (pos : Nat) (r : α × Nat) (events : List Event),
    s.runFrom array pos = ⟨.ok r, events⟩ → events = []

theorem Quiet.bind {s : Scan α} {f : α → Scan β} (first : s.Quiet) (second : ∀ v, (f v).Quiet) :
    (s >>= f).Quiet := by
  intro array pos r events h
  rw [runFrom_bind_eq] at h
  rcases outcome : s.runFrom array pos with ⟨result, before⟩
  rw [outcome] at h
  cases result with
  | error e => cases h
  | ok v =>
    obtain ⟨v, mid⟩ := v
    dsimp only at h
    rcases rest : (f v).runFrom array mid with ⟨result, after⟩
    rw [rest] at h
    cases h
    rw [first array pos (v, mid) before outcome, second v array mid r after rest]
    rfl

theorem quiet_of_pure {s : Scan α} {outcome : Bytes → Nat → Except Failure (α × Nat)}
    (h : ∀ array pos, s.runFrom array pos = pure (outcome array pos)) : s.Quiet := by
  intro array pos r events outcome_eq
  rw [h] at outcome_eq
  exact (congrArg Logged.events outcome_eq).symm

theorem quiet_pure (v : α) : (pure v : Scan α).Quiet := quiet_of_pure fun _ _ => rfl

theorem quiet_get : (get : Scan Nat).Quiet := quiet_of_pure fun _ _ => rfl

theorem quiet_tag : tag.Quiet := by
  intro array pos r events h
  rw [runFrom_tag] at h
  cases here : array[pos]? with
  | none =>
    rw [here] at h
    cases h
  | some code =>
    rw [here] at h
    dsimp only at h
    cases known : Tag.ofCode? code with
    | none =>
      rw [known] at h
      cases h
    | some g =>
      rw [known] at h
      exact (congrArg Logged.events h).symm

theorem quiet_drain (g : Tag) : (drain g).Quiet := by
  refine quiet_get.bind fun start => ?_
  have behind : (do let pos ← get; pure (pos - start) : Scan Nat).Quiet :=
    quiet_get.bind fun _ => quiet_pure _
  cases layout : g.layout with
  | fixed size => exact (quiet_of_pure (runFrom_advance size)).bind fun _ => behind
  | counted c =>
    refine (quiet_of_pure (runFrom_number c.width)).bind fun n => ?_
    exact (quiet_of_pure (runFrom_advance n)).bind fun _ => behind

theorem quiet_skip : skip.Quiet :=
  quiet_tag.bind fun g => (quiet_drain g).bind fun _ => quiet_pure g

end Scan
end WireCodec
