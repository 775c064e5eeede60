import WireCodec.Proofs.Numerals
import WireCodec.Proofs.Stream.Parsing
import WireCodec.Proofs.Stream.Runs
import WireCodec.Slice

/-!
# Reading through a scratch buffer

A machine has a small buffer that the bytes of a number are read into and that the number is then
loaded from. The buffer is never cleared, and a read that fails leaves in it what arrived. Whatever
it holds, such a reader does what the stream reader does: it answers the same, reports the same,
keeps the same failure and leaves its source the same.
-/

set_option autoImplicit false

namespace WireCodec

namespace StreamReader

theorem misuse?_eq_some {c : Command} {r : StreamReader} {m : Misuse}
    (fault : r.misuse? c = some m) :
    ∃ n, c = .fetch (.bytes n) ∧ r.slot.blocked = false ∧ Misuse.ofLength? n = some m := by
  cases c with
  | fetch f =>
    cases f with
    | bytes n =>
      by_cases blocked : r.slot.blocked = true
      · simp [misuse?, blocked] at fault
      · exact ⟨n, rfl, Bool.eq_false_iff.mpr blocked, by simpa [misuse?, blocked] using fault⟩
    | _ => cases fault
  | _ => cases fault

end StreamReader

structure ScratchReader where
  reader : StreamReader
  scratch : Bytes

/-- The scratch buffer holds the widest number. -/
def ScratchReader.scratchBytes : Nat := 8

def ScratchReader.over (source : Source) (strict : Bool) : ScratchReader :=
  ⟨.over source strict, List.replicate scratchBytes 0⟩

namespace ScratchReader

open StreamReader (Command Reply Sight)

abbrev Op (α : Type) := StateT Bytes (ExceptT Misuse (Action StreamReader)) α

variable {α β : Type}

/-- Reads into the first `n` bytes of the scratch buffer; whether they all arrived. -/
def fillScratch (n : Nat) : Op Bool := do
  let r ← getThe StreamReader
  if r.slot.blocked then pure false
  else
    let scratch ← get
    if scratch.length < n then throw .shortSlice
    else
      let d ← StreamReader.draw n
      set (scratch.overlay 0 d.bytes)
      pure d.complete

def load (g : Bytes → Except Misuse α) : Op α := do
  let scratch ← get
  match g scratch with
  | .error m => throw m
  | .ok v => pure v

def firstByte (scratch : Bytes) : Except Misuse UInt8 :=
  match scratch with
  | [] => .error .shortSlice
  | b :: _ => .ok b

/-- The word in front of the scratch buffer. Signed words are made from unsigned ones. -/
def loadWord (o : Order) (f : IntFormat) (scratch : Bytes) : Except Misuse Word :=
  match f.signed, f.width with
  | false, .b8 => (firstByte scratch).map .u8
  | false, .b16 => (o.getU16 scratch).map .u16
  | false, .b24 => (o.getU24 scratch).map .u24
  | false, .b32 => (o.getU32 scratch).map .u32
  | false, .b40 => (o.getU40 scratch).map .u40
  | false, .b48 => (o.getU48 scratch).map .u48
  | false, .b56 => (o.getU56 scratch).map .u56
  | false, .b64 => (o.getU64 scratch).map .u64
  | true, .b8 => (firstByte scratch).map fun v => .i8 v.toInt8
  | true, .b16 => (o.getU16 scratch).map fun v => .i16 v.toInt16
  | true, .b24 => (o.getU24 scratch).map fun v => .i24 (Int32.ofInt (Width.b24.toSigned v.toNat))
  | true, .b32 => (o.getU32 scratch).map fun v => .i32 v.toInt32
  | true, .b40 => (o.getU40 scratch).map fun v => .i40 (Int64.ofInt (Width.b40.toSigned v.toNat))
  | true, .b48 => (o.getU48 scratch).map fun v => .i48 (Int64.ofInt (Width.b48.toSigned v.toNat))
  | true, .b56 => (o.getU56 scratch).map fun v => .i56 (Int64.ofInt (Width.b56.toSigned v.toNat))
  | true, .b64 => (o.getU64 scratch).map fun v => .i64 v.toInt64

def fetchWord (o : Order) (f : IntFormat) : Op Word := do
  if ← fillScratch f.width.bytes then load (loadWord o f) else pure (f.word 0)

def fetchBool : Op Bool := do
  if ← fillScratch 1 then load fun scratch => (firstByte scratch).map fun b => b != 0
  else pure false

def byte? : Op (Option UInt8) := do
  if ← fillScratch 1 then load fun scratch => (firstByte scratch).map some else pure none

def uint? (o : Order) (w : Width) : Op (Option Nat) := do
  if ← fillScratch w.bytes then
    load fun scratch => (o.getUInt scratch w.bytes).map fun v => some v.toNat
  else pure none

def pattern32 (o : Order) : Op UInt32 := do
  if ← fillScratch 4 then load o.getU32 else pure 0

def pattern64 (o : Order) : Op UInt64 := do
  if ← fillScratch 8 then load o.getU64 else pure 0

def base128From? : Nat → Leb128.Accumulator → Op (Option Nat)
  | 0, _ => pure none
  | fuel + 1, a => do
    match ← byte? with
    | none => pure none
    | some b =>
      match a.feed b with
      | .done v => pure (some v)
      | .more a' => base128From? fuel a'
      | .overflow =>
        StreamReader.note .varintOverflow
        pure none

def base128? : Op (Option Nat) := base128From? Leb128.maxBytes .start

def length? (o : Order) (f : LengthField) : Op (Option Nat) :=
  match f.width? with
  | some w => uint? o w
  | none => base128?

def payload? (o : Order) (f : LengthField) : Op (Option Bytes) := do
  let r ← getThe StreamReader
  if r.slot.blocked then pure none
  else
    match ← length? o f with
    | none => pure none
    | some n =>
      if maxLength < n then
        StreamReader.note (.lengthTooLarge n maxLength)
        pure none
      else StreamReader.exactly? n

/-- A buffer for the bytes is made before they are read, and not at all if the reader is blocked. -/
def fetchBytes (n : Nat) : Op Bytes := do
  let r ← getThe StreamReader
  if r.slot.blocked then pure []
  else
    match Misuse.ofLength? n with
    | some m => throw m
    | none =>
      let d ← StreamReader.draw n
      pure d.bytes

def fetch : Field Order → Op Value
  | .bytes n => do
    let b ← fetchBytes n
    pure (.bytes b)
  | .fill dst => do
    let d ← StreamReader.draw dst.length
    pure (.filled d.bytes.length (dst.overlay 0 d.bytes))
  | .word o f => do
    let w ← fetchWord o f
    pure (.int w.toInt)
  | .bool => do
    let v ← fetchBool
    pure (.bool v)
  | .uint o w => do
    let n ← uint? o w
    pure (.int (n.getD 0))
  | .int o w => do
    let n ← uint? o w
    pure (.int (w.toSigned (n.getD 0)))
  | .uvarint => do
    let n ← base128?
    pure (.int (n.getD 0))
  | .varint => do
    let n ← base128?
    pure (.int ((n.map fun n => (Zigzag.toSigned (UInt64.ofNat n)).toInt).getD 0))
  | .float32 o => do
    let p ← pattern32 o
    pure (.float32 p)
  | .float64 o => do
    let p ← pattern64 o
    pure (.float64 p)
  | .complex64 o => do
    let re ← pattern32 o
    let im ← pattern32 o
    pure (.complex64 re im)
  | .complex128 o => do
    let re ← pattern64 o
    let im ← pattern64 o
    pure (.complex128 re im)
  | .blob o f => do
    let b ← payload? o f
    pure (.bytes (b.getD []))
  | .text o f => do
    match ← payload? o f with
    | none => pure (.text "")
    | some b =>
      match Utf8.decode? b with
      | some s => pure (.text s)
      | none =>
        StreamReader.note .invalidUtf8
        pure (.text "")
  | .lossyText o f => do
    let b ← payload? o f
    pure (.text (Utf8.decodeLossy (b.getD [])))

def perform : Command → Op Reply
  | .fetch f => do
    let v ← fetch f
    pure (.value v)
  | c => StreamReader.perform c

def runOn (a : Op α) (s : ScratchReader) : Logged (Except Misuse (α × Bytes) × StreamReader) :=
  StateT.run (ExceptT.run (StateT.run a s.scratch)) s.reader

def step (c : Command) (s : ScratchReader) : Except Misuse (Logged (Reply × ScratchReader)) :=
  match runOn (perform c) s with
  | ⟨(.error m, _), _⟩ => .error m
  | ⟨(.ok (reply, scratch), r), events⟩ => .ok ⟨(reply, ⟨r, scratch⟩), events⟩

/-! ## The scratch buffer does not show -/

theorem runOn_bind_eq (a : Op α) (k : α → Op β) (s : ScratchReader) : runOn (a >>= k) s =
    match runOn a s with
    | ⟨(.ok (v, scratch), r), events⟩ =>
      ⟨(runOn (k v) ⟨r, scratch⟩).value, events ++ (runOn (k v) ⟨r, scratch⟩).events⟩
    | ⟨(.error m, r), events⟩ => ⟨(.error m, r), events⟩ := by
  unfold runOn
  rw [StateT.run_bind, ExceptT.run_bind, StateT.run_bind]
  rcases StateT.run (ExceptT.run (StateT.run a s.scratch)) s.reader with ⟨⟨outcome, r⟩, events⟩
  cases outcome with
  | error m => exact Logged.ext rfl (List.append_nil events)
  | ok v => rfl

theorem runOn_lift (x : Action StreamReader α) (s : ScratchReader) : runOn (x : Op α) s =
    ⟨(.ok ((x.run s.reader).value.1, s.scratch), (x.run s.reader).value.2),
      (x.run s.reader).events⟩ := by
  refine Logged.ext rfl ?_
  simp [runOn]

theorem runOn_getReader (s : ScratchReader) :
    runOn (getThe StreamReader) s = pure (.ok (s.reader, s.scratch), s.reader) :=
  rfl

theorem runOn_bind {a : Op α} {s : ScratchReader} {v : α} {scratch : Bytes} {r : StreamReader}
    (h : runOn a s = pure (.ok (v, scratch), r)) (k : α → Op β) :
    runOn (a >>= k) s = runOn (k v) ⟨r, scratch⟩ := by
  rw [runOn_bind_eq, h]
  rfl

/-- With whatever in the scratch buffer, the operation does what the action does. -/
def Shadows (x : Action StreamReader α) (a : Op α) : Prop :=
  ∀ (r : StreamReader) (scratch : Bytes), scratch.length = scratchBytes →
    ∃ scratch' : Bytes, scratch'.length = scratchBytes ∧
      runOn a ⟨r, scratch⟩ =
        ⟨(.ok ((x.run r).value.1, scratch'), (x.run r).value.2), (x.run r).events⟩

theorem shadows_lift (x : Action StreamReader α) : Shadows x x :=
  fun r scratch room => ⟨scratch, room, runOn_lift x ⟨r, scratch⟩⟩

theorem shadows_pure (v : α) : Shadows (pure v) (pure v) :=
  fun _ scratch room => ⟨scratch, room, rfl⟩

theorem Shadows.bind {x : Action StreamReader α} {a : Op α} {f : α → Action StreamReader β}
    {k : α → Op β}
    (first : Shadows x a) (second : ∀ v, Shadows (f v) (k v)) : Shadows (x >>= f) (a >>= k) := by
  intro r scratch room
  obtain ⟨middle, room', ran⟩ := first r scratch room
  obtain ⟨last, room'', ran'⟩ := second (x.run r).value.1 (x.run r).value.2 middle room'
  refine ⟨last, room'', ?_⟩
  rw [runOn_bind_eq, ran]
  dsimp only
  rw [ran']
  rfl

theorem Shadows.map {x : Action StreamReader α} {a : Op α} (h : Shadows x a) (g : α → β) :
    Shadows (do let v ← x; pure (g v)) (do let v ← a; pure (g v)) :=
  h.bind fun v => shadows_pure (g v)

/-! ## Numbers -/

theorem fillScratch_blocked {r : StreamReader} (blocked : r.slot.blocked = true) (n : Nat)
    (scratch : Bytes) :
    runOn (fillScratch n) ⟨r, scratch⟩ = pure (.ok (false, scratch), r) := by
  rw [fillScratch, runOn_bind (runOn_getReader _), if_pos blocked]
  rfl

theorem fillScratch_unblocked {r r' : StreamReader} {scratch : Bytes} {n : Nat}
    {d : StreamReader.Drawn}
    {events : List Event} (unblocked : r.slot.blocked = false) (fits : n ≤ scratch.length)
    (drawn : (StreamReader.draw n).run r = ⟨(d, r'), events⟩) :
    runOn (fillScratch n) ⟨r, scratch⟩ =
      ⟨(.ok (d.complete, scratch.overlay 0 d.bytes), r'), events⟩ := by
  have inside : ¬ scratch.length < n := Nat.not_lt.mpr fits
  have got : runOn (get : Op Bytes) ⟨r, scratch⟩ = pure (.ok (scratch, scratch), r) := rfl
  rw [fillScratch, runOn_bind (runOn_getReader _)]
  simp only [unblocked, Bool.false_eq_true, ite_false]
  rw [runOn_bind got, if_neg inside, runOn_bind_eq, runOn_lift, drawn]
  exact Logged.ext rfl (List.append_nil _)

theorem runOn_load {g : Bytes → Except Misuse α} {s : ScratchReader} {v : α}
    (loaded : g s.scratch = .ok v) :
    runOn (load g) s = pure (.ok (v, s.scratch), s.reader) := by
  have got : runOn (get : Op Bytes) s = pure (.ok (s.scratch, s.scratch), s.reader) := rfl
  rw [load, runOn_bind got, loaded]
  rfl

theorem shadows_loaded {n : Nat} (small : n ≤ scratchBytes) {g : Bytes → Except Misuse α}
    {h : Bytes → α} {missing : α}
    (loads : ∀ scratch b : Bytes, b.length = n → n ≤ scratch.length →
      g (scratch.overlay 0 b) = .ok (h b)) :
    Shadows (do let b ← StreamReader.exactly? n; pure ((b.map h).getD missing))
      (do if ← fillScratch n then load g else pure missing) := by
  intro r scratch room
  have fits : n ≤ scratch.length := small.trans_eq room.symm
  rw [StreamReader.exactly_eq]
  by_cases blocked : r.slot.blocked = true
  · rw [StreamReader.run_bind_of (StreamReader.attempt_blocked blocked _), runOn_bind_eq,
      fillScratch_blocked blocked]
    exact ⟨scratch, room, rfl⟩
  · have unblocked : r.slot.blocked = false := Bool.eq_false_iff.mpr blocked
    cases taken : (Parse.take n).runOn r.source with
    | mk outcome last =>
      cases outcome with
      | ok b =>
        have size := Parse.length_of_take taken
        have filled := fillScratch_unblocked unblocked fits (StreamReader.draw_ok unblocked taken)
        have loaded :=
          runOn_load (s := ⟨⟨r.slot, last⟩, scratch.overlay 0 b⟩) (loads scratch b size fits)
        rw [StreamReader.run_bind_of (StreamReader.attempt_ok unblocked taken),
          runOn_bind_eq, filled]
        dsimp only
        rw [if_pos rfl, loaded]
        exact ⟨scratch.overlay 0 b, (scratch.length_overlay 0 b (by omega)).trans room, rfl⟩
      | error e =>
        have size := Source.length_pulled_le r.source.segments n
        have filled :=
          fillScratch_unblocked unblocked fits (StreamReader.draw_error unblocked taken)
        rw [StreamReader.run_bind_of (StreamReader.attempt_error unblocked taken),
          runOn_bind_eq, filled]
        refine ⟨_, (scratch.length_overlay 0 _ ?_).trans room, rfl⟩
        exact (Nat.zero_add _).trans_le (size.trans fits)

theorem leading_overlay {scratch b : Bytes} {n : Nat} (size : b.length = n)
    (fits : n ≤ scratch.length) :
    (scratch.overlay 0 b).leading n = .ok b := by
  have same := scratch.length_overlay 0 b (by omega)
  rw [Bytes.leading, if_pos (by omega), Bytes.overlay_zero, List.take_left' size]

theorem getUInt_overlay (o : Order) (w : Width) {scratch b : Bytes} (size : b.length = w.bytes)
    (fits : w.bytes ≤ scratch.length) :
    o.getUInt (scratch.overlay 0 b) w.bytes = .ok (UInt64.ofNat (o.value b)) := by
  rw [Order.getUInt, Width.ofBytes, w.ofBytes?_bytes]
  change ((scratch.overlay 0 b).leading w.bytes >>= _) = _
  rw [leading_overlay size fits]
  rfl

theorem loadWord_overlay (o : Order) (f : IntFormat) {scratch b : Bytes}
    (size : b.length = f.width.bytes) (fits : f.width.bytes ≤ scratch.length) :
    loadWord o f (scratch.overlay 0 b) = .ok (f.word (o.value b)) := by
  have front := leading_overlay size fits
  have small := o.value_lt b
  rw [size] at small
  obtain ⟨signed, width⟩ := f
  -- Of the signed words only those narrower than the word they are held in need to know that no
  -- digit is lost.
  cases width <;> simp only [Width.bytes] at size front small
  case b8 =>
    obtain ⟨x, rfl⟩ := List.length_eq_one_iff.mp size
    cases signed <;> simp [loadWord, firstByte, Bytes.overlay, Except.map, IntFormat.word,
      o.value_one]
  case b16 => cases signed <;> simp only [loadWord, Order.getU16, front] <;> rfl
  case b32 => cases signed <;> simp only [loadWord, Order.getU32, front] <;> rfl
  case b64 => cases signed <;> simp only [loadWord, Order.getU64, front] <;> rfl
  case b24 =>
    have number : (UInt32.ofNat (o.value b)).toNat = o.value b :=
      UInt32.toNat_ofNat_of_lt' (small.trans_le (by decide))
    cases signed <;> simp [loadWord, Order.getU24, front, Except.map, number, IntFormat.word]
  all_goals
    have number : (UInt64.ofNat (o.value b)).toNat = o.value b :=
      UInt64.toNat_ofNat_of_lt' (small.trans_le (by decide))
    cases signed <;>
      simp [loadWord, Order.getU40, Order.getU48, Order.getU56, front, Except.map, number,
        IntFormat.word]

theorem number_map (o : Order) (w : Width) (g : Option Nat → α) :
    (do let n ← StreamReader.number? o w; pure (g n)) =
      (do
        let b ← StreamReader.exactly? w.bytes
        pure ((b.map fun b => g (some (o.value b))).getD (g none))) := by
  rw [StreamReader.number?, bind_assoc]
  congr 1
  funext b
  cases b <;> simp only [pure_bind, Option.map_none, Option.map_some, Option.getD_none,
    Option.getD_some]

theorem shadows_number {o : Order} {w : Width} {g : Option Nat → α} {l : Bytes → Except Misuse α}
    (loads : ∀ scratch b : Bytes, b.length = w.bytes → w.bytes ≤ scratch.length →
      l (scratch.overlay 0 b) = .ok (g (some (o.value b)))) :
    Shadows (do let n ← StreamReader.number? o w; pure (g n))
      (do if ← fillScratch w.bytes then load l else pure (g none)) := by
  rw [number_map]
  exact shadows_loaded w.bytes_le loads

theorem shadows_word (o : Order) (f : IntFormat) :
    Shadows (StreamReader.word o f) (fetchWord o f) :=
  shadows_number (w := f.width) (g := fun n => f.word (n.getD 0))
    fun _ _ size fits => loadWord_overlay o f size fits

theorem shadows_pattern32 (o : Order) : Shadows (StreamReader.pattern32 o) (pattern32 o) := by
  refine shadows_number (w := .b32) (g := fun n => UInt32.ofNat (n.getD 0))
    fun scratch b size fits => ?_
  have front : (scratch.overlay 0 b).leading 4 = .ok b := leading_overlay size fits
  rw [Order.getU32, front]
  rfl

theorem shadows_pattern64 (o : Order) : Shadows (StreamReader.pattern64 o) (pattern64 o) := by
  refine shadows_number (w := .b64) (g := fun n => UInt64.ofNat (n.getD 0))
    fun scratch b size fits => ?_
  have front : (scratch.overlay 0 b).leading 8 = .ok b := leading_overlay size fits
  rw [Order.getU64, front]
  rfl

theorem shadows_uint (o : Order) (w : Width) : Shadows (StreamReader.number? o w) (uint? o w) := by
  have whole := shadows_number (o := o) (w := w) (g := id)
    (l := fun scratch => (o.getUInt scratch w.bytes).map fun v => some v.toNat)
      fun scratch b size fits => ?_
  · simp only [id, bind_pure] at whole
    exact whole
  · rw [getUInt_overlay o w size fits, Except.map, o.toNat_value (size.trans_le w.bytes_le)]
    rfl

theorem shadows_byte :
    Shadows (do let b ← StreamReader.exactly? 1; pure (b.map fun b => b.headD 0)) byte? := by
  have same (b : Option Bytes) :
      (b.map fun b => some (b.headD 0)).getD none = b.map fun b => b.headD 0 := by
    cases b <;> rfl
  have whole :
      Shadows
        (do let b ← StreamReader.exactly? 1; pure ((b.map fun b => some (b.headD 0)).getD none))
        byte? := by
    refine shadows_loaded (by decide) fun scratch b size _ => ?_
    obtain ⟨x, rfl⟩ := List.length_eq_one_iff.mp size
    rfl
  simp only [same] at whole
  exact whole

theorem shadows_bool :
    Shadows (do let n ← StreamReader.number? .standard .b8; pure (n.getD 0 != 0)) fetchBool := by
  refine shadows_number (w := .b8) (g := fun n => n.getD 0 != 0) fun scratch b size _ => ?_
  obtain ⟨x, rfl⟩ := List.length_eq_one_iff.mp size
  have zero : x = 0 ↔ x.toNat = 0 := UInt8.toNat_inj.symm
  simp [firstByte, Bytes.overlay, Except.map, Order.value_one, bne, zero]

theorem shadows_base128From (fuel : Nat) (a : Leb128.Accumulator) :
    Shadows (StreamReader.base128From? fuel a) (base128From? fuel a) := by
  induction fuel generalizing a with
  | zero => exact shadows_pure none
  | succ fuel ih =>
    have split : StreamReader.base128From? (fuel + 1) a = (do
        match ← (do let b ← StreamReader.exactly? 1; pure (b.map fun b => b.headD 0)) with
        | none => pure none
        | some b => StreamReader.digest fuel a b) := by
      rw [StreamReader.base128From_succ, bind_assoc]
      congr 1
      funext v
      cases v <;> simp only [pure_bind, Option.map_none, Option.map_some]
    rw [split, base128From?]
    refine shadows_byte.bind fun b => ?_
    cases b with
    | none => exact shadows_pure none
    | some b =>
      dsimp only [StreamReader.digest]
      cases a.feed b with
      | done v => exact shadows_pure (some v)
      | more a' => exact ih a'
      | overflow =>
        exact (shadows_lift (StreamReader.note .varintOverflow)).bind fun _ => shadows_pure none

theorem shadows_length (o : Order) (f : LengthField) :
    Shadows (StreamReader.length? o f) (length? o f) := by
  unfold StreamReader.length? length?
  cases f.width? with
  | some w => exact shadows_uint o w
  | none => exact shadows_base128From Leb128.maxBytes .start

/-! ## Fields and commands -/

theorem payload_blocked {r : StreamReader} (blocked : r.slot.blocked = true) (o : Order)
    (f : LengthField) :
    (StreamReader.payload? o f).run r = pure (none, r) := by
  rw [StreamReader.payload_eq, StreamReader.attempt_blocked blocked]

theorem shadows_payload (o : Order) (f : LengthField) :
    Shadows (StreamReader.payload? o f) (payload? o f) := by
  intro r scratch room
  rw [payload?, runOn_bind (runOn_getReader _)]
  by_cases blocked : r.slot.blocked = true
  · rw [if_pos blocked, payload_blocked blocked]
    exact ⟨scratch, room, rfl⟩
  · rw [if_neg blocked]
    refine (shadows_length o f).bind (fun n => ?_) r scratch room
    cases n with
    | none => exact shadows_pure none
    | some n =>
      dsimp only
      split
      · exact (shadows_lift (StreamReader.note (.lengthTooLarge n maxLength))).bind
          fun _ => shadows_pure none
      · exact shadows_lift (StreamReader.exactly? n)

theorem shadows_fetch {f : Field Order} (buffered : ∀ n, f ≠ .bytes n) :
    Shadows (StreamReader.fetch f) (fetch f) := by
  cases f with
  | bytes n => exact absurd rfl (buffered n)
  | fill dst => exact (shadows_lift (StreamReader.draw dst.length)).map _
  | word o f => exact (shadows_word o f).map _
  | bool =>
    have whole := shadows_bool.map Value.bool
    simp only [bind_assoc, pure_bind] at whole
    exact whole
  | uint o w => exact (shadows_uint o w).map _
  | int o w => exact (shadows_uint o w).map _
  | uvarint => exact (shadows_base128From _ _).map _
  | varint =>
    have same (n : Option Nat) : (Zigzag.toSigned (UInt64.ofNat (n.getD 0))).toInt =
        (n.map fun n => (Zigzag.toSigned (UInt64.ofNat n)).toInt).getD 0 := by
      cases n <;> rfl
    rw [StreamReader.fetch]
    simp only [same]
    exact (shadows_base128From _ _).map _
  | float32 o => exact (shadows_pattern32 o).map _
  | float64 o => exact (shadows_pattern64 o).map _
  | complex64 o => exact (shadows_pattern32 o).bind fun _ => (shadows_pattern32 o).map _
  | complex128 o => exact (shadows_pattern64 o).bind fun _ => (shadows_pattern64 o).map _
  | blob o f => exact (shadows_payload o f).map _
  | text o f =>
    refine (shadows_payload o f).bind fun b => ?_
    cases b with
    | none => exact shadows_pure _
    | some b =>
      dsimp only
      cases Utf8.decode? b with
      | some s => exact shadows_pure _
      | none => exact (shadows_lift (StreamReader.note .invalidUtf8)).bind fun _ => shadows_pure _
  | lossyText o f => exact (shadows_payload o f).map _

theorem shadows_perform {c : Command} (buffered : ∀ n, c ≠ .fetch (.bytes n)) :
    Shadows (StreamReader.perform c) (perform c) := by
  cases c with
  | fetch f => exact (shadows_fetch fun n same => buffered n (congrArg _ same)).map _
  | transfer dst | reset | takeError | error | debug | push segments => exact shadows_lift _

theorem runOn_fetchBytes {n : Nat} {r : StreamReader}
    (proper : r.misuse? (.fetch (.bytes n)) = none) (scratch : Bytes) :
    runOn (fetchBytes n) ⟨r, scratch⟩ =
      runOn (do let d ← (StreamReader.draw n : Op StreamReader.Drawn); pure d.bytes)
        ⟨r, scratch⟩ := by
  rw [fetchBytes, runOn_bind (runOn_getReader _)]
  by_cases blocked : r.slot.blocked = true
  · rw [if_pos blocked, runOn_bind_eq, runOn_lift, StreamReader.draw_blocked blocked]
    rfl
  · have short : Misuse.ofLength? n = none := by simpa [StreamReader.misuse?, blocked] using proper
    rw [if_neg blocked, short]

theorem runOn_perform {c : Command} {r : StreamReader} (proper : r.misuse? c = none)
    {scratch : Bytes}
    (room : scratch.length = scratchBytes) : ∃ scratch' : Bytes, scratch'.length = scratchBytes ∧
      runOn (perform c) ⟨r, scratch⟩ = ⟨(.ok (((StreamReader.perform c).run r).value.1, scratch'),
        ((StreamReader.perform c).run r).value.2), ((StreamReader.perform c).run r).events⟩ := by
  by_cases buffered : ∃ n, c = .fetch (.bytes n)
  · obtain ⟨n, rfl⟩ := buffered
    have drawn := ((shadows_lift (StreamReader.draw n)).map fun d => d.bytes).map
      fun b => Reply.value (.bytes b)
    have made : perform (.fetch (.bytes n)) =
        (do let b ← fetchBytes n; pure (Reply.value (.bytes b))) := by
      rw [perform, fetch, bind_assoc]
      simp only [pure_bind]
    have whole : StreamReader.perform (.fetch (.bytes n)) =
        (do let d ← StreamReader.draw n; pure (Reply.value (.bytes d.bytes))) := by
      rw [StreamReader.perform, StreamReader.fetch, bind_assoc]
      simp only [pure_bind]
    obtain ⟨scratch', room', ran⟩ := drawn r scratch room
    rw [made, whole, runOn_bind_eq, runOn_fetchBytes proper, ← runOn_bind_eq]
    simp only [bind_assoc, pure_bind] at ran ⊢
    exact ⟨scratch', room', ran⟩
  · exact shadows_perform (fun n same => buffered ⟨n, same⟩) r scratch room

theorem step_eq (c : Command) (r : StreamReader) {scratch : Bytes}
    (room : scratch.length = scratchBytes) :
    ∃ scratch' : Bytes, scratch'.length = scratchBytes ∧ step c ⟨r, scratch⟩ =
      (StreamReader.step c r).map fun x => ⟨(x.value.1, ⟨x.value.2, scratch'⟩), x.events⟩ := by
  cases fault : r.misuse? c with
  | none =>
    obtain ⟨scratch', room', ran⟩ := runOn_perform fault room
    refine ⟨scratch', room', ?_⟩
    rw [step, ran, StreamReader.step, fault]
    rfl
  | some m =>
    obtain ⟨n, rfl, unblocked, long⟩ := StreamReader.misuse?_eq_some fault
    have refused : runOn (fetchBytes n) ⟨r, scratch⟩ = pure (.error m, r) := by
      rw [fetchBytes, runOn_bind (runOn_getReader _)]
      simp only [unblocked, long]
      rfl
    refine ⟨scratch, room, ?_⟩
    rw [step, perform, runOn_bind_eq, fetch, runOn_bind_eq, refused, StreamReader.step, fault]
    rfl

/-! ## Runs -/

def run : List Command → ScratchReader → List Sight × Except Misuse ScratchReader
  | [], s => ([], .ok s)
  | c :: cs, s =>
    match step c s with
    | .error m => ([], .error m)
    | .ok ⟨(reply, s'), events⟩ =>
      let (sights, outcome) := run cs s'
      (⟨reply, events, s'.reader.slot, s'.reader.source.remaining⟩ :: sights, outcome)

theorem run_eq (cs : List Command) (r : StreamReader) {scratch : Bytes}
    (room : scratch.length = scratchBytes) :
    ∃ scratch' : Bytes, scratch'.length = scratchBytes ∧ run cs ⟨r, scratch⟩ =
      ((StreamReader.run cs r).1, (StreamReader.run cs r).2.map fun last => ⟨last, scratch'⟩) := by
  induction cs generalizing r scratch with
  | nil => exact ⟨scratch, room, rfl⟩
  | cons c cs ih =>
    obtain ⟨middle, room', stepped⟩ := step_eq c r room
    rw [run, stepped, StreamReader.run]
    cases StreamReader.step c r with
    | error m => exact ⟨scratch, room, rfl⟩
    | ok x =>
      obtain ⟨⟨reply, r'⟩, events⟩ := x
      obtain ⟨last, room'', rest⟩ := ih r' room'
      refine ⟨last, room'', ?_⟩
      dsimp only [Except.map]
      rw [rest]
      rfl

end ScratchReader

end WireCodec
