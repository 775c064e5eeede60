import WireCodec.Proofs.Base128
import WireCodec.Proofs.Stream.Offering
import WireCodec.Proofs.Words
import WireCodec.Slice

/-!
# Writing through a scratch buffer

A machine has no fresh buffer for each value. It stores the value into the front of one small
buffer, which is never cleared, and offers that much of it. Whatever the buffer was left with by
earlier values, such a writer does what the stream writer does: it returns the same, reports the
same, keeps the same failure and makes the same calls of its sink.
-/

set_option autoImplicit false

namespace WireCodec

structure ScratchWriter where
  writer : StreamWriter
  scratch : Bytes

/-- The scratch buffer holds the longest number in base 128. -/
def ScratchWriter.over (sink : Sink) (strict : Bool) : ScratchWriter :=
  ⟨.over sink strict, List.replicate Leb128.maxBytes 0⟩

namespace ScratchWriter

open StreamWriter (Command Reply)

abbrev Op (α : Type) := StateT ScratchWriter (ExceptT Misuse Logged) α

def runOn {α : Type} (a : Op α) (s : ScratchWriter) : Logged (Except Misuse (α × ScratchWriter)) :=
  ExceptT.run (StateT.run a s)

def misuse {α : Type} (m : Misuse) : Op α := StateT.lift (throw m)

/-- What leaves the scratch buffer alone. -/
def plain {α : Type} (x : Action StreamWriter α) : Op α := fun s =>
  ExceptT.lift ((fun r => (r.1, { s with writer := r.2 })) <$> x.run s.writer)

/-- Changes the scratch buffer, unless that is a misuse of it. -/
def scribble (change : Bytes → Except Misuse Bytes) : Op Unit := do
  let s ← get
  match change s.scratch with
  | .error m => misuse m
  | .ok scratch => set { s with scratch }

def send (n : Nat) : Op Unit := do
  let s ← get
  match s.scratch.leading n with
  | .error m => misuse m
  | .ok front =>
    let _ ← plain (StreamWriter.offer front)

def putUInt (o : Order) (w : Width) (v : UInt64) : Op Unit := do
  scribble fun scratch => o.putUInt scratch w.bytes v
  send w.bytes

def storeWord (o : Order) (scratch : Bytes) : Word → Except Misuse Bytes
  | .u8 v => scratch.stamp [v]
  | .u16 v => o.putU16 scratch v
  | .u24 v => o.putU24 scratch v
  | .u32 v => o.putU32 scratch v
  | .u40 v => o.putU40 scratch v
  | .u48 v => o.putU48 scratch v
  | .u56 v => o.putU56 scratch v
  | .u64 v => o.putU64 scratch v
  | .i8 v => scratch.stamp [v.toUInt8]
  | .i16 v => o.putU16 scratch v.toUInt16
  | .i24 v => o.putU24 scratch v.toUInt32
  | .i32 v => o.putU32 scratch v.toUInt32
  | .i40 v => o.putU40 scratch v.toUInt64
  | .i48 v => o.putU48 scratch v.toUInt64
  | .i56 v => o.putU56 scratch v.toUInt64
  | .i64 v => o.putU64 scratch v.toUInt64

def putWord (o : Order) (w : Word) : Op Unit := do
  scribble fun scratch => storeWord o scratch w
  send w.format.width.bytes

def putBase128 (v : UInt64) : Op Unit := do
  let s ← get
  let (n, scratch) := Leb128.put s.scratch v
  set { s with scratch }
  send n

def putLength (o : Order) (f : LengthField) (n : Nat) : Op Unit :=
  match f.width? with
  | some w => putUInt o w (UInt64.ofNat n)
  | none => putBase128 (UInt64.ofNat n)

/-- A payload behind its length. A blocked writer does not even look at the length. -/
def putCounted (o : Order) (f : LengthField) (payload : Bytes) : Op Unit := do
  let s ← get
  if s.writer.slot.blocked then pure ()
  else if f.maxLength < payload.length then
    plain (StreamWriter.note (.integerOverflow payload.length f.maxLength))
  else
    putLength o f payload.length
    let _ ← plain (StreamWriter.offer payload)

def put : Item Order → Op Reply
  | .bytes b => do
    let n ← plain (StreamWriter.offer b)
    pure (.count n)
  | .word o w => do
    putWord o w
    pure .done
  | .bool v => do
    putWord .standard (.u8 (if v then 1 else 0))
    pure .done
  | .uint o w v => do
    putUInt o w v
    pure .done
  | .int o w v => do
    putUInt o w v.toUInt64
    pure .done
  | .uvarint v => do
    putBase128 v
    pure .done
  | .varint v => do
    putBase128 (Zigzag.toUnsigned v)
    pure .done
  | .float32 o p => do
    putWord o (.u32 p)
    pure .done
  | .float64 o p => do
    putWord o (.u64 p)
    pure .done
  | .complex64 o re im => do
    putWord o (.u32 re)
    putWord o (.u32 im)
    pure .done
  | .complex128 o re im => do
    putWord o (.u64 re)
    putWord o (.u64 im)
    pure .done
  | .blob o f b => do
    putCounted o f b
    pure .done
  | .text o f t => do
    putCounted o f (Utf8.encode t)
    pure .done

/-- Carries out a command; those that write no value do not need the scratch buffer. -/
def perform : Command → Op Reply
  | .put i => put i
  | c => plain (StreamWriter.perform c)

/-! ## The scratch buffer does not show -/

variable {α β : Type}

theorem runOn_bind_eq (a : Op α) (k : α → Op β) (s : ScratchWriter) : runOn (a >>= k) s =
    match runOn a s with
    | ⟨.ok (v, mid), events⟩ => ⟨(runOn (k v) mid).value, events ++ (runOn (k v) mid).events⟩
    | ⟨.error m, events⟩ => ⟨.error m, events⟩ := by
  unfold runOn
  rw [StateT.run_bind, ExceptT.run_bind]
  rcases (StateT.run a s).run with ⟨outcome, events⟩
  cases outcome with
  | error m => exact Logged.ext rfl (List.append_nil events)
  | ok r => rfl

theorem runOn_bind {a : Op α} {s mid : ScratchWriter} {v : α} (h : runOn a s = pure (.ok (v, mid)))
    (k : α → Op β) :
    runOn (a >>= k) s = runOn (k v) mid := by
  rw [runOn_bind_eq, h]
  rfl

theorem runOn_get (s : ScratchWriter) : runOn (get : Op ScratchWriter) s = pure (.ok (s, s)) := rfl

theorem runOn_plain (x : Action StreamWriter α) (s : ScratchWriter) : runOn (plain x) s =
    ⟨.ok ((x.run s.writer).value.1, { s with writer := (x.run s.writer).value.2 }),
      (x.run s.writer).events⟩ := by
  refine Logged.ext rfl ?_
  simp [runOn, plain, StateT.run, ExceptT.run_lift]

/-- With whatever in the scratch buffer, the operation does what the action does. -/
def Shadows (x : Action StreamWriter α) (a : Op α) : Prop :=
  ∀ (w : StreamWriter) (scratch : Bytes), scratch.length = Leb128.maxBytes →
    ∃ scratch' : Bytes, scratch'.length = Leb128.maxBytes ∧
      runOn a ⟨w, scratch⟩ =
        ⟨.ok ((x.run w).value.1, ⟨(x.run w).value.2, scratch'⟩), (x.run w).events⟩

theorem shadows_plain (x : Action StreamWriter α) : Shadows x (plain x) :=
  fun w scratch room => ⟨scratch, room, runOn_plain x ⟨w, scratch⟩⟩

theorem Shadows.bind {x : Action StreamWriter α} {a : Op α} {f : α → Action StreamWriter β}
    {k : α → Op β}
    (first : Shadows x a) (second : ∀ v, Shadows (f v) (k v)) : Shadows (x >>= f) (a >>= k) := by
  intro w scratch room
  obtain ⟨middle, room', ran⟩ := first w scratch room
  obtain ⟨last, room'', ran'⟩ := second (x.run w).value.1 (x.run w).value.2 middle room'
  refine ⟨last, room'', ?_⟩
  rw [runOn_bind_eq, ran]
  dsimp only
  rw [ran']
  rfl

theorem shadows_pure (v : α) : Shadows (pure v) (pure v) :=
  fun _ scratch room => ⟨scratch, room, rfl⟩

theorem runOn_send {b scratch : Bytes} (fits : b.length ≤ scratch.length) (w : StreamWriter) :
    runOn (send b.length) ⟨w, scratch.overlay 0 b⟩ =
      runOn (plain (do let _ ← StreamWriter.offer b)) ⟨w, scratch.overlay 0 b⟩ := by
  have same := scratch.length_overlay 0 b (by omega)
  have front : (scratch.overlay 0 b).take b.length = b := by rw [Bytes.overlay_zero, List.take_left]
  have inside : b.length ≤ (scratch.overlay 0 b).length := by omega
  rw [send, runOn_bind (runOn_get _), Bytes.leading, if_pos inside, front]
  rfl

theorem shadows_stored {b : Bytes} {width : Width} (size : b.length = width.bytes)
    {change : Bytes → Except Misuse Bytes} (stores : ∀ scratch, change scratch = scratch.stamp b) :
    Shadows (do let _ ← StreamWriter.offer b) (do scribble change; send width.bytes) := by
  intro w scratch room
  have short : b.length ≤ Leb128.maxBytes := size.trans_le (Nat.le_trans width.bytes_le (by decide))
  have fits : b.length ≤ scratch.length := short.trans_eq room.symm
  have stored : runOn (scribble change) ⟨w, scratch⟩ =
      pure (.ok ((), ⟨w, scratch.overlay 0 b⟩)) := by
    rw [scribble, runOn_bind (runOn_get _)]
    simp only [stores, Bytes.stamp, if_pos fits]
    rfl
  refine ⟨scratch.overlay 0 b, (scratch.length_overlay 0 b (by omega)).trans room, ?_⟩
  rw [runOn_bind stored, ← size, runOn_send fits]
  exact runOn_plain _ _

theorem storeWord_eq_stamp (o : Order) (w : Word) (scratch : Bytes) :
    storeWord o scratch w = scratch.stamp (w.encode o) := by
  cases w <;> rfl

theorem shadows_putWord (o : Order) (w : Word) :
    Shadows (do let _ ← StreamWriter.offer (w.encode o)) (putWord o w) := by
  have size : (w.encode o).length = w.format.width.bytes := by
    rw [Word.encode_eq_digits, Order.length_digits]
  exact shadows_stored size (storeWord_eq_stamp o w)

theorem shadows_putUInt (o : Order) (w : Width) (v : UInt64) :
    Shadows (do let _ ← StreamWriter.offer (o.digits w.bytes v.toNat)) (putUInt o w v) := by
  have stores (scratch : Bytes) :
      o.putUInt scratch w.bytes v = scratch.stamp (o.digits w.bytes v.toNat) := by
    rw [Order.putUInt, Width.ofBytes, w.ofBytes?_bytes]
    rfl
  exact shadows_stored (o.length_digits w.bytes v.toNat) stores

theorem shadows_putBase128 (v : UInt64) :
    Shadows (do let _ ← StreamWriter.offer (Leb128.encode v.toNat)) (putBase128 v) := by
  have short := Leb128.length_encode_toNat v
  intro w scratch room
  have fits : (Leb128.encode v.toNat).length ≤ scratch.length := by omega
  refine ⟨scratch.overlay 0 (Leb128.encode v.toNat),
    (scratch.length_overlay 0 _ (by omega)).trans room, ?_⟩
  have sent := runOn_send fits w
  rw [runOn_plain] at sent
  exact sent

theorem shadows_map {x : Action StreamWriter α} {a : Op α} (h : Shadows x a) (g : α → β) :
    Shadows (do let v ← x; pure (g v)) (do let v ← a; pure (g v)) :=
  h.bind fun v => shadows_pure (g v)

/-! ## Items and commands -/

theorem put_of_single {i : Item Order} {b : Bytes} (encoded : i.buffers = .ok [b]) :
    StreamWriter.put i = StreamWriter.offer b := by
  simp [StreamWriter.put_eq_offerAll encoded, StreamWriter.offerAll]

theorem put_of_double {i : Item Order} {b c : Bytes} (encoded : i.buffers = .ok [b, c]) :
    StreamWriter.put i = (do
    let n ← StreamWriter.offer b
    let m ← StreamWriter.offer c
    pure (n + m)) := by
  simp [StreamWriter.put_eq_offerAll encoded, StreamWriter.offerAll]

theorem shadows_single {i : Item Order} {b : Bytes} {a : Op Unit} (encoded : i.buffers = .ok [b])
    (silent : ∀ n, StreamWriter.putReply i n = .done)
    (h : Shadows (do let _ ← StreamWriter.offer b) a) :
    Shadows (StreamWriter.perform (.put i)) (do a; pure .done) := by
  have both := h.bind fun _ => shadows_pure Reply.done
  rw [StreamWriter.perform, put_of_single encoded]
  simp only [bind_assoc, pure_bind] at both
  simp only [silent]
  exact both

theorem shadows_double {i : Item Order} {b c : Bytes} {a a' : Op Unit}
    (encoded : i.buffers = .ok [b, c]) (silent : ∀ n, StreamWriter.putReply i n = .done)
    (h : Shadows (do let _ ← StreamWriter.offer b) a)
    (h' : Shadows (do let _ ← StreamWriter.offer c) a') :
    Shadows (StreamWriter.perform (.put i)) (do a; a'; pure .done) := by
  have both := h.bind fun _ => h'.bind fun _ => shadows_pure Reply.done
  rw [StreamWriter.perform, put_of_double encoded]
  simp only [bind_assoc, pure_bind] at both ⊢
  simp only [silent]
  exact both

theorem shadows_putLength (o : Order) {f : LengthField} {n : Nat} (fits : n ≤ f.maxLength) :
    Shadows (do let _ ← StreamWriter.offer (f.encode o n)) (putLength o f n) := by
  have most : f.maxLength < UInt64.size := by cases f <;> decide
  have number : (UInt64.ofNat n).toNat = n := UInt64.toNat_ofNat_of_lt' (by omega)
  unfold LengthField.encode putLength
  cases f.width? with
  | some w =>
    have field := shadows_putUInt o w (UInt64.ofNat n)
    rwa [number] at field
  | none =>
    have field := shadows_putBase128 (UInt64.ofNat n)
    rwa [number] at field

theorem shadows_counted {i : Item Order} {o : Order} {f : LengthField} {b : Bytes}
    (encoded : i.buffers = Item.counted o f b) (silent : ∀ n, StreamWriter.putReply i n = .done) :
    Shadows (StreamWriter.perform (.put i)) (do putCounted o f b; pure .done) := by
  intro w scratch room
  unfold Item.counted at encoded
  rw [putCounted, bind_assoc, runOn_bind (runOn_get _)]
  by_cases blocked : w.slot.blocked = true
  · have skipped : (StreamWriter.perform (.put i)).run w = pure (.done, w) := by
      simp [StreamWriter.perform, StreamWriter.put, StateT.run_bind, blocked, silent]
    rw [if_pos blocked, skipped]
    exact ⟨scratch, room, rfl⟩
  · by_cases great : f.maxLength < b.length
    · rw [if_pos great] at encoded
      have noted : (StreamWriter.perform (.put i)).run w =
          (do StreamWriter.note (.integerOverflow b.length f.maxLength); pure .done : Action
            StreamWriter Reply).run w := by
        simp [StreamWriter.perform, StreamWriter.put, StateT.run_bind, blocked, encoded, silent]
      rw [if_neg blocked, if_pos great, noted]
      exact shadows_map (shadows_plain _) (fun _ => Reply.done) w scratch room
    · rw [if_neg great] at encoded
      rw [if_neg blocked, if_neg great]
      have whole := shadows_double encoded silent (shadows_putLength o (Nat.le_of_not_lt great))
        (shadows_map (shadows_plain (StreamWriter.offer b)) fun _ => ())
      simp only [bind_assoc] at whole ⊢
      exact whole w scratch room

theorem shadows_put (i : Item Order) : Shadows (StreamWriter.perform (.put i)) (put i) := by
  cases i with
  | bytes b =>
    rw [StreamWriter.perform, put_of_single rfl]
    exact shadows_map (shadows_plain _) _
  | word o w => exact shadows_single rfl (fun _ => rfl) (shadows_putWord o w)
  | bool v =>
    exact shadows_single rfl (fun _ => rfl) (shadows_putWord .standard (.u8 (if v then 1 else 0)))
  | uint o w v => exact shadows_single rfl (fun _ => rfl) (shadows_putUInt o w v)
  | int o w v => exact shadows_single rfl (fun _ => rfl) (shadows_putUInt o w v.toUInt64)
  | uvarint v => exact shadows_single rfl (fun _ => rfl) (shadows_putBase128 v)
  | varint v => exact shadows_single rfl (fun _ => rfl) (shadows_putBase128 (Zigzag.toUnsigned v))
  | float32 o p => exact shadows_single rfl (fun _ => rfl) (shadows_putWord o (.u32 p))
  | float64 o p => exact shadows_single rfl (fun _ => rfl) (shadows_putWord o (.u64 p))
  | complex64 o re im =>
    exact shadows_double rfl (fun _ => rfl) (shadows_putWord o (.u32 re))
      (shadows_putWord o (.u32 im))
  | complex128 o re im =>
    exact shadows_double rfl (fun _ => rfl) (shadows_putWord o (.u64 re))
      (shadows_putWord o (.u64 im))
  | blob o f b => exact shadows_counted rfl fun _ => rfl
  | text o f t => exact shadows_counted rfl fun _ => rfl

theorem shadows_perform (c : Command) : Shadows (StreamWriter.perform c) (perform c) := by
  cases c with
  | put i => exact shadows_put i
  | transfer b | flush | reset | takeError | error | debug | push b => exact shadows_plain _

end ScratchWriter

end WireCodec
