import WireCodec.Proofs.Stream.FirstFailure
import WireCodec.Proofs.Stream.KeptFailure
import WireCodec.Proofs.Stream.ScratchReader
import WireCodec.Proofs.Tape.Atomicity

/-!
# One wire format

A tape and a stream are written and read by codecs that know nothing of each other. For the same
value they still make the same bytes, behind a tag or not, and refuse the same payloads. Of the same
bytes they read the same values, and as many of them: where the one runs out of bytes, so does the
other.
-/

set_option autoImplicit false

namespace WireCodec

open Tape (Answer Command Load Reply Request)

/-- The length field of a stream that is as wide as those of a class. -/
def LengthClass.field : LengthClass → LengthField
  | .b8 => .one
  | .b16 => .two
  | .b24 => .three
  | .b32 => .four

theorem LengthClass.field_width (c : LengthClass) : c.field.width? = some c.width := by
  cases c <;> rfl

theorem LengthClass.field_maxLength (c : LengthClass) : c.field.maxLength = c.maxLength := by
  unfold LengthField.maxLength
  rw [c.field_width]
  rfl

section Little

variable {o : Order} (little : o.endianness = .little)

include little

theorem Order.digits_little : o.digits = littleDigits := by
  unfold Order.digits
  rw [little]
  rfl

theorem Order.value_little : o.value = littleValue := by
  unfold Order.value
  rw [little]
  rfl

theorem LengthClass.field_encode (c : LengthClass) (n : Nat) :
    c.field.encode o n = littleDigits c.bytes n := by
  unfold LengthField.encode
  rw [c.field_width]
  exact congrFun (congrFun (Order.digits_little little) c.bytes) n

end Little

/-! ## Writing -/

/-- A command that stores a value, the tag it puts in front, and the item that writes the same value
to a stream. -/
inductive Twins (o : Order) : Command → Bytes → Item Order → Prop
  | bytes (b : Bytes) : Twins o (.put (.bytes b)) [] (.bytes b)
  | word (w : Word) : Twins o (.put (.word w)) [] (.word o w)
  | uint (w : Width) (v : UInt64) : Twins o (.writeUInt w.bytes v) [] (.uint o w v)
  | float32 (p : UInt32) : Twins o (.put (.float32 p)) [] (.float32 o p)
  | float64 (p : UInt64) : Twins o (.put (.float64 p)) [] (.float64 o p)
  | blob (c : LengthClass) (b : Bytes) : Twins o (.put (.blob c b)) [] (.blob o c.field b)
  | taggedWord (w : Word) : Twins o (.put (.taggedWord w)) [(Tag.integer w.format).code] (.word o w)
  | integer (v : Int64) : Twins o (.put (.integer v)) [(Tag.integer (.narrowest v.toInt)).code]
      (.int o (IntFormat.narrowest v.toInt).width v)
  | taggedFloat32 (p : UInt32) : Twins o (.put (.taggedFloat32 p)) [Tag.float32.code] (.float32 o p)
  | taggedFloat64 (p : UInt64) : Twins o (.put (.taggedFloat64 p)) [Tag.float64.code] (.float64 o p)
  | complex64 (re im : UInt32) :
    Twins o (.put (.complex64 re im)) [Tag.complex64.code] (.complex64 o re im)
  | complex128 (re im : UInt64) :
    Twins o (.put (.complex128 re im)) [Tag.complex128.code] (.complex128 o re im)
  | taggedBlob (c : LengthClass) (b : Bytes) :
    Twins o (.put (.taggedBlob c b)) [(Tag.blob c).code] (.blob o c.field b)

namespace Tape

theorem step_writeUInt_bytes (w : Width) (v : UInt64) (t : Tape) :
    step (.writeUInt w.bytes v) t = step (.put (.uint w v)) t := by
  rw [step_writeUInt_eq, step_put, w.ofBytes?_bytes]
  simp only [Entry.encode, length_littleDigits]
  split <;> rfl

theorem step_put_of_ok {e : Entry} {b : Bytes} {t : Tape} (encoded : e.encode = .ok b)
    (room : b.length ≤ t.remaining) :
    step (.put e) t = .ok (pure (.done, ⟨t.bytes.overlay t.pos b, t.pos + b.length⟩)) := by
  rw [step_put, encoded]
  dsimp only
  rw [if_neg (Nat.not_lt.mpr room)]

theorem step_put_of_error {e : Entry} {f : Failure} {t : Tape} (refused : e.encode = .error f) :
    step (.put e) t = .ok (pure (.plain (.error f), t)) := by
  rw [step_put, refused]

end Tape

theorem Entry.counted_eq_buffers {o : Order} (little : o.endianness = .little) (c : LengthClass)
    (b : Bytes) :
    Entry.counted c b = (Item.counted o c.field b).map List.flatten := by
  unfold Entry.counted Item.counted
  rw [c.field_maxLength, c.field_encode little]
  split
  · rfl
  · simp [Except.map]

theorem Twins.encodes {o : Order} (little : o.endianness = .little) {c : Command} {header : Bytes}
    {i : Item Order}
    (twins : Twins o c header i) : ∃ e : Entry, (∀ t, Tape.step c t = Tape.step (.put e) t) ∧
      e.encode = i.buffers.map fun bs => header ++ bs.flatten := by
  have digits := Order.digits_little little
  have single (b : Bytes) : [b].flatten = b := List.append_nil b
  have pair (b b' : Bytes) : [b, b'].flatten = b ++ b' := congrArg (b ++ ·) (List.append_nil b')
  cases twins with
  | uint w v =>
    refine ⟨.uint w v, Tape.step_writeUInt_bytes w v, ?_⟩
    rw [Entry.encode, Item.buffers, Except.map, single, digits, List.nil_append]
  | bytes b =>
    refine ⟨_, fun _ => rfl, ?_⟩
    rw [Entry.encode, Item.buffers, Except.map, single, List.nil_append]
  | float32 p | float64 p =>
    refine ⟨_, fun _ => rfl, ?_⟩
    rw [Entry.encode, Item.buffers, Except.map, single, digits, List.nil_append]
  | word w =>
    refine ⟨_, fun _ => rfl, ?_⟩
    rw [Entry.encode, Item.buffers, Except.map, single, w.encode_eq_digits,
      w.encode_eq_digits, digits]
    rfl
  | taggedWord w =>
    refine ⟨_, fun _ => rfl, ?_⟩
    rw [Entry.encode, Item.buffers, Except.map, single, w.encode_eq_digits, digits]
    rfl
  | integer v | taggedFloat32 p | taggedFloat64 p =>
    refine ⟨_, fun _ => rfl, ?_⟩
    rw [Entry.encode, Item.buffers, Except.map, single, digits]
    rfl
  | complex64 re im =>
    -- A tape stores both parts as one number, a stream is handed one after the other.
    refine ⟨_, fun _ => rfl, ?_⟩
    have packed := Entry.littleDigits_parts re im
    rw [Entry.encode, Item.buffers, Except.map, pair, digits, ← packed]
    rfl
  | complex128 re im =>
    refine ⟨_, fun _ => rfl, ?_⟩
    rw [Entry.encode, Item.buffers, Except.map, pair, digits]
    rfl
  | blob c b =>
    refine ⟨_, fun _ => rfl, ?_⟩
    rw [Entry.encode, Entry.counted_eq_buffers little, Item.buffers]
    rfl
  | taggedBlob c b =>
    refine ⟨_, fun _ => rfl, ?_⟩
    rw [Entry.encode, Entry.counted_eq_buffers little, Item.buffers]
    cases Item.counted o c.field b <;> rfl

namespace StreamWriter

variable {slot : ErrorSlot} (clean : slot.first = none) {i : Item Order}

include clean

theorem perform_put_accepted {bs : List Bytes} (encoded : i.buffers = .ok bs)
    (calls : List SinkCall) (data : Bytes) :
    ∃ n, (perform (.put i)).run ⟨slot, { Sink.accepting with calls, data }⟩ =
      pure (putReply i n,
        ⟨slot, { Sink.accepting with
          calls := calls ++ bs.map .write, data := data ++ bs.flatten }⟩) := by
  obtain ⟨n, taken⟩ :=
    offerAll_of_feed (ErrorSlot.unblocked_of_clean clean) (Sink.feed_accepting bs calls data)
  refine ⟨n, ?_⟩
  rw [perform, put_eq_offerAll encoded, StateT.run_bind, taken]
  rfl

theorem perform_put_refused {f : Failure} (refused : i.buffers = .error f) (sink : Sink) :
    (perform (.put i)).run ⟨slot, sink⟩ =
      ⟨(putReply i 0, ⟨{ slot with first := some f }, sink⟩), [.firstFailure .writer f]⟩ := by
  have unblocked := ErrorSlot.unblocked_of_clean clean
  obtain ⟨strict, first⟩ := slot
  cases clean
  simp [perform, put, note, ErrorSlot.note, Logged.report, StateT.run_bind, unblocked, refused]
  rfl

end StreamWriter

/-! ## Reading -/

/-- The scan and the parse have come to values that are alike, with the same bytes behind them, or
each to a failure. -/
inductive Agree {α β : Type} (alike : α → β → Prop) (array : Bytes) :
    Logged (Except Failure (α × Nat)) → Except Failure β × Source → Prop
  | ok (v : α) (w : β) (q : Nat) (source : Source) (same : alike v w) (inside : q ≤ array.length)
    (smooth : source.Smooth) (rest : source.remaining = array.drop q) :
      Agree alike array (pure (.ok (v, q))) (.ok w, source)
  | error (f g : Failure) (source : Source) : Agree alike array (pure (.error f)) (.error g, source)

/-- On every smooth source of the bytes from a position on, the parse agrees with the scan from
there. -/
def Shares {α β : Type} (alike : α → β → Prop) (s : Scan α) (p : Parse β) (array : Bytes)
    (pos : Nat) : Prop :=
  ∀ source : Source, source.Smooth → source.remaining = array.drop pos →
    Agree alike array (s.runFrom array pos) (p.runOn source)

theorem Scan.length_of_bytes {n pos q : Nat} {array b : Bytes}
    (taken : (bytes n).runFrom array pos = pure (.ok (b, q))) :
    b.length = n := by
  rw [runFrom_bytes] at taken
  split at taken
  · cases taken
  · cases taken
    rw [List.length_take, List.length_drop]
    omega

theorem Bytes.announced_le (array : Bytes) (pos : Nat) (c : LengthClass) :
    array.announced pos c ≤ maxLength := by
  have lt := littleValue_lt ((array.drop pos).take c.bytes)
  have short : ((array.drop pos).take c.bytes).length ≤ 4 := by
    rw [List.length_take]
    have four : c.bytes ≤ 4 := by cases c <;> decide
    omega
  have most : 256 ^ ((array.drop pos).take c.bytes).length ≤ 256 ^ 4 :=
    Nat.pow_le_pow_right (by decide) short
  have far : 256 ^ 4 ≤ maxLength := by decide
  exact Nat.le_of_lt (lt.trans_le (most.trans far))

namespace Shares

variable {α β γ δ : Type} {alike : α → β → Prop} {alike' : γ → δ → Prop} {s : Scan α} {p : Parse β}
    {array : Bytes} {pos : Nat}

theorem of_pure (inside : pos ≤ array.length) {v : α} {w : β} (same : alike v w) :
    Shares alike (pure v) (pure w) array pos :=
  fun source smooth rest => .ok v w pos source same inside smooth rest

theorem bind {f : α → Scan γ} {k : β → Parse δ} (first : Shares alike s p array pos)
    (second : ∀ v w q, alike v w → q ≤ array.length → s.runFrom array pos = pure (.ok (v, q)) →
      Shares alike' (f v) (k w) array q) : Shares alike' (s >>= f) (p >>= k) array pos := by
  intro source smooth rest
  have ended := first source smooth rest
  rw [Scan.runFrom_bind_eq, Parse.runOn_bind_eq]
  generalize scanned : s.runFrom array pos = x at ended ⊢
  generalize p.runOn source = y at ended ⊢
  cases ended with
  | ok v w q source' same inside smooth' rest' =>
    exact second v w q same inside scanned source' smooth' rest'
  | error f g source' => exact .error f g source'

theorem map {f : α → γ} {k : β → δ} (first : Shares alike s p array pos)
    (same : ∀ v w, alike v w → alike' (f v) (k w)) :
    Shares alike' (do let v ← s; pure (f v)) (do let w ← p; pure (k w)) array pos :=
  first.bind fun v w _ both inside _ => of_pure inside (same v w both)

theorem map_right {k : β → δ} {alike' : α → δ → Prop} (first : Shares alike s p array pos)
    (same : ∀ v w q, alike v w → s.runFrom array pos = pure (.ok (v, q)) → alike' v (k w)) :
    Shares alike' s (do let w ← p; pure (k w)) array pos := by
  have whole :=
    first.bind (f := pure) fun v w q both inside scanned => of_pure inside (same v w q both scanned)
  rwa [bind_pure] at whole

theorem take (inside : pos ≤ array.length) (n : Nat) :
    Shares Eq (Scan.bytes n) (Parse.take n) array pos := by
  intro source smooth rest
  have pulled : Source.Delivers source.remaining n (source.pull n) := smooth.delivers n
  have size : source.remaining.length = array.length - pos := by rw [rest, List.length_drop]
  rw [Scan.runFrom_bytes, Parse.runOn_take, pulled.front, pulled.stop]
  by_cases short : array.length - pos < n
  · have ended : ¬ n ≤ source.remaining.length := by omega
    simp only [if_pos short, if_neg ended]
    exact .error _ _ _
  · have enough : n ≤ source.remaining.length := by omega
    simp only [if_neg short, if_pos enough]
    refine .ok _ _ (pos + n) _ (by rw [rest]) (by omega) pulled.smooth ?_
    rw [pulled.rest, rest, List.drop_drop]

theorem number {o : Order} (little : o.endianness = .little) (inside : pos ≤ array.length)
    (w : Width) :
    Shares Eq (Scan.number w) (Parse.number o w) array pos := by
  unfold Parse.number
  rw [Order.value_little little]
  exact (take inside w.bytes).map fun b b' same => congrArg littleValue same

theorem counted {o : Order} (little : o.endianness = .little) (inside : pos ≤ array.length)
    {c : LengthClass} {capacity : Nat}
    (holds : c.bytes ≤ array.length - pos → array.announced pos c ≤ capacity) :
    Shares Eq (Scan.counted c capacity) (Parse.payload o c.field) array pos := by
  have field : Parse.length o c.field = Parse.number o c.width := by
    rw [Parse.length, c.field_width]
  rw [Scan.counted, Parse.payload, field]
  refine (number little inside c.width).bind fun n n' q same inside' announced => ?_
  subst same
  rw [Scan.runFrom_number] at announced
  split at announced
  · cases announced
  · next enough =>
    cases announced
    have room := holds (Nat.le_of_not_lt enough)
    have small := array.announced_le pos c
    unfold Bytes.announced at room small
    unfold LengthClass.bytes at room small
    rw [if_neg (Nat.not_lt.mpr room), if_neg (Nat.not_lt.mpr small)]
    exact take inside' _

end Shares

/-- Whether a stream's value and a tape's reply show the same; a payload of the tape stands in front
of the destination `dst`. -/
inductive Alike (dst : Bytes) : Value → Reply → Prop
  | int (v : Int) : Alike dst (.int v) (.plain (.ok (.int v)))
  | float32 (p : UInt32) : Alike dst (.float32 p) (.plain (.ok (.float32 p)))
  | float64 (p : UInt64) : Alike dst (.float64 p) (.plain (.ok (.float64 p)))
  | bytes (b : Bytes) : Alike dst (.bytes b) (.plain (.ok (.bytes b)))
  | filled (dst' : Bytes) : Alike dst (.filled dst.length dst') (.loaded (.ok .done) dst')
  | payload (b : Bytes) : Alike dst (.bytes b) (.loaded (.ok (.count b.length)) (dst.overlay 0 b))

theorem Alike.success {dst : Bytes} {v : Value} {reply : Reply} (same : Alike dst v reply) :
    reply.failure? = none := by
  cases same <;> rfl

/-- What can be read without a tag. -/
inductive RawRead where
  | word (w : Width)
  | uint (w : Width)
  | float32
  | float64
  | bytes (n : Nat)
  | slice (dst : Bytes)
  | blob (c : LengthClass) (dst : Bytes)

namespace RawRead

def command : RawRead → Command
  | word w => .read (.word w)
  | uint w => .readUInt w.bytes
  | float32 => .read .float32
  | float64 => .read .float64
  | bytes n => .read (.bytes n)
  | slice dst => .load .slice dst
  | blob c dst => .load (.blob c) dst

def field (o : Order) : RawRead → Field Order
  | word w => .word o (.unsigned w)
  | uint w => .uint o w
  | float32 => .float32 o
  | float64 => .float64 o
  | bytes n => .bytes n
  | slice dst => .fill dst
  | blob c _ => .blob o c.field

/-- Whether the destination is large enough for the payload that is announced at the head. -/
def Holds (t : Tape) : RawRead → Prop
  | blob c dst => c.bytes ≤ t.remaining → t.bytes.announced t.pos c ≤ dst.length
  | _ => True

end RawRead

/-- The command and the parse of the field read alike and stop at the same byte, or both fail. -/
inductive Meets (c : Command) (f : Field Order) (t : Tape) (source : Source) : Prop
  | read (reply : Reply) (q : Nat) (v : Value) (source' : Source)
      (stepped : Tape.step c t = .ok (pure (reply, { t with pos := q })))
      (parsed : f.parse.runOn source = (.ok v, source'))
      (same : Alike c.destination v reply) (inside : q ≤ t.length)
      (rest : source'.remaining = t.bytes.drop q)
  | failed (reply : Reply) (e g : Failure) (source' : Source)
    (stepped : Tape.step c t = .ok (pure (reply, t)))
      (failure : reply.failure? = some e) (parsed : f.parse.runOn source = (.error g, source'))

theorem Shares.meets {α : Type} {s : Scan α} {alike : α → Value → Prop} {c : Command}
    {f : Field Order} {t : Tape}
    {source : Source} (shares : Shares alike s f.parse t.bytes t.pos) (smooth : source.Smooth)
    (rest : source.remaining = t.bytes.drop t.pos) (answer : α → Reply)
    (same : ∀ v w, alike v w → Alike c.destination w (answer v))
    (succeeds : ∀ v q, s.runFrom t.bytes t.pos = pure (.ok (v, q)) →
      Tape.step c t = .ok (pure (answer v, { t with pos := q })))
    (fails : ∀ e, s.runFrom t.bytes t.pos = pure (.error e) →
      ∃ reply : Reply, reply.failure? = some e ∧ Tape.step c t = .ok (pure (reply, t))) :
      Meets c f t source := by
  have ended := shares source smooth rest
  generalize scanned : s.runFrom t.bytes t.pos = x at ended
  generalize parsed : f.parse.runOn source = y at ended
  cases ended with
  | ok v w q source' both inside _ rest' =>
    exact .read _ q w source' (succeeds v q scanned) parsed (same v w both) inside rest'
  | error e g source' =>
    obtain ⟨reply, failure, stepped⟩ := fails e scanned
    exact .failed reply e g source' stepped failure parsed

section Meets

variable {o : Order} (little : o.endianness = .little) {t : Tape} (inside : t.pos ≤ t.length)
    {source : Source}
  (smooth : source.Smooth) (rest : source.remaining = t.bytes.drop t.pos)

include smooth rest

theorem meets_read {r : Request} {f : Field Order}
    (shares : Shares (fun a v => Alike [] v (.plain (.ok a))) r.scan f.parse t.bytes t.pos) :
    Meets (.read r) f t source := by
  refine shares.meets smooth rest (fun a => .plain (.ok a)) (fun _ _ same => same) ?_ ?_
  · intro a q scanned
    exact Tape.step_read_of_ok scanned
  · intro e scanned
    exact ⟨.plain (.error e), rfl, Tape.step_read_of_error scanned⟩

theorem meets_load {l : Load} {dst : Bytes} {f : Field Order}
    (shares : Shares (fun b v => Alike dst v (.loaded (l.answer b) (dst.overlay 0 b)))
      (l.scan dst.length) f.parse
      t.bytes t.pos) : Meets (.load l dst) f t source := by
  refine shares.meets smooth rest (fun b => .loaded (l.answer b) (dst.overlay 0 b))
    (fun _ _ same => same) ?_ ?_
  · intro b q scanned
    exact Tape.step_load_of_ok scanned
  · intro e scanned
    exact ⟨.loaded (.error e) dst, rfl, Tape.step_load_of_error scanned⟩

include little inside

theorem meets_uint (w : Width) : Meets (.readUInt w.bytes) (.uint o w) t source := by
  have shares :
      Shares (fun (n : Nat) v => Alike [] v (.plain (.ok (.int n)))) (Scan.number w)
        (Field.uint o w).parse
      t.bytes t.pos := by
    refine (Shares.number little inside w).map_right fun n n' q same _ => ?_
    subst same
    exact .int n
  refine shares.meets smooth rest (fun n => .plain (.ok (.int n))) (fun _ _ same => same) ?_ ?_
  · intro n q scanned
    rw [Scan.runFrom_number] at scanned
    rw [Tape.step_readUInt_eq, w.ofBytes?_bytes]
    split at scanned
    · cases scanned
    · next enough =>
      cases scanned
      exact if_neg enough
  · intro e scanned
    rw [Scan.runFrom_number] at scanned
    rw [Tape.step_readUInt_eq]
    split at scanned
    · next short =>
      cases scanned
      exact ⟨_, rfl, if_pos short⟩
    · cases scanned

theorem RawRead.meets (r : RawRead) (holds : r.Holds t) : Meets r.command (r.field o) t source := by
  cases r with
  | word w =>
    refine meets_read smooth rest ?_
    rw [Request.scan, Scan.word]
    simp only [bind_assoc, pure_bind]
    refine (Shares.number little inside w).map fun n n' same => ?_
    subst same
    exact .int _
  | uint w => exact meets_uint little inside smooth rest w
  | float32 =>
    refine meets_read smooth rest ?_
    rw [Request.scan, Scan.pattern32]
    simp only [bind_assoc, pure_bind]
    refine (Shares.number little inside .b32).map fun n n' same => ?_
    subst same
    exact .float32 _
  | float64 =>
    refine meets_read smooth rest ?_
    rw [Request.scan, Scan.pattern64]
    simp only [bind_assoc, pure_bind]
    refine (Shares.number little inside .b64).map fun n n' same => ?_
    subst same
    exact .float64 _
  | bytes n =>
    refine meets_read smooth rest ((Shares.take inside n).map fun b b' same => ?_)
    subst same
    exact .bytes b
  | slice dst =>
    refine meets_load smooth rest ?_
    refine (Shares.take inside dst.length).map_right fun b b' q same taken => ?_
    subst same
    rw [Scan.length_of_bytes taken]
    exact .filled _
  | blob c dst =>
    refine meets_load smooth rest
      ((Shares.counted little inside holds).map_right fun b b' q same _ => ?_)
    subst same
    exact .payload b

end Meets

theorem RawRead.proper {r : RawRead} {o : Order} {t t' : Tape} {reply : Reply}
    (fits : t.length ≤ maxLength)
    (stepped : Tape.step r.command t = .ok (pure (reply, t'))) (success : reply.failure? = none)
    (reader : StreamReader) :
    reader.misuse? (.fetch (r.field o)) = none := by
  cases r with
  | bytes n =>
    -- A stream makes a buffer before it looks for the bytes; a tape that has read them is at least
    -- as long.
    have scanned := Scan.runFrom_bytes n t.bytes t.pos
    have short : ¬ maxLength < n := by
      unfold Tape.length at fits
      split at scanned
      · have failing : (Request.bytes n).scan.runFrom t.bytes t.pos =
            pure (.error (.outOfBounds t.pos n t.bytes.length)) :=
          Scan.runFrom_bind_error scanned _
        rw [command, Tape.step_read_of_error failing] at stepped
        cases stepped
        cases success
      · omega
    unfold StreamReader.misuse? field
    dsimp only
    rw [Misuse.ofLength?, if_neg short, ite_self]
  | word w | uint w | float32 | float64 | slice dst | blob c dst => rfl

namespace StreamReader

variable {r : StreamReader} {f : Field Order} (clean : r.slot.first = none)

include clean

theorem step_fetch_of_ok {v : Value} {source : Source} (proper : r.misuse? (.fetch f) = none)
    (parsed : f.parse.runOn r.source = (.ok v, source)) :
    step (.fetch f) r = .ok (pure (.value v, ⟨r.slot, source⟩)) := by
  have came := fetched f r
  have ran : (fetch f).run r = pure (v, ⟨r.slot, source⟩) := by
    generalize (fetch f).run r = x at came ⊢
    cases came with
    | idle blocked =>
      rw [ErrorSlot.unblocked_of_clean clean] at blocked
      cases blocked
    | read _ parsed' =>
      rw [parsed] at parsed'
      cases parsed'
      rfl
    | failed _ parsed' =>
      rw [parsed] at parsed'
      cases parsed'
  rw [step, proper, perform, run_bind_of ran]
  rfl

theorem first_of_step_fetch {g : Failure} {source : Source}
    (parsed : f.parse.runOn r.source = (.error g, source))
    {x : Logged (StreamReader.Reply × StreamReader)} (stepped : step (.fetch f) r = .ok x) :
    x.value.2.slot.first = some g := by
  have unblocked := ErrorSlot.unblocked_of_clean clean
  have mishap : mishap? (.fetch f) r = some g := by
    simp only [mishap?, Command.mishap?, unblocked, parsed]; rfl
  have kept := first_next (.fetch f) r
  rw [clean, mishap] at kept
  rw [step_eq_ok stepped]
  exact kept

end StreamReader

/-! ## Both codecs -/

def Drive.Succeeds (c : Command) (t : Tape) (reply : Reply) (t' : Tape) : Prop :=
  reply.failure? = none ∧ ∃ events, Drive.step c t = .ok ⟨(reply, t'), events⟩

def ScratchReader.Fetches (f : Field Order) (s : ScratchReader) (v : Value)
    (s' : ScratchReader) : Prop :=
  s'.reader.slot.first = none ∧ ∃ events,
    ScratchReader.step (.fetch f) s = .ok ⟨(.value v, s'), events⟩

theorem ScratchReader.not_fetches {f : Field Order} {slot : ErrorSlot} {g : Failure}
    {source source' : Source}
    {scratch : Bytes} (clean : slot.first = none) (room : scratch.length = scratchBytes)
    (parsed : f.parse.runOn source = (.error g, source')) (v : Value) (s' : ScratchReader) :
    ¬ Fetches f ⟨⟨slot, source⟩, scratch⟩ v s' := by
  rintro ⟨still, events, stepped⟩
  obtain ⟨scratch', -, shadowed⟩ := step_eq (.fetch f) ⟨slot, source⟩ room
  rw [shadowed] at stepped
  rcases outcome : StreamReader.step (.fetch f) ⟨slot, source⟩ with m | ⟨⟨reply, r⟩, noted⟩
  · rw [outcome] at stepped
    cases stepped
  · have kept := StreamReader.first_of_step_fetch (r := ⟨slot, source⟩) clean parsed outcome
    rw [outcome] at stepped
    cases stepped
    rw [kept] at still
    cases still

/-- With room for it, a drive stores behind a tag what a writer hands to its sink, or both refuse
the value for the same reason. -/
def SameWritten (slot : ErrorSlot) (t : Tape) (c : Command) (header : Bytes)
    (i : Item Order) : Prop :=
  ∀ (calls : List SinkCall) (data scratch : Bytes), scratch.length = Leb128.maxBytes →
    ∃ (reply : StreamWriter.Reply) (s' : ScratchWriter) (events : List Event),
      ScratchWriter.runOn (ScratchWriter.perform (.put i))
        ⟨⟨slot, { Sink.accepting with calls, data }⟩, scratch⟩ =
        ⟨.ok (reply, s'), events⟩ ∧
      ((i.overflow? = none ∧ s'.writer.slot = slot ∧ ∃ b, s'.writer.sink.data = data ++ b ∧
          ((header ++ b).length ≤ t.remaining → Drive.step c t =
            .ok (pure
              (.done, ⟨t.bytes.overlay t.pos (header ++ b), t.pos + (header ++ b).length⟩)))) ∨
        ∃ f, i.overflow? = some f ∧ s'.writer.slot.first = some f ∧
          s'.writer.sink = { Sink.accepting with calls, data } ∧
          Drive.step c t = .ok (pure (.plain (.error f), t)))

/-- On the same bytes a reader fetches a field just where the drive reads it, and then both have
read the same. -/
def SameRead (slot : ErrorSlot) (t : Tape) (c : Command) (f : Field Order) : Prop :=
  ∀ (source : Source) (scratch : Bytes), source.Smooth → source.remaining = t.bytes.drop t.pos →
    scratch.length = ScratchReader.scratchBytes →
    ((∃ reply t', Drive.Succeeds c t reply t') ↔ ∃ v s',
      ScratchReader.Fetches f ⟨⟨slot, source⟩, scratch⟩ v s') ∧
    ∀ (reply : Reply) (t' : Tape) (v : Value) (s' : ScratchReader), Drive.Succeeds c t reply t' →
      ScratchReader.Fetches f ⟨⟨slot, source⟩, scratch⟩ v s' →
      Alike c.destination v reply ∧ t'.bytes = t.bytes ∧ t.pos ≤ t'.pos ∧
        s'.reader.source.remaining = t.bytes.drop t'.pos ∧
        source.remaining.length = t'.pos - t.pos + s'.reader.source.remaining.length

section Codecs

variable {o : Order} (little : o.endianness = .little) {t : Tape} (inside : t.pos ≤ t.length)
    (fits : t.length ≤ maxLength)
  {slot : ErrorSlot} (clean : slot.first = none)

include little inside fits clean

theorem Twins.sameWritten {c : Command} {header : Bytes} {i : Item Order}
    (twins : Twins o c header i) : SameWritten slot t c header i := by
  intro calls data scratch room
  obtain ⟨e, same, encodes⟩ := twins.encodes little
  obtain ⟨scratch', -, ran⟩ :=
    ScratchWriter.shadows_perform (.put i) ⟨slot, { Sink.accepting with calls, data }⟩ scratch room
  have overflow := i.overflow?_eq
  cases buffers : i.buffers with
  | ok bs =>
    rw [buffers] at encodes overflow
    obtain ⟨n, accepted⟩ := StreamWriter.perform_put_accepted clean buffers calls data
    rw [accepted] at ran
    refine ⟨_, _, _, ran, .inl ⟨overflow, rfl, bs.flatten, rfl, fun enough => ?_⟩⟩
    rw [Drive.step_of_tape inside fits, same]
    exact Tape.step_put_of_ok encodes enough
  | error f =>
    rw [buffers] at encodes overflow
    rw [StreamWriter.perform_put_refused clean buffers] at ran
    refine ⟨_, _, _, ran, .inr ⟨f, overflow, rfl, rfl, ?_⟩⟩
    rw [Drive.step_of_tape inside fits, same]
    exact Tape.step_put_of_error encodes

theorem RawRead.sameRead {r : RawRead} (holds : r.Holds t) :
    SameRead slot t r.command (r.field o) := by
  intro source scratch smooth rest room
  cases r.meets little inside smooth rest holds with
  | read reply q v source' stepped parsed same within behind =>
    have driven := (Drive.step_of_tape inside fits).mpr stepped
    obtain ⟨scratch', -, fetched⟩ := ScratchReader.step_eq (.fetch (r.field o)) ⟨slot, source⟩ room
    have proper := RawRead.proper (o := o) fits stepped same.success ⟨slot, source⟩
    rw [StreamReader.step_fetch_of_ok (r := ⟨slot, source⟩) clean proper parsed] at fetched
    have forward := (Parse.built_parse (r.field o)).forward source
    rw [parsed, behind, rest] at forward
    have le := forward.length_le
    rw [List.length_drop, List.length_drop] at le
    have sizes : source.remaining.length = q - t.pos + source'.remaining.length := by
      unfold Tape.length at inside within
      rw [rest, behind, List.length_drop, List.length_drop]
      omega
    refine ⟨⟨fun _ => ⟨v, _, clean, [], fetched⟩, fun _ => ⟨reply, _, same.success, [], driven⟩⟩,
      ?_⟩
    rintro reply' t' v' s' ⟨-, events, stepped'⟩ ⟨-, events', fetched'⟩
    rw [driven] at stepped'
    rw [fetched] at fetched'
    cases stepped'
    cases fetched'
    unfold Tape.length at inside within
    exact ⟨same, rfl, by dsimp only; omega, behind, sizes⟩
  | failed reply e g source' stepped failure parsed =>
    have driven := (Drive.step_of_tape inside fits).mpr stepped
    have missed := ScratchReader.not_fetches clean room parsed
    have stuck (reply' : Reply) (t' : Tape) : ¬ Drive.Succeeds r.command t reply' t' := by
      rintro ⟨success, events, again⟩
      rw [driven] at again
      cases again
      rw [failure] at success
      cases success
    refine ⟨⟨?_, ?_⟩, fun reply' t' _ _ succeeds => (stuck reply' t' succeeds).elim⟩
    · exact fun ⟨reply', t', succeeds⟩ => (stuck reply' t' succeeds).elim
    · exact fun ⟨v, s', fetches⟩ => (missed v s' fetches).elim

/-- A tape and a stream of little-endian numbers have one format, behind the tags; what one of them
refuses, the other refuses. -/
theorem tape_and_stream_share_format :
    (∀ (c : Command) (header : Bytes) (i : Item Order),
      Twins o c header i → SameWritten slot t c header i) ∧
    ∀ r : RawRead, r.Holds t → SameRead slot t r.command (r.field o) := by
  constructor
  · intro c header i twins
    exact twins.sameWritten little inside fits clean
  · intro r holds
    exact RawRead.sameRead little inside fits clean holds

end Codecs

theorem tape_and_stream_share_format_blob :
    let o : Order := .fixed .little
    let t : Tape := ⟨[9, 2, 7, 8, 6], 1⟩
    t.pos ≤ t.length ∧ t.length ≤ maxLength ∧
      (∃ reply s' events,
        ScratchWriter.runOn (ScratchWriter.perform (.put (.blob o .one [5])))
          (.over .accepting true) =
          ⟨.ok (reply, s'), events⟩ ∧ s'.writer.sink.data = [1, 5]) ∧
      Drive.step (.put (.taggedBlob .b8 [5])) t = .ok (pure (.done, ⟨[9, 17, 1, 5, 6], 4⟩)) ∧
      Drive.step (.put (.blob .b8 (List.replicate 256 0))) t =
        .ok (pure (.plain (.error (.integerOverflow 256 255)), t)) ∧
      ∃ v s',
        ScratchReader.Fetches (.blob o .one) (.over ⟨[.data [2, 7], .data [8, 6]]⟩ true) v s' ∧
        Alike [0, 0, 0] v (.loaded (.ok (.count 2)) [7, 8, 0]) ∧
        s'.reader.source.remaining = [6] := by
  intro o t
  have inside : t.pos ≤ t.length := by decide
  have fits : t.length ≤ maxLength := by decide
  have clean : (ErrorSlot.empty true).first = none := rfl
  obtain ⟨written, read⟩ := tape_and_stream_share_format (o := o) rfl inside fits clean
  have overlong :=
    written _ _ _ (.blob .b8 (List.replicate 256 0)) [] [] (List.replicate Leb128.maxBytes 0) rfl
  have short := written _ _ _ (.taggedBlob .b8 [5]) [] [] (List.replicate Leb128.maxBytes 0) rfl
  obtain ⟨sameReads, sameValues⟩ :=
    read (.blob .b8 [0, 0, 0]) (fun _ => by decide) ⟨[.data [2, 7], .data [8, 6]]⟩
      (List.replicate ScratchReader.scratchBytes 0) (by decide) rfl rfl
  have taken :
      Drive.Succeeds (.load (.blob .b8) [0, 0, 0]) t (.loaded (.ok (.count 2)) [7, 8, 0])
        { t with pos := 4 } :=
    ⟨rfl, [], rfl⟩
  have great : (Item.blob o .one (List.replicate 256 0)).overflow? =
      some (.integerOverflow 256 255) := by
    rw [Item.overflow?, List.length_replicate]
    rfl
  obtain ⟨reply, s', events, ran, ⟨-, -, b, taken_eq, stored⟩ | ⟨f, refused, -⟩⟩ := short
  · have shown := congrArg (fun x : Logged (Except Misuse (StreamWriter.Reply × ScratchWriter)) =>
      x.value.toOption.map fun r => r.2.writer.sink.data) ran
    obtain rfl : [1, 5] = b := Option.some.inj (shown.trans (congrArg some taken_eq))
    refine ⟨inside, fits, ⟨reply, s', events, ran, taken_eq⟩, stored (by decide), ?_, ?_⟩
    · obtain ⟨-, -, -, -, ⟨fine, -⟩ | ⟨f, refused, -, -, failed⟩⟩ := overlong
      · cases great.symm.trans fine
      · obtain rfl := Option.some.inj (great.symm.trans refused)
        exact failed
    · obtain ⟨v, s', fetched⟩ := sameReads.mp ⟨_, _, taken⟩
      obtain ⟨same, -, -, left, -⟩ := sameValues _ _ _ _ taken fetched
      exact ⟨v, s', fetched, same, left⟩
  · cases refused

end WireCodec
