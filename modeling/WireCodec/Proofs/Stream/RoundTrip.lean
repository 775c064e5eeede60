import WireCodec.Proofs.Stream.Offering
import WireCodec.Proofs.Stream.Taking

/-!
# Reading back what was written

Items written to a sink that takes everything are read back by the fields that mirror them, from any
smooth source of the bytes, and nothing is left over. `Item.ReadBack` says which field mirrors an
item and what it brings; one item is settled by `takes_fetch`, and a run by induction on its
exchanges.
-/

set_option autoImplicit false

namespace WireCodec

/-- Which fields mirror an item, and the values that they bring. -/
inductive Item.ReadBack : Item Order → Field Order → Value → Prop where
  | bytes (b : Bytes) : ReadBack (.bytes b) (.bytes b.length) (.bytes b)
  | fill (b dst : Bytes) (h : dst.length = b.length) :
    ReadBack (.bytes b) (.fill dst) (.filled b.length b)
  | word (o : Order) (w : Word) :
    ReadBack (.word o w) (.word o w.format) (.int (w.format.reduce w.toInt))
  | bool (v : Bool) : ReadBack (.bool v) .bool (.bool v)
  | uint (o : Order) (w : Width) (v : UInt64) :
    ReadBack (.uint o w v) (.uint o w) (.int ((IntFormat.unsigned w).reduce v.toNat))
  | int (o : Order) (w : Width) (v : Int64) :
    ReadBack (.int o w v) (.int o w) (.int ((IntFormat.twosComplement w).reduce v.toInt))
  | uvarint (v : UInt64) : ReadBack (.uvarint v) .uvarint (.int v.toNat)
  | varint (v : Int64) : ReadBack (.varint v) .varint (.int v.toInt)
  | float32 (o : Order) (p : UInt32) : ReadBack (.float32 o p) (.float32 o) (.float32 p)
  | float64 (o : Order) (p : UInt64) : ReadBack (.float64 o p) (.float64 o) (.float64 p)
  | complex64 (o : Order) (re im : UInt32) :
    ReadBack (.complex64 o re im) (.complex64 o) (.complex64 re im)
  | complex128 (o : Order) (re im : UInt64) :
    ReadBack (.complex128 o re im) (.complex128 o) (.complex128 re im)
  | blob (o : Order) (f : LengthField) (b : Bytes) : ReadBack (.blob o f b) (.blob o f) (.bytes b)
  | text (o : Order) (f : LengthField) (s : String) : ReadBack (.text o f s) (.text o f) (.text s)
  | lossyText (o : Order) (f : LengthField) (s : String) :
    ReadBack (.text o f s) (.lossyText o f) (.text s)

/-- Whether the bytes of an item can be held in memory, and a payload's length can be announced by
its field. -/
def Item.Fits : Item Order → Prop
  | .bytes b => b.length ≤ maxLength
  | .blob _ f b => b.length ≤ f.maxLength ∧ b.length ≤ maxLength
  | .text _ f s => (Utf8.encode s).length ≤ f.maxLength ∧ (Utf8.encode s).length ≤ maxLength
  | _ => True

theorem Item.counted_of_le (o : Order) (f : LengthField) {b : Bytes} (h : b.length ≤ f.maxLength) :
    Item.counted o f b = .ok [f.encode o b.length, b] := if_neg (Nat.not_lt.mpr h)

namespace StreamReader

theorem takes_single {i : Item Order} {f : Field Order} {v : Value} {b : Bytes}
    (buffers : i.buffers = .ok [b])
    (h : Takes (fetch f) b v) : ∃ bs, i.buffers = .ok bs ∧ Takes (fetch f) bs.flatten v := by
  refine ⟨[b], buffers, ?_⟩
  rwa [List.flatten_singleton]

theorem takes_double {i : Item Order} {f : Field Order} {v : Value} {b c : Bytes}
    (buffers : i.buffers = .ok [b, c])
    (h : Takes (fetch f) (b ++ c) v) : ∃ bs, i.buffers = .ok bs ∧ Takes (fetch f) bs.flatten v := by
  refine ⟨[b, c], buffers, ?_⟩
  rwa [List.flatten_cons, List.flatten_singleton]

theorem takes_fetch {i : Item Order} {f : Field Order} {v : Value} (mirrored : i.ReadBack f v)
    (fits : i.Fits) :
    ∃ bs, i.buffers = .ok bs ∧ Takes (fetch f) bs.flatten v := by
  cases mirrored with
  | bytes b => exact takes_single rfl ((takes_draw b).map fun d => Value.bytes d.bytes)
  | fill b dst h =>
    have whole : dst.overlay 0 b = b := by simp [Bytes.overlay, h]
    have taken := (takes_draw b).map fun d => Value.filled d.bytes.length (dst.overlay 0 d.bytes)
    rw [whole] at taken
    apply takes_single rfl
    rwa [fetch, h]
  | word o w =>
    obtain ⟨v, value, taken⟩ := takes_word o w
    rw [← value]
    exact takes_single rfl (taken.map fun v => Value.int v.toInt)
  | bool v =>
    have taken :=
      (takes_number .standard .b8 (if v then 1 else 0)).map fun n => Value.bool (n.getD 0 != 0)
    apply takes_single rfl
    cases v <;> exact taken
  | uint o w v =>
    exact takes_single rfl ((takes_number o w v.toNat).map fun n => Value.int (n.getD 0))
  | int o w v =>
    rw [← IntFormat.read_bits]
    exact takes_single rfl
      ((takes_number o w v.toUInt64.toNat).map fun n => Value.int (w.toSigned (n.getD 0)))
  | uvarint v =>
    exact takes_single rfl ((takes_base128 v.toNat_lt).map fun n => Value.int (n.getD 0))
  | varint v =>
    have taken := (takes_base128 (Zigzag.toUnsigned v).toNat_lt).map fun n =>
      Value.int (Zigzag.toSigned (UInt64.ofNat (n.getD 0))).toInt
    rw [Option.getD_some, UInt64.ofNat_toNat, Zigzag.toSigned_toUnsigned] at taken
    exact takes_single rfl taken
  | float32 o p => exact takes_single rfl ((takes_pattern32 o p).map Value.float32)
  | float64 o p => exact takes_single rfl ((takes_pattern64 o p).map Value.float64)
  | complex64 o re im =>
    have second := (takes_pattern32 o im).map fun im => Value.complex64 re im
    exact takes_double rfl ((takes_pattern32 o re).bind second)
  | complex128 o re im =>
    have second := (takes_pattern64 o im).map fun im => Value.complex128 re im
    exact takes_double rfl ((takes_pattern64 o re).bind second)
  | blob o f b =>
    have taken := (takes_payload o f fits.1 fits.2).map fun b => Value.bytes (b.getD [])
    exact takes_double (Item.counted_of_le o f fits.1) taken
  | text o f s =>
    refine takes_double (Item.counted_of_le o f fits.1) ?_
    rw [← List.append_nil (f.encode o (Utf8.encode s).length ++ Utf8.encode s)]
    refine (takes_payload o f fits.1 fits.2).bind ?_
    simp only [Utf8.decode?_encode]
    exact takes_pure _
  | lossyText o f s =>
    have taken :=
      (takes_payload o f fits.1 fits.2).map fun b => Value.text (Utf8.decodeLossy (b.getD []))
    rw [Option.getD_some, Utf8.decodeLossy, Utf8.decode?_encode, Option.getD_some] at taken
    exact takes_double (Item.counted_of_le o f fits.1) taken

theorem misuse?_of_readBack (r : StreamReader) {i : Item Order} {f : Field Order} {v : Value}
    (mirrored : i.ReadBack f v) (fits : i.Fits) : r.misuse? (.fetch f) = none := by
  cases mirrored with
  | bytes b =>
    have bounded : Misuse.ofLength? b.length = none := if_neg (Nat.not_lt.mpr fits)
    simp [misuse?, bounded]
  | fill | word | bool | uint | int | uvarint | varint | float32 | float64 | complex64 | complex128
  | blob | text
    | lossyText => rfl

end StreamReader

structure Exchange where
  item : Item Order
  field : Field Order
  value : Value
  readBack : item.ReadBack field value

namespace StreamReader

theorem run_exchanges {slot : ErrorSlot} {source : Source} {exchanges : List Exchange}
    {rest : Bytes} (unblocked : slot.blocked = false) (smooth : source.Smooth)
    (fits : ∀ x ∈ exchanges, x.item.Fits)
    (bytes : source.remaining = (Item.buffersOf (exchanges.map Exchange.item)).1.flatten ++ rest) :
    ∃ (sights : List Sight) (source' : Source), source'.Smooth ∧ source'.remaining = rest ∧
      run (exchanges.map fun x => .fetch x.field) ⟨slot, source⟩ = (sights, .ok ⟨slot, source'⟩) ∧
      sights.map Sight.reply = exchanges.map (fun x => Reply.value x.value) ∧
      (∀ s ∈ sights, s.events = [] ∧ s.slot = slot) := by
  induction exchanges generalizing source with
  | nil => exact ⟨[], source, smooth, bytes, rfl, rfl, by simp⟩
  | cons x exchanges ih =>
    have x_fits := fits x List.mem_cons_self
    obtain ⟨bs, buffers, taken⟩ := takes_fetch x.readBack x_fits
    rw [List.map_cons, Item.buffersOf, buffers, List.flatten_append, List.append_assoc] at bytes
    obtain ⟨middle, smooth, bytes, first⟩ := taken slot source _ unblocked smooth bytes
    obtain ⟨sights, last, smooth, bytes, others, replies, quiet⟩ :=
      ih smooth (fun y hy => fits y (List.mem_cons_of_mem x hy)) bytes
    have step_first : step (.fetch x.field) ⟨slot, source⟩ =
        .ok (pure (.value x.value, ⟨slot, middle⟩)) := by
      simp [step, misuse?_of_readBack _ x.readBack x_fits, perform, first]
    refine ⟨⟨.value x.value, [], slot, middle.remaining⟩ :: sights, last, smooth, bytes, ?_, ?_, ?_⟩
    · rw [List.map_cons, run, step_first]
      simp only [pure, others]
    · rw [List.map_cons, List.map_cons, replies]
    · intro s hs
      rcases List.mem_cons.mp hs with rfl | hs
      · exact ⟨rfl, rfl⟩
      · exact quiet s hs

end StreamReader

theorem Item.buffersOf_of_fits {exchanges : List Exchange} (fits : ∀ x ∈ exchanges, x.item.Fits) :
    (Item.buffersOf (exchanges.map Exchange.item)).2 = none := by
  induction exchanges with
  | nil => rfl
  | cons x exchanges ih =>
    obtain ⟨bs, buffers, -⟩ := StreamReader.takes_fetch x.readBack (fits x List.mem_cons_self)
    rw [List.map_cons, Item.buffersOf, buffers]
    exact ih fun y hy => fits y (List.mem_cons_of_mem x hy)

/-- Whatever fits is written without a failure, and read back value for value from any smooth source
of its bytes, to the last byte. -/
theorem read_back_written (exchanges : List Exchange) (fits : ∀ x ∈ exchanges, x.item.Fits)
    (strictWriter strictReader : Bool) (source : Source) (smooth : source.Smooth)
    (delivered : source.remaining =
      (StreamWriter.written (exchanges.map Exchange.item) .accepting strictWriter).sink.data) :
    (StreamWriter.written (exchanges.map Exchange.item) .accepting strictWriter).slot.first = none ∧
    ∃ (sights : List StreamReader.Sight) (r : StreamReader),
      StreamReader.run (exchanges.map fun x => .fetch x.field) (.over source strictReader) =
        (sights, .ok r) ∧
      sights.map StreamReader.Sight.reply =
        exchanges.map (fun x => StreamReader.Reply.value x.value) ∧
      (∀ s ∈ sights, s.events = [] ∧ s.slot.first = none) ∧
      r.slot.first = none ∧ r.source.remaining = [] := by
  have fed := Sink.feed_accepting (Item.buffersOf (exchanges.map Exchange.item)).1 [] []
  have encoded : Item.buffersOf (exchanges.map Exchange.item) =
      ((Item.buffersOf (exchanges.map Exchange.item)).1, none) :=
    Prod.ext rfl (Item.buffersOf_of_fits fits)
  have unblocked (strict : Bool) : (ErrorSlot.empty strict).blocked = false := by
    cases strict <;> rfl
  obtain ⟨ns, written⟩ := StreamWriter.putAll_of_feed (unblocked strictWriter) encoded fed
  have output : StreamWriter.written (exchanges.map Exchange.item) .accepting strictWriter =
      ⟨.empty strictWriter, _⟩ :=
    congrArg (fun l => l.value.2) written
  rw [output, List.nil_append] at delivered
  rw [← List.append_nil (List.flatten _)] at delivered
  obtain ⟨sights, source', -, left, seen, replies, quiet⟩ :=
    StreamReader.run_exchanges (unblocked strictReader) smooth fits delivered
  refine ⟨by rw [output]; rfl, sights, _, seen, replies, ?_, rfl, left⟩
  intro s hs
  exact ⟨(quiet s hs).1, by rw [(quiet s hs).2]; rfl⟩

theorem read_back_written_in_pieces :
    let exchanges : List Exchange :=
      [⟨_, _, _, .word (.fixed .big) (.i24 (-2))⟩, ⟨_, _, _, .blob (.picked .little) .two [7, 8]⟩,
        ⟨_, _, _, .bool true⟩]
    let source : Source :=
      ⟨[.data [255], .data [], .fault ⟨.interrupted, "again"⟩, .data [255, 254, 2, 0, 7],
        .data [8, 1]]⟩
    (∀ x ∈ exchanges, x.item.Fits) ∧ source.Smooth ∧
    source.remaining =
      (StreamWriter.written (exchanges.map Exchange.item) .accepting true).sink.data ∧
    ∃ (sights : List StreamReader.Sight) (r : StreamReader),
      StreamReader.run (exchanges.map fun x => .fetch x.field) (.over source false) =
        (sights, .ok r) ∧
      sights.map StreamReader.Sight.reply =
        [.value (.int (-2)), .value (.bytes [7, 8]), .value (.bool true)] ∧
      r.slot.first = none ∧ r.source.remaining = [] := by
  intro exchanges source
  have fits : ∀ x ∈ exchanges, x.item.Fits := by
    intro x hx
    simp only [exchanges, List.mem_cons, List.not_mem_nil, or_false] at hx
    rcases hx with rfl | rfl | rfl
    · trivial
    · exact ⟨by decide, by decide⟩
    · trivial
  have smooth : source.Smooth := by decide
  have delivered : source.remaining =
      (StreamWriter.written (exchanges.map Exchange.item) .accepting true).sink.data := by decide
  obtain ⟨-, sights, r, seen, replies, -, first, left⟩ :=
    read_back_written exchanges fits true false source smooth delivered
  exact ⟨fits, smooth, delivered, sights, r, seen, replies, first, left⟩

end WireCodec
