import WireCodec.Proofs.Accesses
import WireCodec.Proofs.Stream.FirstFailure
import WireCodec.Proofs.Stream.ScratchReader
import WireCodec.Stream.Bound

/-!
# Streams with a bound byte order are plain streams

A bound writer does what the writer inside does when it is handed the same items in the bound order,
and so does a bound reader; what is done to the one inside in other orders changes nothing about the
order that is bound. It makes no difference to what is written and read whether an order is fixed in
the program's text or picked while the program runs.
-/

set_option autoImplicit false

namespace WireCodec

/-- The fixed order with the same digits. -/
def Order.settled (o : Order) : Order := fixed o.endianness

theorem Order.settled_eq {o o' : Order} (same : o.endianness = o'.endianness) :
    o.settled = o'.settled :=
  congrArg fixed same

theorem Item.mapOrder_id {ω : Type} (i : Item ω) : i.mapOrder id = i := by
  cases i <;> rfl

theorem Item.mapOrder_mapOrder {ω ω' ω'' : Type} (g : ω → ω') (h : ω' → ω'') (i : Item ω) :
    (i.mapOrder g).mapOrder h = i.mapOrder (h ∘ g) := by
  cases i <;> rfl

theorem Field.mapOrder_id {ω : Type} (f : Field ω) : f.mapOrder id = f := by
  cases f <;> rfl

theorem Field.mapOrder_mapOrder {ω ω' ω'' : Type} (g : ω → ω') (h : ω' → ω'') (f : Field ω) :
    (f.mapOrder g).mapOrder h = f.mapOrder (h ∘ g) := by
  cases f <;> rfl

theorem Item.buffers_settled (i : Item Order) : (i.mapOrder Order.settled).buffers = i.buffers := by
  cases i with
  | word o w => cases w <;> rfl
  | _ => rfl

theorem zipWith_congr_left {α β γ : Type} {f g : α → β → γ} {l : List α} (same : ∀ a ∈ l, f a = g a)
    (s : List β) :
    List.zipWith f l s = List.zipWith g l s := by
  induction l generalizing s with
  | nil => rfl
  | cons a l ih =>
    cases s with
    | nil => rfl
    | cons b s =>
      rw [List.zipWith_cons_cons, List.zipWith_cons_cons, same a List.mem_cons_self,
        ih fun x inside => same x (List.mem_cons_of_mem a inside)]

namespace StreamWriter

def Command.mapOrder (g : Order → Order) : Command → Command
  | .put i => .put (i.mapOrder g)
  | c => c

theorem perform_settled (c : Command) : perform (c.mapOrder Order.settled) = perform c := by
  cases c with
  | put i =>
    have answer : putReply (i.mapOrder Order.settled) = putReply i := by cases i <;> rfl
    have same : put (i.mapOrder Order.settled) = put i := by rw [put, i.buffers_settled, put]
    rw [Command.mapOrder, perform, perform, same, answer]
  | _ => rfl

theorem run_settled (cs : List Command) (w : StreamWriter) :
    run (cs.map (·.mapOrder Order.settled)) w = run cs w := by
  induction cs generalizing w with
  | nil => rfl
  | cons c cs ih => rw [List.map_cons, run, perform_settled, ih, run]

end StreamWriter

namespace StreamReader

def Command.mapOrder (g : Order → Order) : Command → Command
  | .fetch f => .fetch (f.mapOrder g)
  | c => c

theorem fetch_settled (f : Field Order) : fetch (f.mapOrder Order.settled) = fetch f := by
  cases f <;> rfl

theorem step_settled (c : Command) (r : StreamReader) :
    step (c.mapOrder Order.settled) r = step c r := by
  cases c with
  | fetch f =>
    have fault : r.misuse? (.fetch (f.mapOrder Order.settled)) = r.misuse? (.fetch f) := by
      cases f <;> rfl
    rw [Command.mapOrder, step, step, fault, perform, perform, fetch_settled]
  | _ => rfl

theorem run_settled (cs : List Command) (r : StreamReader) :
    run (cs.map (·.mapOrder Order.settled)) r = run cs r := by
  induction cs generalizing r with
  | nil => rfl
  | cons c cs ih =>
    rw [List.map_cons, run, step_settled, run]
    simp only [ih]

end StreamReader

namespace BoundWriter

/-- The same command to a writer without an order, in the order `o`. -/
def Command.bare (o : Order) : Command → StreamWriter.Command
  | .put i => .put (i.mapOrder fun _ => o)
  | .reset => .reset
  | .error => .error
  | .debug => .debug
  | .order => .error
  | .inner c => c

def Command.answer (o : Order) (c : Command) (reply : StreamWriter.Reply) : StreamWriter.Reply :=
  match c, reply with
  | .debug, .text s => .text (recordText "DataOutput" [("enc", s), ("order", o.debugText)])
  | .order, _ => .text o.name
  | _, reply => reply

def Command.seen (o : Order) (c : Command) (s : StreamWriter.Sight) : StreamWriter.Sight :=
  { s with reply := c.answer o s.reply }

theorem onWriter_run {α : Type} (a : Action StreamWriter α) (b : BoundWriter) : (onWriter a).run b =
    ⟨((a.run b.writer).value.1, { b with writer := (a.run b.writer).value.2 }),
      (a.run b.writer).events⟩ := by
  refine Logged.ext rfl ?_
  simp [onWriter, StateT.run_bind]

theorem perform_eq (c : Command) (w : StreamWriter) (o : Order) : (perform c).run ⟨w, o⟩ =
    ⟨(c.answer o ((StreamWriter.perform (c.bare o)).run w).value.1,
      ⟨((StreamWriter.perform (c.bare o)).run w).value.2, o⟩),
      ((StreamWriter.perform (c.bare o)).run w).events⟩ := by
  cases c with
  | put i =>
    change (onWriter (StreamWriter.perform (.put (i.mapOrder fun _ => o)))).run ⟨w, o⟩ = _
    rw [onWriter_run]
    rfl
  | reset | error | inner c => exact onWriter_run _ ⟨w, o⟩
  | debug | order => rfl

def run : List Command → BoundWriter → List StreamWriter.Sight × BoundWriter
  | [], b => ([], b)
  | c :: cs, b =>
    let ran := (perform c).run b
    let (sights, last) := run cs ran.value.2
    (.of ran.value.1 ran.events ran.value.2.writer :: sights, last)

theorem run_eq (cs : List Command) (w : StreamWriter) (o : Order) : run cs ⟨w, o⟩ =
    (List.zipWith (Command.seen o) cs (StreamWriter.run (cs.map (Command.bare o)) w).1,
      ⟨(StreamWriter.run (cs.map (Command.bare o)) w).2, o⟩) := by
  induction cs generalizing w with
  | nil => rfl
  | cons c cs ih =>
    rw [run, perform_eq]
    dsimp only
    rw [ih, List.map_cons, StreamWriter.run, List.zipWith_cons_cons]
    rfl

def Command.mapOrder (g : Order → Order) : Command → Command
  | .inner c => .inner (c.mapOrder g)
  | c => c

theorem bare_settled (o : Order) (c : Command) :
    (c.bare o).mapOrder Order.settled = (c.mapOrder Order.settled).bare o.settled := by
  cases c with
  | put i => exact congrArg StreamWriter.Command.put (i.mapOrder_mapOrder _ _)
  | reset | error | debug | order | inner c => rfl

theorem seen_settled {c : Command} (o : Order) (silent : c ≠ .debug) :
    c.seen o = (c.mapOrder Order.settled).seen o.settled := by
  cases c with
  | debug => exact absurd rfl silent
  | put i | reset | error | order | inner c => rfl

theorem run_settled {cs : List Command} (silent : ∀ c ∈ cs, c ≠ .debug) (w : StreamWriter)
    (o : Order) :
    run (cs.map (·.mapOrder Order.settled)) ⟨w, o.settled⟩ =
      ((run cs ⟨w, o⟩).1, ⟨(run cs ⟨w, o⟩).2.writer, o.settled⟩) := by
  have bare : (cs.map (·.mapOrder Order.settled)).map (Command.bare o.settled) =
      (cs.map (Command.bare o)).map (·.mapOrder Order.settled) := by
    rw [List.map_map, List.map_map]
    exact List.map_congr_left fun c _ => (bare_settled o c).symm
  rw [run_eq, run_eq, bare, StreamWriter.run_settled, List.zipWith_map_left]
  exact congrArg (·, _)
    (zipWith_congr_left (fun c inside => (seen_settled o (silent c inside)).symm) _)

theorem run_of_same_digits {cs cs' : List Command} {o o' : Order}
    (same : o.endianness = o'.endianness)
    (alike : cs.map (·.mapOrder Order.settled) = cs'.map (·.mapOrder Order.settled))
    (silent : ∀ c ∈ cs, c ≠ .debug) (w : StreamWriter) :
    (run cs ⟨w, o⟩).1 = (run cs' ⟨w, o'⟩).1 ∧
    (run cs ⟨w, o⟩).2.writer = (run cs' ⟨w, o'⟩).2.writer := by
  have silent' : ∀ c ∈ cs', c ≠ .debug := by
    rintro _ inside rfl
    obtain ⟨c, inside', fixed⟩ := List.mem_map.mp (alike ▸ List.mem_map_of_mem inside)
    cases c with
    | debug => exact silent _ inside' rfl
    | put i | reset | error | order | inner c => cases fixed
  have settled := run_settled silent w o
  rw [alike, Order.settled_eq same, run_settled silent' w o'] at settled
  obtain ⟨sights, last⟩ := Prod.mk.inj settled
  exact ⟨sights.symm, (BoundWriter.mk.inj last).1.symm⟩

end BoundWriter

namespace BoundReader

/-- The same command to a reader without an order, in the order `o`. -/
def Command.bare (o : Order) : Command → StreamReader.Command
  | .fetch f => .fetch (f.mapOrder fun _ => o)
  | .reset => .reset
  | .error => .error
  | .debug => .debug
  | .order => .error
  | .inner c => c

def Command.answer (o : Order) (c : Command) (reply : StreamReader.Reply) : StreamReader.Reply :=
  match c, reply with
  | .debug, .text s => .text (recordText "DataInput" [("dec", s), ("order", o.debugText)])
  | .order, _ => .text o.name
  | _, reply => reply

def Command.seen (o : Order) (c : Command) (s : StreamReader.Sight) : StreamReader.Sight :=
  { s with reply := c.answer o s.reply }

theorem onReader_run {α : Type} (a : Action StreamReader α) (b : BoundReader) : (onReader a).run b =
    ⟨((a.run b.reader).value.1, { b with reader := (a.run b.reader).value.2 }),
      (a.run b.reader).events⟩ := by
  refine Logged.ext rfl ?_
  simp [onReader, StateT.run_bind]

theorem perform_eq (c : Command) (r : StreamReader) (o : Order) : (perform c).run ⟨r, o⟩ =
    ⟨(c.answer o ((StreamReader.perform (c.bare o)).run r).value.1,
      ⟨((StreamReader.perform (c.bare o)).run r).value.2, o⟩),
      ((StreamReader.perform (c.bare o)).run r).events⟩ := by
  cases c with
  | fetch f =>
    change (onReader (StreamReader.perform (.fetch (f.mapOrder fun _ => o)))).run ⟨r, o⟩ = _
    rw [onReader_run]
    rfl
  | reset | error | inner c => exact onReader_run _ ⟨r, o⟩
  | debug | order => rfl

theorem step_eq (c : Command) (r : StreamReader) (o : Order) : step c ⟨r, o⟩ =
    (StreamReader.step (c.bare o) r).map
      fun x => ⟨(c.answer o x.value.1, ⟨x.value.2, o⟩), x.events⟩ := by
  have fault : (⟨r, o⟩ : BoundReader).misuse? c = r.misuse? (c.bare o) := by cases c <;> rfl
  rw [step, fault, perform_eq, StreamReader.step]
  cases r.misuse? (c.bare o) <;> rfl

def run : List Command → BoundReader → List StreamReader.Sight × Except Misuse BoundReader
  | [], b => ([], .ok b)
  | c :: cs, b =>
    match step c b with
    | .error m => ([], .error m)
    | .ok ⟨(reply, b'), events⟩ =>
      let (sights, outcome) := run cs b'
      (⟨reply, events, b'.reader.slot, b'.reader.source.remaining⟩ :: sights, outcome)

theorem run_eq (cs : List Command) (r : StreamReader) (o : Order) : run cs ⟨r, o⟩ =
    (List.zipWith (Command.seen o) cs (StreamReader.run (cs.map (Command.bare o)) r).1,
      (StreamReader.run (cs.map (Command.bare o)) r).2.map fun last => ⟨last, o⟩) := by
  induction cs generalizing r with
  | nil => rfl
  | cons c cs ih =>
    rw [run, step_eq, List.map_cons, StreamReader.run]
    cases StreamReader.step (c.bare o) r with
    | error m => rfl
    | ok x =>
      obtain ⟨⟨reply, r'⟩, events⟩ := x
      dsimp only [Except.map]
      rw [ih]
      rfl

def Command.mapOrder (g : Order → Order) : Command → Command
  | .inner c => .inner (c.mapOrder g)
  | c => c

theorem bare_settled (o : Order) (c : Command) :
    (c.bare o).mapOrder Order.settled = (c.mapOrder Order.settled).bare o.settled := by
  cases c with
  | fetch f => exact congrArg StreamReader.Command.fetch (f.mapOrder_mapOrder _ _)
  | reset | error | debug | order | inner c => rfl

theorem seen_settled {c : Command} (o : Order) (silent : c ≠ .debug) :
    c.seen o = (c.mapOrder Order.settled).seen o.settled := by
  cases c with
  | debug => exact absurd rfl silent
  | fetch f | reset | error | order | inner c => rfl

def inside (outcome : Except Misuse BoundReader) : Except Misuse StreamReader :=
  outcome.map fun b => b.reader

theorem run_settled {cs : List Command} (silent : ∀ c ∈ cs, c ≠ .debug) (r : StreamReader)
    (o : Order) :
    run (cs.map (·.mapOrder Order.settled)) ⟨r, o.settled⟩ =
      ((run cs ⟨r, o⟩).1, (inside (run cs ⟨r, o⟩).2).map fun last => ⟨last, o.settled⟩) := by
  have bare : (cs.map (·.mapOrder Order.settled)).map (Command.bare o.settled) =
      (cs.map (Command.bare o)).map (·.mapOrder Order.settled) := by
    rw [List.map_map, List.map_map]
    exact List.map_congr_left fun c _ => (bare_settled o c).symm
  rw [run_eq, run_eq, bare, StreamReader.run_settled, List.zipWith_map_left]
  refine congrArg₂ Prod.mk
    (zipWith_congr_left (fun c inside => (seen_settled o (silent c inside)).symm) _) ?_
  cases (StreamReader.run (cs.map (Command.bare o)) r).2 <;> rfl

theorem run_of_same_digits {cs cs' : List Command} {o o' : Order}
    (same : o.endianness = o'.endianness)
    (alike : cs.map (·.mapOrder Order.settled) = cs'.map (·.mapOrder Order.settled))
    (silent : ∀ c ∈ cs, c ≠ .debug) (r : StreamReader) :
    (run cs ⟨r, o⟩).1 = (run cs' ⟨r, o'⟩).1 ∧
    inside (run cs ⟨r, o⟩).2 = inside (run cs' ⟨r, o'⟩).2 := by
  have silent' : ∀ c ∈ cs', c ≠ .debug := by
    rintro _ inside rfl
    obtain ⟨c, inside', fixed⟩ := List.mem_map.mp (alike ▸ List.mem_map_of_mem inside)
    cases c with
    | debug => exact silent _ inside' rfl
    | fetch f | reset | error | order | inner c => cases fixed
  have settled := run_settled silent r o
  rw [alike, Order.settled_eq same, run_settled silent' r o'] at settled
  have reader (outcome : Except Misuse StreamReader) :
      inside (outcome.map fun last => ⟨last, o'.settled⟩) = outcome := by cases outcome <;> rfl
  obtain ⟨sights, last⟩ := Prod.mk.inj settled
  have ending := congrArg inside last.symm
  rw [reader, reader] at ending
  exact ⟨sights.symm, ending⟩

end BoundReader

/-- A bound end does step for step what a plain end does with the same commands in the bound order,
however that order is named. -/
theorem bound_runs_are_plain_runs :
    (∀ (cs : List BoundWriter.Command) (w : StreamWriter) (o : Order) (scratch : Bytes),
      scratch.length = Leb128.maxBytes →
      ∃ (sights : List StreamWriter.Sight) (last : ScratchWriter),
        ScratchWriter.run (cs.map (BoundWriter.Command.bare o)) ⟨w, scratch⟩ = .ok (sights, last) ∧
        BoundWriter.run cs ⟨w, o⟩ =
          (List.zipWith (BoundWriter.Command.seen o) cs sights, ⟨last.writer, o⟩)) ∧
    (∀ (cs : List BoundReader.Command) (r : StreamReader) (o : Order) (scratch : Bytes),
      scratch.length = ScratchReader.scratchBytes →
        let ran := ScratchReader.run (cs.map (BoundReader.Command.bare o)) ⟨r, scratch⟩
        BoundReader.run cs ⟨r, o⟩ =
          (List.zipWith (BoundReader.Command.seen o) cs ran.1,
            ran.2.map fun last => ⟨last.reader, o⟩)) ∧
    (∀ (cs cs' : List BoundWriter.Command) (w : StreamWriter) (o o' : Order),
      o.endianness = o'.endianness →
      cs.map (·.mapOrder Order.settled) = cs'.map (·.mapOrder Order.settled) →
        (∀ c ∈ cs, c ≠ .debug) →
        (BoundWriter.run cs ⟨w, o⟩).1 = (BoundWriter.run cs' ⟨w, o'⟩).1 ∧
        (BoundWriter.run cs ⟨w, o⟩).2.writer = (BoundWriter.run cs' ⟨w, o'⟩).2.writer) ∧
    (∀ (cs cs' : List BoundReader.Command) (r : StreamReader) (o o' : Order),
      o.endianness = o'.endianness →
      cs.map (·.mapOrder Order.settled) = cs'.map (·.mapOrder Order.settled) →
        (∀ c ∈ cs, c ≠ .debug) →
        (BoundReader.run cs ⟨r, o⟩).1 = (BoundReader.run cs' ⟨r, o'⟩).1 ∧
        BoundReader.inside (BoundReader.run cs ⟨r, o⟩).2 =
          BoundReader.inside (BoundReader.run cs' ⟨r, o'⟩).2) ∧
    ∀ o : Order, o.accesses = .of o ∧ (∀ b width, o.accesses.getUInt b width = o.getUInt b width) ∧
      ∀ b width v, o.accesses.putUInt b width v = o.putUInt b width v := by
  refine ⟨?_, ?_,
    fun _ _ w _ _ same alike silent => BoundWriter.run_of_same_digits same alike silent w,
    fun _ _ r _ _ same alike silent => BoundReader.run_of_same_digits same alike silent r,
    fun o => ?_⟩
  · intro cs w o scratch room
    obtain ⟨scratch', -, ran⟩ := ScratchWriter.run_eq (cs.map (BoundWriter.Command.bare o)) w room
    exact ⟨_, _, ran, BoundWriter.run_eq cs w o⟩
  · intro cs r o scratch room
    obtain ⟨scratch', -, ran⟩ := ScratchReader.run_eq (cs.map (BoundReader.Command.bare o)) r room
    rw [ran, BoundReader.run_eq]
    cases (StreamReader.run (cs.map (BoundReader.Command.bare o)) r).2 <;> rfl
  · rw [o.accesses_eq]
    exact ⟨rfl, Accesses.getUInt_of o, Accesses.putUInt_of o⟩

theorem bound_runs_are_plain_runs_between :
    let w : StreamWriter := ⟨⟨false, some (.shortWrite 1 2)⟩, Sink.scripted (some 3) []⟩
    let writes (big : Order) : List BoundWriter.Command :=
      [.put (.word () (.u16 0x0102)), .inner (.put (.word big (.u32 7))), .order, .reset,
        .put (.blob () .two [5])]
    let r : StreamReader := .over ⟨[.data [1, 2, 3], .data [4]]⟩ true
    let reads (big : Order) : List BoundReader.Command :=
      [.fetch (.word () ⟨false, .b16⟩), .inner (.fetch (.word big ⟨false, .b8⟩)), .order,
        .fetch (.word () ⟨true, .b24⟩)]
    let little : Order := .fixed .little
    (∃ (sights : List StreamWriter.Sight) (last : ScratchWriter),
      ScratchWriter.run ((writes (.fixed .big)).map (BoundWriter.Command.bare little))
        ⟨w, List.replicate 10 0⟩ =
        .ok (sights, last) ∧
      BoundWriter.run (writes (.fixed .big)) ⟨w, little⟩ =
        (List.zipWith (BoundWriter.Command.seen little) (writes (.fixed .big)) sights,
          ⟨last.writer, little⟩)) ∧
    BoundReader.run (reads (.fixed .big)) ⟨r, little⟩ =
      (List.zipWith (BoundReader.Command.seen little) (reads (.fixed .big))
        (ScratchReader.run ((reads (.fixed .big)).map (BoundReader.Command.bare little))
          ⟨r, List.replicate 8 9⟩).1,
      (ScratchReader.run ((reads (.fixed .big)).map (BoundReader.Command.bare little))
        ⟨r, List.replicate 8 9⟩).2.map
        fun last => ⟨last.reader, little⟩) ∧
    (BoundWriter.run (writes (.fixed .big)) ⟨w, little⟩).1 =
      (BoundWriter.run (writes (.picked .big)) ⟨w, .picked .little⟩).1 ∧
    (BoundReader.run (reads (.fixed .big)) ⟨r, little⟩).1 =
      (BoundReader.run (reads (.picked .big)) ⟨r, .picked .little⟩).1 := by
  intro w writes r reads little
  have silent : ∀ c ∈ writes (.fixed .big), c ≠ .debug := by
    intro c inside
    simp only [writes, List.mem_cons, List.not_mem_nil, or_false] at inside
    rcases inside with rfl | rfl | rfl | rfl | rfl <;> exact nofun
  have silent' : ∀ c ∈ reads (.fixed .big), c ≠ .debug := by
    intro c inside
    simp only [reads, List.mem_cons, List.not_mem_nil, or_false] at inside
    rcases inside with rfl | rfl | rfl | rfl <;> exact nofun
  obtain ⟨written, read, written_alike, read_alike, -⟩ := bound_runs_are_plain_runs
  exact ⟨written _ w little _ rfl, read _ r little _ rfl,
    (written_alike _ _ w _ _ rfl rfl silent).1, (read_alike _ _ r _ _ rfl rfl silent').1⟩

end WireCodec
