import WireCodec.Stream.StreamReader
import WireCodec.Stream.StreamWriter

/-!
# Streams with a byte order of their own

A bound writer or reader is a stream end together with the one byte order that its items and fields
are meant in. The end itself stays within reach, for operations in any order.
-/

set_option autoImplicit false

namespace WireCodec

structure BoundWriter where
  writer : StreamWriter
  order : Order

namespace BoundWriter

def onWriter {α : Type} (a : Action StreamWriter α) : Action BoundWriter α := do
  let b ← get
  let (v, writer) ← (a.run b.writer : Logged (α × StreamWriter))
  set { b with writer }
  pure v

def debugText (b : BoundWriter) : String :=
  recordText "DataOutput" [("enc", b.writer.debugText), ("order", b.order.debugText)]

inductive Command where
  /-- An item in the bound order. A program has no call for `uint` and `int` here: the type admits
  them, and they are put like the others. -/
  | put (i : Item Unit)
  | reset
  | error
  | debug
  | order
  /-- A command to the writer inside. -/
  | inner (c : StreamWriter.Command)

def perform : Command → Action BoundWriter StreamWriter.Reply
  | .put i => do
    let b ← get
    onWriter (StreamWriter.perform (.put (i.mapOrder fun _ => b.order)))
  | .reset => onWriter (StreamWriter.perform .reset)
  | .error => onWriter (StreamWriter.perform .error)
  | .debug => do
    let b ← get
    pure (.text b.debugText)
  | .order => do
    let b ← get
    pure (.text b.order.name)
  | .inner c => onWriter (StreamWriter.perform c)

end BoundWriter

structure BoundReader where
  reader : StreamReader
  order : Order

namespace BoundReader

def onReader {α : Type} (a : Action StreamReader α) : Action BoundReader α := do
  let b ← get
  let (v, reader) ← (a.run b.reader : Logged (α × StreamReader))
  set { b with reader }
  pure v

def debugText (b : BoundReader) : String :=
  recordText "DataInput" [("dec", b.reader.debugText), ("order", b.order.debugText)]

inductive Command where
  /-- A field in the bound order. A program has no call for `uint` and `int` here: the type admits
  them, and they are fetched like the others. -/
  | fetch (f : Field Unit)
  | reset
  | error
  | debug
  | order
  | inner (c : StreamReader.Command)

def resolve (b : BoundReader) (f : Field Unit) : Field Order := f.mapOrder fun _ => b.order

def perform : Command → Action BoundReader StreamReader.Reply
  | .fetch f => do
    let b ← get
    onReader (StreamReader.perform (.fetch (b.resolve f)))
  | .reset => onReader (StreamReader.perform .reset)
  | .error => onReader (StreamReader.perform .error)
  | .debug => do
    let b ← get
    pure (.text b.debugText)
  | .order => do
    let b ← get
    pure (.text b.order.name)
  | .inner c => onReader (StreamReader.perform c)

/-- The caller's fault in a command, which is that of the reader inside. -/
def misuse? (b : BoundReader) : Command → Option Misuse
  | .fetch f => b.reader.misuse? (.fetch (b.resolve f))
  | .inner c => b.reader.misuse? c
  | _ => none

def step (c : Command) (b : BoundReader) :
    Except Misuse (Logged (StreamReader.Reply × BoundReader)) :=
  match b.misuse? c with
  | some m => .error m
  | none => .ok ((perform c).run b)

end BoundReader

end WireCodec
