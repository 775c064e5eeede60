import WireCodec.Stream.StreamReader
import WireCodec.Stream.StreamWriter

/-!
# Runs of the two ends of a stream

A run carries out one operation after another. What can be seen of a step of a reader is its answer,
its events, the failure kept after it and the bytes still to come; a run of a reader ends early at a
misuse.
-/

set_option autoImplicit false

namespace WireCodec

namespace StreamWriter

def putAll (items : List (Item Order)) : Action StreamWriter (List Nat) := items.mapM put

def written (items : List (Item Order)) (sink : Sink) (strict : Bool) : StreamWriter :=
  ((putAll items).run (.over sink strict)).value.2

end StreamWriter

namespace StreamReader

structure Sight where
  reply : Reply
  events : List Event
  slot : ErrorSlot
  remaining : Bytes

/-- Carries out commands until one is a misuse: what is seen of the steps, and the reader at the end
or the misuse. -/
def run : List Command → StreamReader → List Sight × Except Misuse StreamReader
  | [], r => ([], .ok r)
  | c :: cs, r =>
    match step c r with
    | .error m => ([], .error m)
    | .ok ⟨(reply, r'), events⟩ =>
      let (sights, outcome) := run cs r'
      (⟨reply, events, r'.slot, r'.source.remaining⟩ :: sights, outcome)

end StreamReader

end WireCodec
