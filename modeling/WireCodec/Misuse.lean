/-!
# Misuse

Faults of the caller, apart from the failures that data can cause: an operation that reports one has
no answer.
-/

set_option autoImplicit false

namespace WireCodec

-- Powers are those of the core library, also where a file sees others.
attribute [local instance(high)] instPowNat

/-- The greatest length that a buffer in memory can have. -/
def maxLength : Nat := 2 ^ (63 : Nat) - 1

inductive Misuse where
  | width (bytes : Nat)
  | shortSlice
  | bufferLength (bytes : Nat)
  deriving DecidableEq

def Misuse.message : Misuse → String
  | .width n => s!"unsupported integer width: {n} bytes"
  | .shortSlice => "precondition"
  | .bufferLength _ => "precondition"

/-- The fault in asking for a new buffer of `n` bytes, where there is one. -/
def Misuse.ofLength? (n : Nat) : Option Misuse :=
  if maxLength < n then some (.bufferLength n) else none

end WireCodec
