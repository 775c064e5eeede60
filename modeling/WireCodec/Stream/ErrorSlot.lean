import WireCodec.Logged

/-!
# The first failure of a stream

Neither end of a stream returns failures from its operations. It keeps the first one until it is
told to forget it. A strict end does nothing while a failure is kept; a lenient one goes on.
-/

set_option autoImplicit false

namespace WireCodec

structure ErrorSlot where
  strict : Bool
  first : Option Failure
  deriving DecidableEq

namespace ErrorSlot

def empty (strict : Bool) : ErrorSlot := ⟨strict, none⟩

def blocked (s : ErrorSlot) : Bool := s.strict && s.first.isSome

/-- The failure that makes operations be skipped. -/
def obstacle? (s : ErrorSlot) : Option Failure := if s.strict then s.first else none

/-- Keeps a failure and reports it, unless one is kept already. -/
def note (s : ErrorSlot) (side : Side) (f : Failure) : Logged ErrorSlot :=
  match s.first with
  | some _ => pure s
  | none => do
    Logged.report (.firstFailure side f)
    pure { s with first := some f }

def clear (s : ErrorSlot) : ErrorSlot := { s with first := none }

def debugText (s : ErrorSlot) (name : String) : String :=
  let first :=
    match s.first with
    | none => "None"
    | some f => "Some(" ++ f.debugText ++ ")"
  name ++ " \x7b first_err: " ++ first ++ ", fail_on_error: " ++ toString s.strict ++ ", .. \x7d"

end ErrorSlot

end WireCodec
