import WireCodec.Failure

/-!
# Events

Some operations report what they meet to a log as well as to their caller. A logged computation is a
value together with the events on the way to it, in order; running one after another appends their
events. An action is a logged computation that also changes a state.
-/

set_option autoImplicit false

namespace WireCodec

inductive Side where
  | writer
  | reader
  deriving DecidableEq

inductive Event where
  /-- One end of a stream kept a failure that found none kept before it. -/
  | firstFailure (side : Side) (f : Failure)
  /-- A byte at `pos` was read for a tag and stands for none. -/
  | corruptTag (code : UInt8) (pos : Nat)
  deriving DecidableEq

def Side.name : Side → String
  | .writer => "encoder"
  | .reader => "decoder"

def Event.text : Event → String
  | .firstFailure side f => "DEBUG " ++ side.name ++ " recorded first error error=" ++ f.message
  | .corruptTag code pos =>
    "WARN corrupt type tag tag=" ++ toString code.toNat ++ " pos=" ++ toString pos

structure Logged (α : Type) where
  value : α
  events : List Event

namespace Logged

def report (e : Event) : Logged Unit := ⟨(), [e]⟩

instance : Monad Logged where
  pure a := ⟨a, []⟩
  bind x f :=
    let y := f x.value
    ⟨y.value, x.events ++ y.events⟩

@[simp] theorem value_pure {α : Type} (a : α) : (pure a : Logged α).value = a := rfl

@[simp] theorem events_pure {α : Type} (a : α) : (pure a : Logged α).events = [] := rfl

@[simp] theorem value_bind {α β : Type} (x : Logged α) (f : α → Logged β) :
    (x >>= f).value = (f x.value).value := rfl

@[simp] theorem events_bind {α β : Type} (x : Logged α) (f : α → Logged β) :
    (x >>= f).events = x.events ++ (f x.value).events := rfl

@[simp] theorem value_map {α β : Type} (f : α → β) (x : Logged α) :
    (f <$> x).value = f x.value := rfl

@[simp] theorem events_map {α β : Type} (f : α → β) (x : Logged α) : (f <$> x).events = x.events :=
  List.append_nil x.events

theorem ext {α : Type} {x y : Logged α} (hv : x.value = y.value)
    (he : x.events = y.events) : x = y := by
  cases x
  cases y
  exact congr (congrArg Logged.mk hv) he

instance : LawfulMonad Logged :=
  LawfulMonad.mk' Logged
    (fun x => ext rfl (List.append_nil x.events))
    (fun _ _ => rfl)
    (fun x f g =>
      ext rfl (List.append_assoc x.events (f x.value).events (g (f x.value).value).events))

end Logged

abbrev Action (σ α : Type) := StateT σ Logged α

end WireCodec
