/-! # Log events

What happens is told as a list of events beside the result. An event names the
part of the program that speaks, and carries its facts as named fields.
-/

namespace RouteGuard.Log

inductive Level
  | trace
  | debug
  | info
  | warn
  | error
  deriving DecidableEq, Repr

inductive Field
  | text (s : String)
  /-- a text that one-line logs set in quotes -/
  | quoted (s : String)
  | count (n : Nat)
  deriving DecidableEq, Repr

structure Event where
  level : Level
  target : String
  message : String
  fields : List (String × Field) := []
  deriving DecidableEq, Repr

end RouteGuard.Log

namespace RouteGuard

/-- A value with the events that led to it, the earliest first. -/
structure Logged (α : Type) where
  value : α
  events : List Log.Event := []

namespace Logged

instance : Monad Logged where
  pure a := ⟨a, []⟩
  bind x f := ⟨(f x.value).value, x.events ++ (f x.value).events⟩

def tell (e : Log.Event) : Logged Unit := ⟨(), [e]⟩

@[simp] theorem value_pure {α : Type} (a : α) : (pure a : Logged α).value = a := rfl

@[simp] theorem events_pure {α : Type} (a : α) : (pure a : Logged α).events = [] := rfl

@[simp] theorem value_bind {α β : Type} (x : Logged α) (f : α → Logged β) :
    (x >>= f).value = (f x.value).value := rfl

@[simp] theorem events_bind {α β : Type} (x : Logged α) (f : α → Logged β) :
    (x >>= f).events = x.events ++ (f x.value).events := rfl

end Logged

end RouteGuard
