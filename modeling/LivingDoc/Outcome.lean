import LivingDoc.Value.Basic

/-!
# Outcomes

What a command that can be seen came to (specification, 3): it succeeded, it failed with what was
expected and what was found, or it could not complete.  The comparators, which decide on success,
stand here too, because an outcome is all they lead to.
-/

namespace LivingDoc

/-- Why a command could not complete: its expression, the message, and lines in support of it. -/
structure Cause where
  expression : String
  message : String
  context : List String
deriving DecidableEq, Repr

/-- The outcome of a command. -/
inductive Outcome where
  | success
  | failure (expected actual : String)
  | exception (cause : Cause)
deriving DecidableEq, Repr

/-- The kinds of outcome. -/
inductive Status where
  | success
  | failure
  | exception
deriving DecidableEq, Repr

/-- The name of a kind of outcome, which is also the class of elements that have one. -/
def Status.name : Status → String
  | .success => "success"
  | .failure => "failure"
  | .exception => "exception"

def Outcome.status : Outcome → Status
  | .success => .success
  | .failure .. => .failure
  | .exception _ => .exception

/-- An outcome with the place of its element, as child indices from the root, and the command.  The
indices count text children too, so they are places in the tree as it was read. -/
structure Recorded where
  path : List Nat
  command : String
  expression : String
  outcome : Outcome
deriving DecidableEq, Repr

/-- Decides whether a value is what a text expects. -/
abbrev Comparator := String → Value → Bool

/-- The words of the text are the words of the displayed value: the comparator of the standard
commands (`NormalizedComparator`), under which null compares as `(null)`. -/
def Comparator.normalized : Comparator := fun expected actual =>
  Text.normalized expected == Text.normalized actual.display

/-- The text is the displayed value, character by character (`ExactComparator`). -/
def Comparator.exact : Comparator := fun expected actual => expected == actual.display

end LivingDoc
