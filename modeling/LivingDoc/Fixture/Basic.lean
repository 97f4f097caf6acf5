import LivingDoc.Value.Coercion

/-!
# Fixtures

A fixture connects documents to what they describe (specification, 3): it has operations that are
looked up by name and called with values.  It is a state machine, so what an operation does may
depend on all calls before, and a call answers in one of three ways.  Nothing else is assumed of a
fixture: what it offers may change from state to state, and it may answer anything.
-/

namespace LivingDoc

structure Param where
  name : String
  type : ParamType
deriving DecidableEq, Repr

/-- The name and the parameters of an operation. -/
structure Signature where
  name : String
  params : List Param
deriving DecidableEq, Repr

/-- The place of the first parameter of that name (`param_index`). -/
def Signature.paramIndex? (s : Signature) (name : String) : Option Nat :=
  s.params.findIdx? (·.name == name)

/-- The answer to a call.  That an operation panics is an answer like the others, because the
invoker catches it. -/
inductive Reply where
  | returned (v : Value)
  /-- An error with its message and the messages of the errors behind it, outermost first. -/
  | raised (message : String) (causes : List String)
  /-- A breakdown, with a message if it left one. -/
  | panicked (message : Option String)
deriving DecidableEq, Repr

/-- A fixture over the states `σ`.  Looking an operation up only reads the state; a call may change
it, whatever the answer is. -/
structure Fixture (σ : Type) where
  /-- The name of the fixture's type, which its document is named after. -/
  typeName : String
  /-- The operation of that name, if there is one. -/
  resolve : σ → String → Option Signature
  /-- Call an operation. -/
  call : σ → String → List Value → Reply × σ

/-- A call that was made, for the record of a run. -/
structure Call where
  typeName : String
  operation : String
  arguments : List Value
deriving DecidableEq, Repr

end LivingDoc
