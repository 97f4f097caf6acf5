import LivingDoc.Fixture.Basic

/-!
# Fixtures from a table of operations

Most fixtures are a state and a table of operations on it: the builder `MethodFixture`
(specification, 4.3).  Registering an operation takes away the one that had its name, so every name
stands in the table at most once.

* `names_register`: the names in the table after a registration.
-/

namespace LivingDoc

/-- An operation: its signature and what it does. -/
structure Operation (σ : Type) where
  signature : Signature
  body : σ → List Value → Reply × σ

/-- The operations of a fixture, in the order of registration; one that took the place of another
counts as registered when it did. -/
structure OperationTable (σ : Type) where
  typeName : String
  operations : List (Operation σ)

namespace OperationTable

variable {σ : Type}

def empty (typeName : String) : OperationTable σ := ⟨typeName, []⟩

/-- The names of the operations. -/
def names (t : OperationTable σ) : List String := t.operations.map (·.signature.name)

/-- Register an operation in place of one with the same name (`method`). -/
def register (t : OperationTable σ) (o : Operation σ) : OperationTable σ :=
  { t with
    operations := t.operations.filter (·.signature.name != o.signature.name) ++ [o] }

theorem names_register (t : OperationTable σ) (o : Operation σ) :
    (t.register o).names = t.names.filter (· != o.signature.name) ++ [o.signature.name] := by
  simp [names, register, List.filter_map, Function.comp_def]

def find? (t : OperationTable σ) (name : String) : Option (Operation σ) :=
  t.operations.find? (·.signature.name == name)

def resolve (t : OperationTable σ) (name : String) : Option Signature :=
  (t.find? name).map (·.signature)

/-- Call the operation of that name; without one the call raises an error and leaves the state
alone. -/
def call (t : OperationTable σ) (s : σ) (name : String) (arguments : List Value) : Reply × σ :=
  match t.find? name with
  | some o => o.body s arguments
  | none => (.raised ("no operation named '" ++ name ++ "'") [], s)

def fixture (t : OperationTable σ) : Fixture σ where
  typeName := t.typeName
  resolve _ name := t.resolve name
  call := t.call

end OperationTable

end LivingDoc
