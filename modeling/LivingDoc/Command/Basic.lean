import LivingDoc.Evaluation.State

/-!
# Commands

What an element of a document can ask for: the built-in commands (specification, 4.2).  A command
runs for its element in the state of the evaluation, and has an outcome only if there is something
to be seen.  Before the command of an element runs, the commands inside the element are set up: that
is how a text further down can be an argument further up.
-/

namespace LivingDoc

/-- A command.  A custom command is one of these under another matcher. -/
inductive Command where
  /-- Store the text of the element in a variable. -/
  | set
  /-- Evaluate the expression for what it does. -/
  | execute
  /-- The value of the expression has to be what the text of the element expects. -/
  | assertEquals (comparator : Comparator)
  /-- The value of the expression has to be this truth value. -/
  | assertBoolean (expected : Bool)
  /-- The document has a link to another one. -/
  | link

namespace Command

def name : Command → String
  | .set => "set"
  | .execute => "execute"
  | .assertEquals _ => "assertEquals"
  | .assertBoolean true => "assertTrue"
  | .assertBoolean false => "assertFalse"
  | .link => "link"

/-- The variable that an expression of a `set` command names (`target_variable`): the expression has
to be a variable and nothing more. -/
def targetVariable (expression : String) : Except Cause String :=
  match Expression.read expression with
  | .ok (.var name) => .ok name
  | .ok _ => .error ⟨expression, "set expects a variable such as #name", []⟩
  | .error f => .error ⟨expression, f.message, []⟩

/-- The first of the two references that is not blank: the value of a `link` attribute, or else the
`href` of the element. -/
def reference? (expression : String) (href : Option String) : Option String :=
  let own := Text.trimmed expression
  if own.isEmpty then (href.map Text.trimmed).filter (!·.isEmpty) else some own

variable {σ : Type}

/-- Set a command up inside the element of another.  Only `set` does something then, and it stays
silent about an expression it cannot use: the fault is reported when the command itself runs. -/
def setUp (c : Command) (e : Element) (expression : String) (s : State σ) : State σ :=
  match c with
  | .set =>
    match targetVariable expression with
    | .ok name => s.setVariable name e.textValue
    | .error _ => s
  | _ => s

/-- The outcome of a comparison with a truth value: a value without one is an exception and not a
failure. -/
def booleanOutcome (expected : Bool) (e : Element) (expression : String) (v : Value) : Outcome :=
  match v.asBool? with
  | some b =>
    if b = expected then .success
    else .failure e.textContent ("== " ++ if b then "true" else "false")
  | none =>
    .exception ⟨expression, "expected a boolean but got " ++ v.kind ++ " '" ++ v.display ++ "'", []⟩

/-- Run a command for an element: the `execute` of each command.  A `set` and a `link` that succeed
and an `execute` that completes have no outcome; an assertion always has one. -/
def run (f : Subject σ) (c : Command) (e : Element) (expression : String) (s : State σ) :
    Option Outcome × State σ :=
  match c with
  | .set =>
    match targetVariable expression with
    | .ok name => (none, s.setVariable name e.textValue)
    | .error cause => (some (.exception cause), s)
  | .execute =>
    match s.evaluateText f.fixture e expression with
    | (.ok _, t) => (none, t)
    | (.error g, t) => (some (.exception (g.cause expression)), t)
  | .assertEquals matches? =>
    match s.evaluateText f.fixture e expression with
    | (.ok v, t) =>
      (some (if matches? e.textContent v then .success else .failure e.textContent v.display), t)
    | (.error g, t) => (some (.exception (g.cause expression)), t)
  | .assertBoolean expected =>
    match s.evaluateText f.fixture e expression with
    | (.ok v, t) => (some (booleanOutcome expected e expression v), t)
    | (.error g, t) => (some (.exception (g.cause expression)), t)
  | .link =>
    match reference? expression (e.attribute? "href") with
    | some r => (none, s.addLink (f.resource.resolve r) f.resource)
    | none => (some (.exception ⟨expression, "link has no target", []⟩), s)

end Command

end LivingDoc
