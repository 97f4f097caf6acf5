import LivingDoc.Expression.Reader
import LivingDoc.Fixture.Invocation
import LivingDoc.Markup.Element
import LivingDoc.Outcome
import LivingDoc.Resource

/-!
# The state of an evaluation

While a document is evaluated its commands share variables, the links found so far, and the state of
the fixture: the evaluation context.  Expressions are evaluated in that state for an element, whose
text is the value of one special variable (specification, 4.2, the expression language).

* `Variables.get?_set`: a variable holds what it was last set to.
* `evaluate` changes the variables only by an assignment that succeeds.
-/

namespace LivingDoc

/-! ## 1. Variables -/

/-- The values of variables; what is not among them is not set. -/
structure Variables where
  entries : List (String × Value)
deriving DecidableEq, Repr

namespace Variables

def empty : Variables := ⟨[]⟩

def get? (vs : Variables) (name : String) : Option Value := vs.entries.lookup name

def set (vs : Variables) (name : String) (v : Value) : Variables :=
  ⟨(name, v) :: vs.entries.filter (·.1 != name)⟩

/-- A variable holds what it was last set to, and setting it leaves the others alone.  By induction
on the entries that `set` keeps. -/
theorem get?_set (vs : Variables) (name other : String) (v : Value) :
    (vs.set name v).get? other = if other = name then some v else vs.get? other := by
  unfold set get?
  by_cases h : other = name
  · simp [h]
  · have hne : (other == name) = false := by simpa using h
    simp only [List.lookup_cons, hne, h, if_false]
    induction vs.entries with
    | nil => rfl
    | cons e es ih =>
      obtain ⟨k, w⟩ := e
      by_cases hk : k = name
      · have hb : (other == k) = false := by simpa [hk] using h
        simp [hk, ih, List.lookup_cons, hne]
      · cases ho : other == k <;> simp [hk, List.lookup_cons, ho, ih]

end Variables

/-! ## 2. The state -/

/-- A link from one document to another. -/
structure Link where
  target : Resource
  source : Resource
deriving DecidableEq, Repr

/-- What a document is evaluated against: the fixture, and the resource of the document. -/
structure Subject (σ : Type) where
  fixture : Fixture σ
  resource : Resource

/-- What the commands of a document share: the state of the fixture, the variables, the links
found, and the calls made. -/
structure State (σ : Type) where
  fixture : σ
  vars : Variables
  links : List Link
  calls : List Call

def State.start {σ : Type} (s : σ) : State σ := ⟨s, .empty, [], []⟩

namespace State

variable {σ : Type}

def setVariable (s : State σ) (name : String) (v : Value) : State σ :=
  { s with vars := s.vars.set name v }

def addLink (s : State σ) (target source : Resource) : State σ :=
  { s with links := s.links ++ [⟨target, source⟩] }

def clearLinks (s : State σ) : State σ := { s with links := [] }

end State

/-! ## 3. Evaluating expressions -/

/-- The variable whose value is the text of the element: `#TEXT`. -/
def textVariable : String := "TEXT"

/-- The text of an element as a value: its normalized text content. -/
def Element.textValue (e : Element) : Value := .text (Text.normalized e.textContent)

/-- The value of a variable for an element (`lookup`).  `#TEXT` is always the text of the element,
even if something was stored under that name; a variable that is not set reads as null. -/
def Variables.read (vs : Variables) (e : Element) (name : String) : Value :=
  if name = textVariable then e.textValue else Value.ofOption (vs.get? name)

/-- The value of an operand for an element. -/
def Variables.operand (vs : Variables) (e : Element) : Operand → Value
  | .var name => vs.read e name
  | .literal v => v

def Variables.argument (vs : Variables) (e : Element) (a : WrittenArgument) : Argument :=
  ⟨a.name, vs.operand e a.operand⟩

/-- Why an expression has no value: the text is none, or the operation it calls gave no value. -/
inductive EvaluationFault where
  | expression (f : Expression.Fault)
  | invocation (f : Invocation.Fault)
deriving DecidableEq, Repr

namespace EvaluationFault

def message : EvaluationFault → String
  | .expression f => f.message
  | .invocation f => f.message

def context : EvaluationFault → List String
  | .expression _ => []
  | .invocation f => f.context

/-- The fault as the cause of an exception of a command with this expression (`into_cause`). -/
def cause (f : EvaluationFault) (expression : String) : Cause :=
  ⟨expression, f.message, f.context⟩

end EvaluationFault

namespace State

variable {σ : Type}

/-- Evaluate an expression for an element.  The arguments of a call are read before the call; an
assignment stores the value of its right side, and stores nothing if that has none. -/
def evaluate (f : Fixture σ) (e : Element) :
    Expression → State σ → Except EvaluationFault Value × State σ
  | .var name, s => (.ok (s.vars.read e name), s)
  | .literal v, s => (.ok v, s)
  | .call operation as, s =>
    let r := Invocation.invoke f s.fixture operation (as.map (s.vars.argument e))
    (r.result.mapError .invocation, { s with fixture := r.state, calls := s.calls ++ r.calls })
  | .assign name x, s =>
    match evaluate f e x s with
    | (.ok v, t) => (.ok v, t.setVariable name v)
    | (.error g, t) => (.error g, t)

/-- Read an expression and evaluate it for an element (`evaluate_str`).  A text that is no
expression leaves the state as it is; parse errors are "Exception outcomes, not fatal"
(specification, 4.2). -/
def evaluateText (f : Fixture σ) (e : Element) (text : String) (s : State σ) :
    Except EvaluationFault Value × State σ :=
  match Expression.read text with
  | .error g => (.error (.expression g), s)
  | .ok x => s.evaluate f e x

end State

end LivingDoc
