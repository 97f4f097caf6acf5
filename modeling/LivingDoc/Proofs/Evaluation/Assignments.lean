import LivingDoc.Evaluation.State
import LivingDoc.Proofs.Expression.Reading

/-!
# What an expression leaves behind

Evaluating an expression may call the fixture, and whatever that answers may be stored in a
variable.  The value is stored last, when nothing can go wrong any more: so an expression that fails
leaves no trace in the document, and one that does not changes the variable that it assigns to and
no other.  The variable for the text of the element is no place to keep a value; it always reads as
that text.

* `State.get?_evaluate`, `State.vars_evaluate_of_error`: an expression changes its targets if it has
  a value, and nothing if not.
* `State.evaluateText_variable`: what a variable reads as.
* `State.evaluateText_leaves`: what follows for the texts of expressions.
-/

namespace LivingDoc

/-! ## 1. Targets -/

namespace Expression

/-- The variables that an expression assigns to.  An expression that was read has one at most; the
type allows more. -/
def targets : Expression → List String
  | .assign name x => name :: targets x
  | .var _ | .literal _ | .call _ _ => []

theorem DerivesValue.targets_eq {cs : List Char} {x : Expression} (h : DerivesValue cs x) :
    x.targets = [] := by
  cases h <;> rfl

/-- A text assigns to one variable at most, whose name is an identifier. -/
theorem targets_of_read {text : String} {x : Expression} (h : read text = .ok x) :
    x.targets = [] ∨ ∃ name value, IsIdentifier name.toList ∧ value.targets = [] ∧
      x = .assign name value := by
  have hderives := readChars_eq_ok_iff.mp h
  generalize text.toList = cs at hderives
  cases hderives with
  | value _ hvalue => exact .inl hvalue.targets_eq
  | assign _ identifier _ _ hvalue =>
    refine .inr ⟨_, _, ?_, hvalue.targets_eq, rfl⟩
    rw [String.toList_ofList]
    exact identifier

theorem read_variable {name : String} (h : IsIdentifier name.toList) :
    read ("#" ++ name) = .ok (.var name) := by
  have hvalue : Derives ([] ++ '#' :: name.toList ++ []) (.var (String.ofList name.toList)) :=
    .value (by simp [Text.AllBlank]) (.var h) (by simp [Text.AllBlank])
  have hchars : ("#" ++ name).toList = [] ++ '#' :: name.toList ++ [] := by
    rw [String.toList_append, List.nil_append, List.append_nil]
    rfl
  rw [read, hchars, hvalue.readChars_eq, String.ofList_toList]

end Expression

/-! ## 2. Evaluating -/

namespace State

variable {σ : Type}

theorem links_evaluate (f : Fixture σ) (e : Element) (x : Expression) (s : State σ) :
    (s.evaluate f e x).2.links = s.links := by
  induction x with
  | var | literal | call => rfl
  | assign name x ih =>
    rw [evaluate]
    split <;> rename_i hx <;> rw [hx] at ih <;> exact ih

/-- **An expression that fails leaves the variables alone.**  By induction on the expression: an
assignment fails only if what it assigns does, and it stores nothing then. -/
theorem vars_evaluate_of_error {f : Fixture σ} {e : Element} {x : Expression} {s : State σ}
    {g : EvaluationFault} (h : (s.evaluate f e x).1 = .error g) :
    (s.evaluate f e x).2.vars = s.vars := by
  induction x generalizing g with
  | var | literal | call => rfl
  | assign name x ih =>
    rw [evaluate] at h ⊢
    split at h
    case h_1 => exact absurd h (by simp)
    case h_2 g' t hx =>
      rw [hx] at ih
      exact ih rfl

theorem vars_evaluate_of_targets {f : Fixture σ} {e : Element} {x : Expression} {s : State σ}
    (h : x.targets = []) : (s.evaluate f e x).2.vars = s.vars := by
  cases x with
  | var | literal | call => rfl
  | assign name x => exact absurd h (List.cons_ne_nil _ _)

/-- **An expression that has a value leaves it in its targets**, and the other variables alone.  By
induction on the expression; all targets get the one value. -/
theorem get?_evaluate {f : Fixture σ} {e : Element} {x : Expression} {s : State σ} {v : Value}
    (h : (s.evaluate f e x).1 = .ok v) (y : String) :
    (s.evaluate f e x).2.vars.get? y = if y ∈ x.targets then some v else s.vars.get? y := by
  induction x generalizing v with
  | var | literal | call => rfl
  | assign name x ih =>
    rw [evaluate] at h ⊢
    split at h
    case h_2 => exact absurd h (by simp)
    case h_1 w t hx =>
      obtain rfl := Except.ok.inj h
      rw [hx] at ih
      rw [setVariable, Variables.get?_set, ih rfl, Expression.targets]
      simp only [List.mem_cons]
      by_cases hy : y = name <;> simp [hy]

/-! ## 3. The texts of expressions -/

/-- **A variable reads as what is in it**, or as the text of the element, and nothing changes. -/
theorem evaluateText_variable (f : Fixture σ) (e : Element) {name : String}
    (h : Expression.IsIdentifier name.toList) (s : State σ) :
    s.evaluateText f e ("#" ++ name) = (.ok (s.vars.read e name), s) := by
  rw [evaluateText, Expression.read_variable h]
  rfl

theorem evaluateText_of_fault (f : Fixture σ) (e : Element) (s : State σ) {text : String}
    {g : Expression.Fault} (h : Expression.read text = .error g) :
    s.evaluateText f e text = (.error (.expression g), s) := by
  rw [evaluateText, h]

theorem evaluateText_of_read (f : Fixture σ) (e : Element) (s : State σ) {text : String}
    {x : Expression} (h : Expression.read text = .ok x) :
    s.evaluateText f e text = s.evaluate f e x := by
  rw [evaluateText, h]

theorem links_evaluateText (f : Fixture σ) (e : Element) (text : String) (s : State σ) :
    (s.evaluateText f e text).2.links = s.links := by
  cases hread : Expression.read text with
  | error g => rw [evaluateText_of_fault f e s hread]
  | ok x => rw [evaluateText_of_read f e s hread, links_evaluate]

theorem vars_evaluateText_of_error {f : Fixture σ} {e : Element} {text : String} {s : State σ}
    {g : EvaluationFault} (h : (s.evaluateText f e text).1 = .error g) :
    (s.evaluateText f e text).2.vars = s.vars := by
  cases hread : Expression.read text with
  | error => rw [evaluateText_of_fault f e s hread]
  | ok x =>
    rw [evaluateText_of_read f e s hread] at h ⊢
    exact vars_evaluate_of_error h

/-- A text that is no assignment leaves the variables alone. -/
theorem vars_evaluateText_of_plain (f : Fixture σ) (e : Element) {text : String} (s : State σ)
    (h : ∀ name value, Expression.read text ≠ .ok (.assign name value)) :
    (s.evaluateText f e text).2.vars = s.vars := by
  cases hread : Expression.read text with
  | error => rw [evaluateText_of_fault f e s hread]
  | ok x =>
    rw [evaluateText_of_read f e s hread]
    rcases Expression.targets_of_read hread with hnone | ⟨name, value, -, -, rfl⟩
    · exact vars_evaluate_of_targets hnone
    · exact absurd hread (h name value)

/-- What the evaluation of a text for an element leaves of the state that it began in.  The fixture
is not in it: a call that failed may have changed it. -/
structure Leaves (f : Fixture σ) (text : String) (s : State σ)
    (r : Except EvaluationFault Value × State σ) : Prop where
  /-- No link is found. -/
  links : r.2.links = s.links
  /-- If it fails, the variables are as before. -/
  failed : ∀ g, r.1 = .error g → r.2.vars = s.vars
  /-- If it is a variable, a literal or a call, they are too. -/
  plain : (∀ name value, Expression.read text ≠ .ok (.assign name value)) → r.2.vars = s.vars
  /-- If it assigns to a variable and has a value, that variable holds the value, and the others are as
  before. -/
  assigned : ∀ name value v, Expression.read text = .ok (.assign name value) → r.1 = .ok v →
    r.2.vars.get? name = some v ∧ ∀ other, other ≠ name → r.2.vars.get? other = s.vars.get? other
  /-- The variable then reads as that value for every element, unless it is the one that always reads
  as the text of the element. -/
  readBack : ∀ name value v, Expression.read text = .ok (.assign name value) → r.1 = .ok v →
    ∀ d : Element, r.2.evaluateText f d ("#" ++ name)
      = (.ok (if name = textVariable then .text (Text.normalized d.textContent) else v), r.2)

/-- What an assignment leaves, if it has a value. -/
theorem get?_evaluateText_of_assign {f : Fixture σ} {e : Element} {s : State σ}
    {text name : String} {value : Expression} {v : Value}
    (hread : Expression.read text = .ok (.assign name value))
    (h : (s.evaluateText f e text).1 = .ok v) (other : String) :
    (s.evaluateText f e text).2.vars.get? other
      = if other = name then some v else s.vars.get? other := by
  rw [evaluateText_of_read f e s hread] at h ⊢
  rw [get?_evaluate h]
  rcases Expression.targets_of_read hread with hnone | ⟨name', value', -, hvalue, heq⟩
  · exact absurd hnone (List.cons_ne_nil _ _)
  · obtain ⟨rfl, rfl⟩ := Expression.assign.inj heq
    simp only [Expression.targets, hvalue, List.mem_singleton]

/-- Behind an assignment the variable reads as the value, if it is not the special one, and for
whatever element it is read. -/
theorem evaluateText_of_assigned {f : Fixture σ} {e : Element} {s : State σ}
    {text name : String} {value : Expression} {v : Value}
    (hread : Expression.read text = .ok (.assign name value))
    (h : (s.evaluateText f e text).1 = .ok v) (d : Element) :
    (s.evaluateText f e text).2.evaluateText f d ("#" ++ name)
      = (.ok (if name = textVariable then .text (Text.normalized d.textContent) else v),
        (s.evaluateText f e text).2) := by
  have hidentifier : Expression.IsIdentifier name.toList := by
    rcases Expression.targets_of_read hread with hnone | ⟨name', value', hname, -, heq⟩
    · exact absurd hnone (List.cons_ne_nil _ _)
    · obtain ⟨rfl, rfl⟩ := Expression.assign.inj heq
      exact hname
  rw [evaluateText_variable f d hidentifier, Variables.read,
    get?_evaluateText_of_assign hread h, if_pos rfl, Value.ofOption, Element.textValue]

/-- **An expression that fails leaves no trace, and one that does not changes one variable at
most.** The special variable reads as the text of the element, whatever was assigned to it. -/
theorem evaluateText_leaves (f : Fixture σ) (e : Element) (text : String) (s : State σ) :
    Leaves f text s (s.evaluateText f e text) ∧
      ∀ (d : Element) (t : State σ),
        t.evaluateText f d ("#" ++ textVariable)
          = (.ok (.text (Text.normalized d.textContent)), t) := by
  refine ⟨⟨links_evaluateText f e text s, fun _ => vars_evaluateText_of_error,
    vars_evaluateText_of_plain f e s, ?_, ?_⟩, ?_⟩
  · intro name value v hread hvalue
    have hget := get?_evaluateText_of_assign hread hvalue
    exact ⟨(hget name).trans (if_pos rfl), fun other hne => (hget other).trans (if_neg hne)⟩
  · intro name value v hread hvalue
    exact evaluateText_of_assigned hread hvalue
  · intro d t
    have hidentifier : Expression.IsIdentifier textVariable.toList :=
      ⟨by decide, List.all_eq_true.mp (by decide)⟩
    rw [evaluateText_variable f d hidentifier, Variables.read, if_pos rfl, Element.textValue]

-- An operation that breaks down after it has changed the fixture: nothing is stored.
example : (evaluateText ⟨"a", fun _ _ => some ⟨"f", []⟩, fun n _ _ => (.panicked none, n + 1)⟩
    ⟨"p", [], []⟩ "#x = f()" (.start 0)).2 = ⟨1, .empty, [], [⟨"a", "f", []⟩]⟩ := by
  rfl

end State

end LivingDoc
