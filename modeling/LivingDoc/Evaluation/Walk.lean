import LivingDoc.Command.Registry
import LivingDoc.Summary

/-!
# Evaluating a document

The walk visits the elements of a document in document order (specification, 4.4: "depth-first,
pre-order, left-to-right").  At an element with a command the commands of its descendants are set up
first, and then the command runs; afterwards the walk goes on inside the element, whatever the
command came to.  So a nested command is set up by every command around it and runs once.

The evaluator keeps its scope and its path on stacks that it pushes and pops; here both are
arguments of the recursion, so there is nothing to restore.

* `Evaluation.summary_own`: the tallies count the recorded outcomes.
-/

namespace LivingDoc

variable {σ : Type}

/-! ## 1. Setting up -/

mutual
/-- Set up the command of a child and those inside it, in document order: the evaluator's `set_up`,
the pass that the glossary calls the set-up phase.  It enters every element below, with a command or
without, and resolves each command in the scope of its own element. -/
def Node.setUp (r : Registry) (scope : Scope) : Node → State σ → State σ
  | .text _, s => s
  | .element n as cs, s =>
    let e : Element := ⟨n, as, cs⟩
    let inner := scope.push e
    let t := match r.resolve e inner with
      | some q => q.command.setUp e q.expression s
      | none => s
    Node.setUpAll r inner cs t
/-- Set up the commands of children from left to right. -/
def Node.setUpAll (r : Registry) (scope : Scope) : List Node → State σ → State σ
  | [], s => s
  | n :: rest, s => Node.setUpAll r scope rest (n.setUp r scope s)
end

/-! ## 2. Visiting -/

/-- Run the command of an element, if it has one; `scope` has the element on it.  The set-up phase
of the element's descendants comes first.  It is what the evaluator does at one element, and the
only place where outcomes are recorded. -/
def Element.perform (r : Registry) (f : Subject σ) (scope : Scope) (path : List Nat) (e : Element)
    (s : State σ) : List Recorded × State σ :=
  match r.resolve e scope with
  | none => ([], s)
  | some q =>
    let (outcome, t) := q.command.run f e q.expression (Node.setUpAll r scope e.children s)
    ((outcome.map fun o => ⟨path, q.command.name, q.expression, o⟩).toList, t)

mutual
/-- Visit a child at a path: the evaluator's `visit`.  Its own command comes before what is inside
it, and nothing that a command does keeps the walk from going on. -/
def Node.visit (r : Registry) (f : Subject σ) (scope : Scope) (path : List Nat) :
    Node → State σ → List Recorded × State σ
  | .text _, s => ([], s)
  | .element n as cs, s =>
    let e : Element := ⟨n, as, cs⟩
    let inner := scope.push e
    let (own, t) := e.perform r f inner path s
    let (nested, u) := Node.visitAll r f inner path 0 cs t
    (own ++ nested, u)
/-- Visit the children of the element at a path, from the one with this index on. -/
def Node.visitAll (r : Registry) (f : Subject σ) (scope : Scope) (path : List Nat) (index : Nat) :
    List Node → State σ → List Recorded × State σ
  | [], s => ([], s)
  | n :: rest, s =>
    let (first, t) := n.visit r f scope (path ++ [index]) s
    let (others, u) := Node.visitAll r f scope path (index + 1) rest t
    (first ++ others, u)
end

/-! ## 3. Evaluations -/

/-- What an evaluation gives: the outcomes in document order, the summary without links, and the
state behind the last command. -/
structure Evaluation (σ : Type) where
  outcomes : List Recorded
  summary : Summary
  state : State σ

/-- The summary of outcomes: each is recorded once, by its kind. -/
def Summary.ofOutcomes (resource : Resource) (outcomes : List Recorded) : Summary :=
  outcomes.foldl (fun s o => s.record o.outcome.status) (.start resource)

/-- Evaluate a document against a fixture in a state: `evaluate`, from an empty scope and the empty
path. -/
def Element.evaluate (r : Registry) (f : Subject σ) (root : Element) (s : σ) : Evaluation σ :=
  let (outcomes, t) := root.node.visit r f .empty [] (.start s)
  ⟨outcomes, .ofOutcomes f.resource outcomes, t⟩

def Evaluation.links (v : Evaluation σ) : List Link := v.state.links

@[simp] theorem Summary.resource_ofOutcomes (r : Resource) (outcomes : List Recorded) :
    (Summary.ofOutcomes r outcomes).resource = r := by
  have keep : ∀ (os : List Recorded) (s : Summary),
      (os.foldl (fun s o => s.record o.outcome.status) s).resource = s.resource := by
    intro os
    induction os with
    | nil => intro s; rfl
    | cons o os ih => intro s; exact ih (s.record o.outcome.status)
  exact keep outcomes (.start r)

@[simp] theorem Element.resource_evaluate (r : Registry) (f : Subject σ) (root : Element) (s : σ) :
    (root.evaluate r f s).summary.resource = f.resource := by
  simp [Element.evaluate]

/-- Recording outcomes adds each kind up.  By induction on the outcomes, with the summary they are
recorded in left open. -/
theorem Summary.own_foldl_record (outcomes : List Recorded) (s : Summary) :
    (outcomes.foldl (fun s o => s.record o.outcome.status) s).own =
      s.own.add ⟨outcomes.countP (·.outcome.status == .success),
        outcomes.countP (·.outcome.status == .failure),
        outcomes.countP (·.outcome.status == .exception)⟩ := by
  induction outcomes generalizing s with
  | nil => simp [Counts.add]
  | cons o os ih =>
    rw [List.foldl_cons, ih]
    cases h : o.outcome.status <;>
      simp [Summary.record, Counts.record, Counts.add, h, Nat.add_assoc, Nat.add_comm]

/-- **The tallies count the recorded outcomes, kind by kind.** -/
theorem Evaluation.summary_own (r : Registry) (f : Subject σ) (root : Element) (s : σ) :
    (root.evaluate r f s).summary.own =
      ⟨(root.evaluate r f s).outcomes.countP (·.outcome.status == .success),
        (root.evaluate r f s).outcomes.countP (·.outcome.status == .failure),
        (root.evaluate r f s).outcomes.countP (·.outcome.status == .exception)⟩ := by
  simp [Element.evaluate, Summary.ofOutcomes, Summary.own_foldl_record, Summary.start, Counts.add,
    Counts.zero]

end LivingDoc
