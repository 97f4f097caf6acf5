import LivingDoc.Proofs.Evaluation.Fold

/-!
# What happens at a place

An evaluation is a fold over the places of the tree, so what one step of the fold does is all that
ever happens.  A step looks its command up and runs it once; whatever comes of it, the next step is
taken.

* `Place.performs_step`: the commands below are set up, which changes nothing but variables, then
  the command runs once, evaluates its expression at most once and calls the fixture at most once.
* `Element.evaluates_in_document_order`: so every command of a document runs once, in document
  order, in the state that those before it have left.
-/

namespace LivingDoc

variable {σ : Type}

/-! ## 1. What a command does to the state -/

namespace Command

/-- The command evaluates its expression; the others only read a variable or a reference in it. -/
def evaluates : Command → Bool
  | .set | .link => false
  | .execute | .assertEquals _ | .assertBoolean _ => true

/-- What a command that evaluates its expression says about the result, and nothing else: it does
not see the state. -/
def verdict (c : Command) (e : Element) (expression : String) :
    Except EvaluationFault Value → Option Outcome
  | .error g => some (.exception (g.cause expression))
  | .ok v =>
    match c with
    | .assertEquals matches? =>
      some (if matches? e.textContent v then .success else .failure e.textContent v.display)
    | .assertBoolean expected => some (booleanOutcome expected e expression v)
    | .set | .execute | .link => none

/-- A command that evaluates its expression does that once and nothing else. -/
theorem run_of_evaluates (f : Subject σ) {c : Command} (h : c.evaluates = true) (e : Element)
    (x : String) (s : State σ) :
    c.run f e x s = (c.verdict e x (s.evaluateText f.fixture e x).1,
      (s.evaluateText f.fixture e x).2) := by
  cases c with
  | set => simp [evaluates] at h
  | link => simp [evaluates] at h
  | execute =>
    simp only [run]
    split <;> rename_i ht <;> simp only [ht, verdict]
  | assertEquals matches? =>
    simp only [run]
    split <;> rename_i ht <;> simp only [ht, verdict]
  | assertBoolean expected =>
    simp only [run]
    split <;> rename_i ht <;> simp only [ht, verdict]

theorem run_of_not_evaluates (f : Subject σ) {c : Command} (h : c.evaluates = false) (e : Element)
    (x : String) (s : State σ) :
    (c.run f e x s).2.fixture = s.fixture ∧ (c.run f e x s).2.calls = s.calls := by
  cases c with
  | set =>
    simp only [run]
    split <;> exact ⟨rfl, rfl⟩
  | link =>
    simp only [run]
    split <;> exact ⟨rfl, rfl⟩
  | execute => simp [evaluates] at h
  | assertEquals matches? => simp [evaluates] at h
  | assertBoolean expected => simp [evaluates] at h

theorem setUp_eq (c : Command) (e : Element) (x : String) (s : State σ) :
    c.setUp e x s = { s with vars := (c.setUp e x s).vars } := by
  cases c with
  | set =>
    simp only [setUp]
    split <;> rfl
  | execute => rfl
  | assertEquals matches? => rfl
  | assertBoolean expected => rfl
  | link => rfl

end Command

theorem Invocation.length_calls_invoke_le (f : Fixture σ) (s : σ) (operation : String)
    (as : List Argument) : (invoke f s operation as).calls.length ≤ 1 := by
  unfold invoke
  split
  · exact Nat.zero_le 1
  · split
    · exact Nat.zero_le 1
    · exact Nat.le_refl 1

/-- An expression calls the fixture at most once: arguments are variables and literals.  By
induction on the expression, which is an assignment around one of the others. -/
theorem State.calls_evaluate (f : Fixture σ) (e : Element) (x : Expression) (s : State σ) :
    ∃ calls, (s.evaluate f e x).2.calls = s.calls ++ calls ∧ calls.length ≤ 1 := by
  induction x with
  | var name => exact ⟨[], (List.append_nil _).symm, Nat.zero_le 1⟩
  | literal v => exact ⟨[], (List.append_nil _).symm, Nat.zero_le 1⟩
  | call operation as =>
    exact ⟨_, rfl, Invocation.length_calls_invoke_le f s.fixture operation _⟩
  | assign name x ih =>
    obtain ⟨calls, hcalls, hlength⟩ := ih
    refine ⟨calls, ?_, hlength⟩
    rw [← hcalls, State.evaluate]
    split
    · rename_i ht
      rw [ht]
      rfl
    · rename_i ht
      rw [ht]

/-- Evaluating a text calls the fixture at most once. -/
theorem State.calls_evaluateText (f : Fixture σ) (e : Element) (x : String) (s : State σ) :
    ∃ calls, (s.evaluateText f e x).2.calls = s.calls ++ calls ∧ calls.length ≤ 1 := by
  unfold State.evaluateText
  split
  · exact ⟨[], (List.append_nil _).symm, Nat.zero_le 1⟩
  · exact State.calls_evaluate f e _ s

theorem Command.calls_run (f : Subject σ) (c : Command) (e : Element) (x : String) (s : State σ) :
    ∃ calls, (c.run f e x s).2.calls = s.calls ++ calls ∧ calls.length ≤ 1 := by
  cases h : c.evaluates with
  | true =>
    rw [Command.run_of_evaluates f h]
    exact State.calls_evaluateText f.fixture e x s
  | false =>
    rw [(Command.run_of_not_evaluates f h e x s).2]
    exact ⟨[], (List.append_nil _).symm, Nat.zero_le 1⟩

/-! ## 2. What a step does -/

namespace Place

theorem foldl_setUp (r : Registry) (ps : List Place) (s : State σ) :
    ps.foldl (setUp r) s = { s with vars := (ps.foldl (setUp r) s).vars } := by
  induction ps generalizing s with
  | nil => rfl
  | cons p ps ih =>
    have hp : setUp r s p = { s with vars := (setUp r s p).vars } := by
      unfold setUp
      cases p.request r with
      | none => rfl
      | some q => exact q.command.setUp_eq p.element q.expression s
    rw [List.foldl_cons, ih, hp]

/-- What going on to a place does.  Every field is about this one step; what a whole document does
is a row of steps. -/
structure Performs (r : Registry) (f : Subject σ) (p : Place) (before after : Stage σ) : Prop where
  /-- At an element without a command nothing happens. -/
  idle : p.request r = none → after = before
  /-- Setting up the commands below changes nothing but variables. -/
  prepared : p.ready r before.state =
    { before.state with vars := (p.ready r before.state).vars }
  /-- A command is run once, in the state that is set up, and its outcome is recorded. -/
  run : ∀ q, p.request r = some q →
    after.outcomes = before.outcomes ++ q.recorded p.path
      (q.command.run f p.element q.expression (p.ready r before.state)).1 ∧
    after.state = (q.command.run f p.element q.expression (p.ready r before.state)).2
  /-- To evaluate its expression once is all that a command does that evaluates it, and its outcome
  depends on nothing but the result. -/
  evaluated : ∀ q, p.request r = some q → q.command.evaluates = true → ∃ result,
    (p.ready r before.state).evaluateText f.fixture p.element q.expression =
      (result, after.state) ∧
    after.outcomes = before.outcomes ++
      q.recorded p.path (q.command.verdict p.element q.expression result)
  /-- The other commands leave the fixture alone. -/
  unevaluated : ∀ q, p.request r = some q → q.command.evaluates = false →
    after.state.fixture = before.state.fixture ∧ after.state.calls = before.state.calls
  /-- The fixture is called at most once. -/
  called : ∃ calls, after.state.calls = before.state.calls ++ calls ∧ calls.length ≤ 1

/-- **A step of the fold performs the command of its place.**  Without a command the step is none.
With one, the state that it runs in is the one before it with the variables that were set up. -/
theorem performs_step (r : Registry) (f : Subject σ) (p : Place) (t : Stage σ) :
    p.Performs r f t (p.step r f t) := by
  have prepared : p.ready r t.state = { t.state with vars := (p.ready r t.state).vars } :=
    foldl_setUp r p.below t.state
  cases h : p.request r with
  | none =>
    have hstep : p.step r f t = t := by simp only [step, h]
    rw [hstep]
    exact ⟨fun _ => rfl, prepared, by simp [h], by simp [h], by simp [h],
      [], (List.append_nil _).symm, Nat.zero_le 1⟩
  | some q =>
    have hstep : p.step r f t = ⟨t.outcomes ++ q.recorded p.path
        (q.command.run f p.element q.expression (p.ready r t.state)).1,
        (q.command.run f p.element q.expression (p.ready r t.state)).2⟩ := by
      simp only [step, h]
    have hcalls : (p.ready r t.state).calls = t.state.calls := by rw [prepared]
    have hfixture : (p.ready r t.state).fixture = t.state.fixture := by rw [prepared]
    rw [hstep]
    refine ⟨by simp [h], prepared, ?_, ?_, ?_, ?_⟩
    · intro q' hq
      obtain rfl : q = q' := by simpa [h] using hq
      exact ⟨rfl, rfl⟩
    · intro q' hq hev
      obtain rfl : q = q' := by simpa [h] using hq
      rw [q.command.run_of_evaluates f hev]
      exact ⟨_, rfl, rfl⟩
    · intro q' hq hev
      obtain rfl : q = q' := by simpa [h] using hq
      have hrun := q.command.run_of_not_evaluates f hev p.element q.expression (p.ready r t.state)
      exact ⟨hrun.1.trans hfixture, hrun.2.trans hcalls⟩
    · rw [← hcalls]
      exact q.command.calls_run f p.element q.expression (p.ready r t.state)

end Place

/-! ## 3. The whole document -/

/-- Every command of a document is performed by a step of the fold, in document order. -/
theorem Element.performs_stage (r : Registry) (f : Subject σ) (root : Element) (s : σ)
    (i : Fin root.places.length) :
    root.places[i].Performs r f (root.stage r f s i) (root.stage r f s (i + 1)) := by
  rw [root.stage_succ r f s i]
  exact Place.performs_step r f root.places[i] (root.stage r f s i)

/-- **A document is evaluated in document order, each command once.**  The recursion, and the walk
with one scope and one path, come to what the fold over the places comes to; the commands run are
those the places ask for, whatever their outcomes; and each step does what `Place.Performs` says. -/
theorem Element.evaluates_in_document_order (r : Registry) (f : Subject σ) (root : Element) (s : σ) :
    root.evaluate r f s = ⟨(root.fold r f s).outcomes,
      .ofOutcomes f.resource (root.fold r f s).outcomes, (root.fold r f s).state⟩ ∧
    root.walk r f s = ⟨.empty, [], (root.fold r f s).outcomes,
      root.places.filterMap fun p => (p.request r).map fun q => (p.path, q),
      (root.fold r f s).state⟩ ∧
    root.stage r f s 0 = ⟨[], .start s⟩ ∧
    root.stage r f s root.places.length = root.fold r f s ∧
    ∀ i : Fin root.places.length,
      root.places[i].Performs r f (root.stage r f s i) (root.stage r f s (i + 1)) := by
  refine ⟨root.evaluate_eq_fold r f s, root.walk_eq r f s, rfl, ?_, root.performs_stage r f s⟩
  rw [stage, List.take_length]
  rfl

end LivingDoc
