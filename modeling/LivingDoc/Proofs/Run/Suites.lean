import LivingDoc.Proofs.Run.Ports
import LivingDoc.Run.Suite

/-!
# What a suite comes to

A suite runs its cases one after another on one source and one target, and counts what comes of
them.  What a case comes to does not depend on the cases before it, so the result counts the cases
of each kind: those that pass, those that fail and may, and those that fail and may not.

* `Runner.runSuite_eq`: the tallies are the numbers of cases of each kind.
* `Runner.suiteOn_eq`: run on one source and one target, whatever they have seen, the cases come to
  these tallies.
* `Runner.suites_add_up`: so two suites in a row add up, the order of cases does not matter, and a
  suite succeeds exactly if an entry is there for each case that fails.
-/

namespace LivingDoc

/-! ## 1. Tallies -/

namespace SuiteResult

/-- The tallies of two suites together. -/
def add (t u : SuiteResult) : SuiteResult :=
  ⟨t.total + u.total, t.passed + u.passed, t.expectedFailures + u.expectedFailures,
    t.regressions + u.regressions⟩

theorem zero_add (t : SuiteResult) : zero.add t = t := by
  simp only [add, zero, Nat.zero_add]

theorem add_assoc (t u v : SuiteResult) : (t.add u).add v = t.add (u.add v) := by
  simp only [add, Nat.add_assoc]

/-- Count a document by what came of it: it passes if it is satisfied, and else its failure is
expected or is a regression. -/
def count (x : Expectations) (r : Resource) (t : SuiteResult) :
    Except RunError Summary → SuiteResult
  | .ok s => if s.isSatisfied then t.recordPass else t.recordFailure (x.classify r)
  | .error _ => t.recordFailure (x.classify r)

theorem success_iff (t : SuiteResult) : t.success = true ↔ t.regressions = 0 := by
  simp [success]

theorem exitCode_eq_zero_iff (t : SuiteResult) : t.exitCode = 0 ↔ t.success = true := by
  unfold exitCode
  cases t.success <;> decide

end SuiteResult

theorem Expectations.classify_ne_regression_iff (x : Expectations) (r : Resource) :
    x.classify r ≠ .regression ↔ ∃ e ∈ x.known ++ x.pending, e.resource = r := by
  rw [ne_eq, classify_eq_regression_iff, find?, List.find?_eq_none]
  simp

namespace Runner

variable {σ : Type}

/-! ## 2. Cases of each kind -/

/-- The run of a case is an error, or its document is not satisfied. -/
def Fails (u : Runner σ) (c : SuiteCase σ) : Prop :=
  (∃ e, (u.runCase c).result = .error e) ∨
    ∃ s, (u.runCase c).result = .ok s ∧ s.isSatisfied = false

theorem passes_eq_false_iff (u : Runner σ) (c : SuiteCase σ) :
    passes (u.runCase c) = false ↔ u.Fails c := by
  unfold passes Fails
  cases (u.runCase c).result <;> simp

/-- The case fails, and there is an entry for its document. -/
def failsExpected (u : Runner σ) (x : Expectations) (c : SuiteCase σ) : Bool :=
  !passes (u.runCase c) && x.classify (u.caseResource c) != .regression

/-- The case fails, and there is no entry for its document. -/
def failsUnexpected (u : Runner σ) (x : Expectations) (c : SuiteCase σ) : Bool :=
  !passes (u.runCase c) && x.classify (u.caseResource c) == .regression

/-- How many cases of each kind there are. -/
def tallies (u : Runner σ) (x : Expectations) (cases : List (SuiteCase σ)) : SuiteResult :=
  ⟨cases.length, cases.countP fun c => passes (u.runCase c), cases.countP (u.failsExpected x),
    cases.countP (u.failsUnexpected x)⟩

theorem tallies_append (u : Runner σ) (x : Expectations) (as bs : List (SuiteCase σ)) :
    u.tallies x (as ++ bs) = (u.tallies x as).add (u.tallies x bs) := by
  simp only [tallies, SuiteResult.add, List.length_append, List.countP_append]

theorem countCase_eq (u : Runner σ) (x : Expectations) (t : SuiteResult) (c : SuiteCase σ) :
    u.countCase x t c = t.add (u.tallies x [c]) := by
  unfold countCase tallies failsExpected failsUnexpected
  simp only [List.countP_singleton, List.length_singleton]
  cases passes (u.runCase c) with
  | true => rfl
  | false => cases x.classify (u.caseResource c) <;> rfl

/-- **A suite counts its cases, each under its kind.**  Counting adds to what is there, so it is
induction on the cases from any tallies. -/
theorem runSuite_eq (u : Runner σ) (x : Expectations) (cases : List (SuiteCase σ)) :
    u.runSuite x cases = u.tallies x cases := by
  have fold : ∀ t : SuiteResult, cases.foldl (u.countCase x) t = t.add (u.tallies x cases) := by
    induction cases with
    | nil => intro t; rfl
    | cons c cases ih =>
      intro t
      rw [List.foldl_cons, ih, countCase_eq, SuiteResult.add_assoc, ← tallies_append,
        List.singleton_append]
  exact (fold .zero).trans (SuiteResult.zero_add _)

/-- Every case is of one kind, so the three kinds make the total. -/
theorem total_tallies (u : Runner σ) (x : Expectations) (cases : List (SuiteCase σ)) :
    (u.tallies x cases).total = (u.tallies x cases).passed +
      (u.tallies x cases).expectedFailures + (u.tallies x cases).regressions := by
  induction cases with
  | nil => rfl
  | cons c cases ih =>
    have hcase : (u.tallies x [c]).total = (u.tallies x [c]).passed +
        (u.tallies x [c]).expectedFailures + (u.tallies x [c]).regressions := by
      unfold tallies failsExpected failsUnexpected
      simp only [List.countP_singleton, List.length_singleton]
      cases passes (u.runCase c) with
      | true => rfl
      | false => cases x.classify (u.caseResource c) <;> rfl
    rw [← List.singleton_append, tallies_append]
    simp only [SuiteResult.add, ih, hcase]
    omega

/-! ## 3. Cases on one source and one target -/

/-- Run the cases of a suite one after another and count them, on the ports that the case before has
left. -/
def suiteOn (u : Runner σ) (x : Expectations) (cases : List (SuiteCase σ)) : OnPorts SuiteResult :=
  cases.foldlM (fun t c => do
    let result ← u.processOn (u.source.documents.entries.length + 1) [] (u.caseResource c) c.fixture
      c.state
    return t.count x (u.caseResource c) result) .zero

theorem countCase_eq_count (u : Runner σ) (x : Expectations) (t : SuiteResult) (c : SuiteCase σ) :
    u.countCase x t c = t.count x (u.caseResource c) (u.runCase c).result := by
  unfold countCase passes SuiteResult.count
  cases (u.runCase c).result with
  | error e => rfl
  | ok s => rfl

/-- **What a case comes to does not depend on the cases before it.**  By induction on the cases:
each runs on ports that serve the documents, and leaves such ports. -/
theorem suiteOn_eq (u : Runner σ) (x : Expectations) (cases : List (SuiteCase σ)) :
    u.Comes (u.suiteOn x cases) (u.runSuite x cases) (u.suiteEvents cases) := by
  have hcase (c : SuiteCase σ) :
      u.Comes (u.processOn (u.source.documents.entries.length + 1) [] (u.caseResource c) c.fixture
        c.state) (u.runCase c).result (u.runCase c).events :=
    u.processOn_eq _ [] (Nat.lt_succ_of_le List.countP_le_length) _ _ _ List.not_mem_nil
  unfold suiteOn runSuite
  generalize SuiteResult.zero = t
  induction cases generalizing t with
  | nil => exact .pure t
  | cons c cases ih =>
    rw [List.foldlM_cons, List.foldl_cons, countCase_eq_count]
    exact ((hcase c).map _).bind (ih _)

/-! ## 4. What suites come to -/

theorem tallies_perm (u : Runner σ) (x : Expectations) {as bs : List (SuiteCase σ)}
    (h : as.Perm bs) : u.tallies x as = u.tallies x bs := by
  simp only [tallies, h.length_eq, h.countP_eq]

/-- A suite succeeds exactly if there is an entry for the document of each case that fails. -/
theorem success_runSuite_iff (u : Runner σ) (x : Expectations) (cases : List (SuiteCase σ)) :
    (u.runSuite x cases).success = true ↔ ∀ c ∈ cases, u.Fails c →
      ∃ e ∈ x.known ++ x.pending, e.resource = u.caseResource c := by
  rw [SuiteResult.success_iff, runSuite_eq, tallies, List.countP_eq_zero]
  refine forall₂_congr fun c _ => ?_
  rw [← x.classify_ne_regression_iff, ← u.passes_eq_false_iff, failsUnexpected]
  cases passes (u.runCase c) <;> simp

/-- What is to be said of the suites of a runner, with the failures that are expected. -/
structure SuitesAddUp (u : Runner σ) (x : Expectations) : Prop where
  /-- Cases that are run one after another on one source and one target come to the same whatever
  was asked for and stored before, and leave there what each of them asks for and stores. -/
  independent : ∀ cases requested target,
    u.suiteOn x cases ⟨⟨u.source.documents, requested⟩, target⟩ = some (u.runSuite x cases,
      Ports.after ⟨⟨u.source.documents, requested⟩, target⟩ (u.suiteEvents cases))
  /-- On new ports that is what the events of the suite say. -/
  new : ∀ cases, u.suiteOn x cases ⟨.ofDocuments u.source.documents, .empty⟩ =
    some (u.runSuite x cases, ⟨Event.source u.source.documents (u.suiteEvents cases),
      Event.target (u.suiteEvents cases)⟩)
  /-- Each case counts under one kind. -/
  counted : ∀ cases, u.runSuite x cases = ⟨cases.length,
    cases.countP fun c => passes (u.runCase c), cases.countP (u.failsExpected x),
    cases.countP (u.failsUnexpected x)⟩
  total : ∀ cases, (u.runSuite x cases).total = cases.length ∧
    (u.runSuite x cases).total = (u.runSuite x cases).passed +
      (u.runSuite x cases).expectedFailures + (u.runSuite x cases).regressions
  append : ∀ as bs, u.runSuite x (as ++ bs) = (u.runSuite x as).add (u.runSuite x bs)
  perm : ∀ as bs, as.Perm bs → u.runSuite x as = u.runSuite x bs
  /-- There is an entry for the document of each case that fails, be it given or named after the
  fixture. -/
  success : ∀ cases, (u.runSuite x cases).success = true ↔ ∀ c ∈ cases, u.Fails c →
    ∃ e ∈ x.known ++ x.pending,
      e.resource = c.resource.getD (.ofTypeName c.fixture.typeName u.configuration.extension)
  exitCode : ∀ cases, (u.runSuite x cases).exitCode = 0 ↔ (u.runSuite x cases).success = true

/-- **Suites add up, in any order of their cases,** for any runner and any expected failures: no
case has an influence on another, though all of them use one source and one target. -/
theorem suites_add_up (u : Runner σ) (x : Expectations) : u.SuitesAddUp x where
  independent cases _ _ := u.suiteOn_eq x cases _ rfl
  new cases := by
    have h := u.suiteOn_eq x cases ⟨.ofDocuments u.source.documents, .empty⟩ rfl
    rwa [Ports.after_new] at h
  counted := u.runSuite_eq x
  total cases := by
    rw [runSuite_eq]
    exact ⟨rfl, u.total_tallies x cases⟩
  append as bs := by simp only [runSuite_eq, tallies_append]
  perm as bs h := by simp only [runSuite_eq, u.tallies_perm x h]
  success := u.success_runSuite_iff x
  exitCode cases := (u.runSuite x cases).exitCode_eq_zero_iff

end Runner

end LivingDoc
