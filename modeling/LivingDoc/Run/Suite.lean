import LivingDoc.Run.Process
import LivingDoc.Settings.Expectations

/-!
# Suites

Running one document after another and counting what came of them (specification, 10): a document
passes if it is satisfied, and a failure is either expected or a regression.  Only regressions make
a suite fail.
-/

namespace LivingDoc

/-! ## 1. Tallies -/

/-- What came of the documents of a suite. -/
structure SuiteResult where
  total : Nat
  passed : Nat
  expectedFailures : Nat
  regressions : Nat
deriving DecidableEq, Repr

namespace SuiteResult

def zero : SuiteResult := ⟨0, 0, 0, 0⟩

def recordPass (t : SuiteResult) : SuiteResult :=
  { t with total := t.total + 1, passed := t.passed + 1 }

/-- One more document that fails.  Known and pending failures are counted together. -/
def recordFailure (t : SuiteResult) : FailureKind → SuiteResult
  | .regression => { t with total := t.total + 1, regressions := t.regressions + 1 }
  | .known => { t with total := t.total + 1, expectedFailures := t.expectedFailures + 1 }
  | .pending => { t with total := t.total + 1, expectedFailures := t.expectedFailures + 1 }

def success (t : SuiteResult) : Bool := t.regressions == 0

/-- The exit code of a program that ran the suite. -/
def exitCode (t : SuiteResult) : Nat := if t.success then 0 else 1

/-- The tallies in words. -/
def report (t : SuiteResult) : String :=
  (if t.success then "PASS" else "FAIL") ++ ": " ++ toString t.total ++ " documents\n  "
    ++ toString t.passed ++ " passed, " ++ toString (t.total - t.passed) ++ " failed ("
    ++ toString t.expectedFailures ++ " expected, " ++ toString t.regressions ++ " regressions)\n"

end SuiteResult

/-! ## 2. Running a suite -/

/-- A document of a suite, by default the one named after its fixture. -/
structure SuiteCase (σ : Type) where
  resource : Option Resource
  fixture : Fixture σ
  state : σ

namespace Runner

variable {σ : Type}

def caseResource (u : Runner σ) (c : SuiteCase σ) : Resource :=
  c.resource.getD (u.resourceFor c.fixture)

def runCase (u : Runner σ) (c : SuiteCase σ) : Run σ :=
  u.process (some (u.caseResource c)) c.fixture c.state

/-- A run passes if its document is satisfied; an error counts as a failure of the document. -/
def passes (run : Run σ) : Bool :=
  match run.result with
  | .ok s => s.isSatisfied
  | .error _ => false

def countCase (u : Runner σ) (x : Expectations) (t : SuiteResult) (c : SuiteCase σ) :
    SuiteResult :=
  if passes (u.runCase c) then t.recordPass
  else t.recordFailure (x.classify (u.caseResource c))

/-- Run the cases of a suite and count them (`run_suite`). -/
def runSuite (u : Runner σ) (x : Expectations) (cases : List (SuiteCase σ)) : SuiteResult :=
  cases.foldl (u.countCase x) .zero

/-- Everything that happens when a suite is run. -/
def suiteEvents (u : Runner σ) (cases : List (SuiteCase σ)) : List Event :=
  cases.flatMap fun c => (u.runCase c).events

end Runner

end LivingDoc
