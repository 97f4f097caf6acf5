import LivingDoc.Resource
import LivingDoc.Settings.Configuration

/-!
# Expected failures

Documents of a suite that may fail (specification, 10).  A failure is known, or pending, or else a
regression; being known counts more than being pending.
-/

namespace LivingDoc

/-- A document that may fail, and why. -/
structure Expectation where
  resource : Resource
  reason : Option String
  added : Option String
  issue : Option String
deriving DecidableEq, Repr

/-- The documents that may fail. -/
structure Expectations where
  known : List Expectation
  pending : List Expectation
deriving DecidableEq, Repr

/-- What a failure of a document is. -/
inductive FailureKind where
  | known
  | pending
  /-- The document was expected to pass. -/
  | regression
deriving DecidableEq, Repr

/-! ## 1. Looking a document up -/

namespace Expectations

def none : Expectations := ⟨[], []⟩

/-- What a failure of the document is (`is_expected`).  Known entries are looked through first. -/
def classify (x : Expectations) (r : Resource) : FailureKind :=
  if x.known.any (·.resource = r) then .known
  else if x.pending.any (·.resource = r) then .pending
  else .regression

/-- The first entry for the document (`get_entry`). -/
def find? (x : Expectations) (r : Resource) : Option Expectation :=
  (x.known ++ x.pending).find? (·.resource = r)

def count (x : Expectations) : Nat := x.known.length + x.pending.length

theorem classify_eq_regression_iff (x : Expectations) (r : Resource) :
    x.classify r = .regression ↔ x.find? r = Option.none := by
  unfold classify find?
  simp only [List.find?_append, List.any_eq_true, decide_eq_true_eq, Option.or_eq_none_iff,
    List.find?_eq_none]
  constructor
  · intro h
    split at h
    · contradiction
    · split at h
      · contradiction
      · rename_i hk hp
        exact ⟨fun e he hr => hk ⟨e, he, hr⟩, fun e he hr => hp ⟨e, he, hr⟩⟩
  · rintro ⟨hk, hp⟩
    rw [if_neg (fun ⟨e, he, hr⟩ => hk e he hr), if_neg (fun ⟨e, he, hr⟩ => hp e he hr)]

end Expectations

/-! ## 2. Loading -/

namespace Expectation

def optionalText (v : Toml) : Option (Option String) := v.string?.map some

/-- An entry: a table with a resource, or its fields one after another.  The second form is what a
record may also be read from, and what follows its four fields is left alone there. -/
def ofToml : Toml → Option Expectation
  | .table _ es => do
    let resource ← (← es.lookup "resource").string?
    let reason ← Toml.Entries.setting es "reason" optionalText Option.none
    let added ← Toml.Entries.setting es "added" optionalText Option.none
    let issue ← Toml.Entries.setting es "issue" optionalText Option.none
    return ⟨.ofPath resource, reason, added, issue⟩
  | .array items => do
    let texts ← (items.take 4).mapM Toml.string?
    let resource ← texts[0]?
    return ⟨.ofPath resource, texts[1]?, texts[2]?, texts[3]?⟩
  | _ => Option.none

def listOfToml (v : Toml) : Option (List Expectation) := v.items?.bind (·.mapM ofToml)

end Expectation

namespace Expectations

/-- Why a list of expected failures cannot be loaded. -/
inductive Fault where
  | unreadable
  | malformed
deriving DecidableEq, Repr

/-- The documents that a text says may fail. -/
def read (text : String) : Option Expectations := do
  let es ← Toml.read text
  let known ← es.setting "known" Expectation.listOfToml []
  let pending ← es.setting "pending" Expectation.listOfToml []
  return ⟨known, pending⟩

/-- The documents that a file says may fail; without a file there are none. -/
def load : SettingsFile → Except Fault Expectations
  | .missing => .ok none
  | .directory => .error .unreadable
  | .text content =>
    match read content with
    | some x => .ok x
    | Option.none => .error .malformed

end Expectations

end LivingDoc
