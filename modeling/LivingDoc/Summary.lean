import LivingDoc.Outcome
import LivingDoc.Report.Json
import LivingDoc.Resource

/-!
# Summaries

The results of a document (specification, 3): the tallies of its own outcomes, and an entry for
every link that was followed from it.  An entry for a document that was processed holds that
document's summary, so a summary is a tree, and totals are own tallies plus the totals of the
entries.
-/

namespace LivingDoc

/-! ## 1. Tallies -/

/-- How many outcomes of each kind there were. -/
structure Counts where
  successes : Nat
  failures : Nat
  exceptions : Nat
deriving DecidableEq, Repr, Inhabited

namespace Counts

def zero : Counts := ⟨0, 0, 0⟩

def record (c : Counts) : Status → Counts
  | .success => { c with successes := c.successes + 1 }
  | .failure => { c with failures := c.failures + 1 }
  | .exception => { c with exceptions := c.exceptions + 1 }

/-- The tallies of two lists of outcomes together. -/
def add (c d : Counts) : Counts :=
  ⟨c.successes + d.successes, c.failures + d.failures, c.exceptions + d.exceptions⟩

def total (c : Counts) : Nat := c.successes + c.failures + c.exceptions

def json (c : Counts) : Json :=
  .object [("successes", .number c.successes), ("failures", .number c.failures),
    ("exceptions", .number c.exceptions)]

end Counts

/-! ## 2. The tree -/

/-- What came of a link to the resource `target`: the target with its result in one type, which
keeps the recursion of summaries in a single inductive. -/
inductive Child where
  /-- The document was processed: its summary has this resource, these tallies and children. -/
  | processed (target : Resource) (resource : Resource) (own : Counts) (children : List Child)
  /-- The document is one of those that enclose the link. -/
  | revisited (target : Resource)
  /-- There is no fixture for the document. -/
  | unresolved (target : Resource)
  /-- The document could not be processed, which counts as one exception. -/
  | failed (target : Resource) (message : String)
deriving Repr, Inhabited

/-- The results of a document. -/
structure Summary where
  resource : Resource
  own : Counts
  children : List Child
deriving Repr, Inhabited

def Child.target : Child → Resource
  | .processed t .. => t
  | .revisited t => t
  | .unresolved t => t
  | .failed t _ => t

/-- A summary as the entry for a link to the target. -/
def Summary.child (s : Summary) (target : Resource) : Child :=
  .processed target s.resource s.own s.children

/-! ## 3. Totals -/

mutual
/-- The tallies of an entry with all below it.  A document that failed counts as one exception; one
that was revisited or has no fixture counts nothing (specification, 4.6). -/
def Child.totals : Child → Counts
  | .processed _ _ own children => own.add (Child.totalsAll children)
  | .failed _ _ => ⟨0, 0, 1⟩
  | .revisited _ => .zero
  | .unresolved _ => .zero
def Child.totalsAll : List Child → Counts
  | [] => .zero
  | c :: rest => c.totals.add (Child.totalsAll rest)
end

namespace Summary

def start (r : Resource) : Summary := ⟨r, .zero, []⟩

def record (s : Summary) (status : Status) : Summary := { s with own := s.own.record status }

def recordChild (s : Summary) (c : Child) : Summary := { s with children := s.children ++ [c] }

/-- The document's own tallies with those of all entries. -/
def totals (s : Summary) : Counts := s.own.add (Child.totalsAll s.children)

def hasFailures (s : Summary) : Bool := s.totals.failures > 0

def hasExceptions (s : Summary) : Bool := s.totals.exceptions > 0

/-- There are neither failures nor exceptions, in the document or in what it links to
(`is_satisfied`). -/
def isSatisfied (s : Summary) : Bool := !s.hasFailures && !s.hasExceptions

end Summary

/-- A document is not satisfied: how many failures and exceptions there are in all. -/
structure Unsatisfied where
  resource : Resource
  failures : Nat
  exceptions : Nat
deriving DecidableEq, Repr

def Unsatisfied.message (u : Unsatisfied) : String :=
  "Specification '" ++ u.resource.path ++ "' has " ++ toString u.failures ++ " failure(s) and "
    ++ toString u.exceptions ++ " exception(s). See the rendered output for details."

/-- Insist that a document is satisfied (`assert_is_satisfied`).  The condition is stated on the
totals and not by `isSatisfied`, as the two are written apart. -/
def Summary.assertSatisfied (s : Summary) : Except Unsatisfied Unit :=
  let t := s.totals
  if t.failures = 0 ∧ t.exceptions = 0 then .ok ()
  else .error ⟨s.resource, t.failures, t.exceptions⟩

/-! ## 4. As data -/

mutual
/-- An entry in a report.  The result is an object with its status, and a summary has its own fields
beside the status. -/
def Child.json : Child → Json
  | .processed t r own children =>
    .object [("resource", .string t.path), ("result", .object [("status", .string "processed"),
      ("resource", .string r.path), ("own", own.json),
      ("children", .array (Child.jsonAll children))])]
  | .revisited t =>
    .object [("resource", .string t.path), ("result", .object [("status", .string "revisited")])]
  | .unresolved t =>
    .object [("resource", .string t.path), ("result", .object [("status", .string "unresolved")])]
  | .failed t m =>
    .object [("resource", .string t.path),
      ("result", .object [("status", .string "failed"), ("message", .string m)])]
def Child.jsonAll : List Child → List Json
  | [] => []
  | c :: rest => c.json :: Child.jsonAll rest
end

/-- A summary in a report (`to_json`).  Resources are written as their paths. -/
def Summary.json (s : Summary) : Json :=
  .object [("resource", .string s.resource.path), ("own", s.own.json),
    ("children", .array (Child.jsonAll s.children))]

end LivingDoc
