import LivingDoc.Annotation
import LivingDoc.Evaluation.Walk
import LivingDoc.Markup.Written
import LivingDoc.Settings.Configuration
import LivingDoc.Storage.Documents
import LivingDoc.Xml.Document

/-!
# Running documents

A run takes a document from its source, evaluates it, stores the annotated document and then follows
the links (specification, 4.6).  This module has what a run works with, what can go wrong, and what
a run leaves behind: a result, the state of the fixture, and everything that happened, in order.
The logs that the ports keep are read off these events.
-/

namespace LivingDoc

/-! ## 1. What a run works with -/

/-- Where documents come from: those that there are, and those that cannot be read.  Together they
are any port `Source` (specification, 6) whose answers do not change during a run. -/
structure Source where
  documents : Documents
  /-- Resources that cannot be read, with the reason. -/
  unreadable : List (Resource × String)

def Source.fetch (s : Source) (r : Resource) : Except ReadFault String :=
  match s.unreadable.lookup r with
  | some m => .error (.unreadable m)
  | none =>
    match s.documents.find? r with
    | some text => .ok text
    | none => .error .missing

/-- Where documents are stored, given by the places where storing fails. -/
structure Target where
  /-- Resources that cannot be written, with the reason. -/
  unwritable : List (Resource × String)

/-- Supplies fixtures, each in its first state, for linked documents (`fixture_for`); a document it
knows nothing for stays unresolved. -/
abbrev Provider (σ : Type) := Resource → Option (Fixture σ × σ)

/-- The fixtures of a catalog; of several for a resource the last counts. -/
def Provider.catalog {σ : Type} (entries : List (Resource × Fixture σ × σ)) : Provider σ :=
  fun r => entries.reverse.lookup r

/-- What does not change during a run: the runner as its builder leaves it. -/
structure Runner (σ : Type) where
  configuration : Configuration
  /-- Commands that are tried before the standard ones. -/
  custom : Registry
  /-- The comparator of the standard commands. -/
  comparator : Comparator
  source : Source
  target : Target
  provider : Provider σ

/-! ## 2. What can go wrong -/

/-- Why a document could not be processed, with one constructor for each stage that can fail: before
anything is asked for, resolving (two kinds), parsing and persisting. -/
inductive RunError where
  | noFixture
  | notFound (resource : Resource)
  | unreadable (resource : Resource) (message : String)
  | malformed (resource : Resource) (fault : Xml.Malformed)
  | unwritable (resource : Resource) (message : String)

def RunError.message : RunError → String
  | .noFixture => "Fixture is null"
  | .notFound r => missingMessage r
  | .unreadable r m => "failed to read resource '" ++ r.path ++ "': " ++ m
  | .malformed r f => "malformed document '" ++ r.path ++ "': " ++ f.message
  | .unwritable r m => "failed to write resource '" ++ r.path ++ "': " ++ m

/-! ## 3. What a run leaves behind -/

/-- Something that happened during a run.  Entering and leaving a document bracket all that belongs
to it, its links included. -/
inductive Event where
  /-- The processing of a document began. -/
  | entered (resource : Resource)
  /-- A document was asked for, whether it was there or not. -/
  | requested (resource : Resource)
  /-- An operation of a fixture was called. -/
  | called (call : Call)
  /-- A document was stored. -/
  | stored (resource : Resource) (text : String)
  /-- The processing of a document ended. -/
  | left (resource : Resource)
deriving DecidableEq, Repr

/-- What a run leaves behind, also when it ends in an error: the state of the fixture and the events
up to there. -/
structure Run (σ : Type) where
  result : Except RunError Summary
  state : σ
  events : List Event

namespace Event

/-- The resources that were asked for, in order. -/
def requests (es : List Event) : List Resource :=
  es.filterMap fun
    | .requested r => some r
    | _ => none

/-- The calls that were made, in order. -/
def calls (es : List Event) : List Call :=
  es.filterMap fun
    | .called c => some c
    | _ => none

/-- The documents that were stored, in order. -/
def stores (es : List Event) : List (Resource × String) :=
  es.filterMap fun
    | .stored r text => some (r, text)
    | _ => none

/-- What a target holds after everything that was stored. -/
def target (es : List Event) : MemoryTarget :=
  (stores es).foldl (fun t e => t.store e.1 e.2) .empty

end Event

/-- The entry for a link whose document a run processed: an error there is written down and goes no
further. -/
def Run.child {σ : Type} (run : Run σ) (target : Resource) : Child :=
  match run.result with
  | .ok s => s.child target
  | .error e => .failed target e.message

namespace Runner

variable {σ : Type}

/-- The commands of a run.  Custom commands are "placed before the built-ins so they can override
them" (specification, 13). -/
def registry (u : Runner σ) : Registry :=
  u.custom ++ .standard u.configuration.commandNamespace u.comparator

/-- Read and parse a document: the stages Resolving and Parsing (specification, 4.6). -/
def load (u : Runner σ) (r : Resource) : Except RunError Element :=
  match u.source.fetch r with
  | .error .missing => .error (.notFound r)
  | .error (.unreadable m) => .error (.unreadable r m)
  | .ok text =>
    match Element.parse text with
    | .error f => .error (.malformed r f)
    | .ok root => .ok root

/-- The text of a document with its outcomes: the stage Rendering, with the stylesheet if the
configuration says so. -/
def rendered (u : Runner σ) (root : Element) (outcomes : List Recorded) : String :=
  let annotated := root.annotate outcomes
  (if u.configuration.embedStylesheet then annotated.withStylesheet else annotated).markup

/-- A document that was loaded is one of the documents.  This is what bounds the depth of a run: a
document that is not there fails before any link is followed. -/
theorem mem_of_load {u : Runner σ} {r : Resource} {root : Element} (h : u.load r = .ok root) :
    ∃ e ∈ u.source.documents.entries, e.1 = r := by
  unfold load Source.fetch at h
  cases hu : u.source.unreadable.lookup r with
  | some m => simp [hu] at h
  | none =>
    cases hd : u.source.documents.find? r with
    | none => simp [hu, hd] at h
    | some text => exact Documents.mem_of_find? hd

/-- The document that is named after the type of a fixture (`resource_for`). -/
def resourceFor (u : Runner σ) (f : Fixture σ) : Resource :=
  .ofTypeName f.typeName u.configuration.extension

end Runner

end LivingDoc
