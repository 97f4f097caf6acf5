import LivingDoc.Markup.Element

/-!
# Namespace scope

Which URI a prefix stands for depends on the elements that are open.  The scope keeps the
declarations of all open elements on one stack, the latest first, and beside it how many each open
element has put there, so that closing an element takes exactly its own away.  It embeds the scope
of the matchers (specification, 4.2): one flat list that is cut back, in place of a map for every
element.
-/

namespace LivingDoc

/-- The namespace bindings of the open elements. -/
structure Scope where
  /-- Prefix and URI, the latest declaration first. -/
  bindings : List (String × String)
  /-- How many bindings each open element has added, the innermost element first. -/
  added : List Nat
deriving DecidableEq, Repr

namespace Scope

def empty : Scope := ⟨[], []⟩

/-- Open an element: its declarations come into force, in the order in which it has them, so that of
two for one prefix the later counts. -/
def push (s : Scope) (e : Element) : Scope :=
  ⟨e.namespaceDeclarations.reverse ++ s.bindings, e.namespaceDeclarations.length :: s.added⟩

/-- Close the innermost element; with none open there is nothing to do. -/
def pop (s : Scope) : Scope :=
  match s.added with
  | [] => s
  | n :: rest => ⟨s.bindings.drop n, rest⟩

@[simp] theorem pop_push (s : Scope) (e : Element) : (s.push e).pop = s := by
  simp [push, pop]

def depth (s : Scope) : Nat := s.added.length

/-- The URI of a prefix, the empty one for the default namespace (`uri_for`): its latest declaration
counts. -/
def uriFor (s : Scope) (p : String) : Option String :=
  (s.bindings.find? (·.1 == p)).map (·.2)

/-- The qualified attribute name has this URI and local name (`attribute_matches`).  An attribute
without a prefix is in no namespace, whatever the default is, and a declaration is none either: that
is the rule of namespaces in XML, by which a command is found under every prefix of its namespace
(specification, 4.2). -/
def attributeMatches (s : Scope) (qualified uri localName : String) : Bool :=
  let (p, l) := splitQualified qualified
  p != "" && p != "xmlns" && l == localName && s.uriFor p == some uri

end Scope

end LivingDoc
