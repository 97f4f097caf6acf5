import LivingDoc.Annotation
import LivingDoc.Proofs.Markup.Classes

/-!
# Rendering, part by part

An annotated document is made from the inside out: the outcomes inside an element are rendered into
its children, and then its own outcome onto the element.  Each part has its equation here, so that
what is said about annotated documents follows the document and not the code.

* `Element.render_eq`: an outcome adds its class to the attributes and what it shows to the
  children.
* `Element.annotate_eq`, `Node.annotate_node`: a document, and an element inside it, is annotated at
  its path.
* `Node.getElem?_annotateAll`: every child is annotated at its index.
* `Node.annotateAll_congr`, `Node.annotate_congr`: only outcomes behind the path of an element
  change its children, and only those at its path and behind it change the element.
-/

namespace LivingDoc

/-! ## 1. One outcome -/

/-- The children of an element with the outcome rendered, by those without (`render`).  It is all
that rendering does to the children. -/
def Outcome.childrenIn (o : Outcome) (cs : List Node) : List Node :=
  match o with
  | .success => cs
  | .failure expected actual => failureChildren expected actual cs
  | .exception c => cs ++ exceptionChildren c

namespace Element

/-- Rendering an outcome adds its class to the attributes and what it shows to the children. -/
theorem render_eq (e : Element) (o : Outcome) :
    e.render o = { e.addClass o.status.name with children := o.childrenIn e.children } := by
  rw [← e.children_addClass o.status.name]
  cases o <;> rfl

theorem node_render (e : Element) (o : Outcome) : (e.render o).node =
    .element e.name (e.addClass o.status.name).attributes (o.childrenIn e.children) := by
  rw [render_eq, node, name_addClass]

theorem addClass_of_children (e : Element) (cs : List Node) (c : String) :
    ({ e with children := cs } : Element).addClass c = { e.addClass c with children := cs } := by
  have hclass : ({ e with children := cs } : Element).hasClass c = e.hasClass c := rfl
  unfold addClass
  rw [hclass]
  split <;> rfl

end Element

/-! ## 2. All outcomes of a document -/

/-- An element at a path with the outcomes inside it rendered, and then its own. -/
def Element.annotateAt (outcomes : List Recorded) (path : List Nat) (e : Element) : Element :=
  Element.renderAt outcomes path
    { e with children := Node.annotateAll outcomes path 0 e.children }

theorem Element.annotate_eq (root : Element) (outcomes : List Recorded) :
    root.annotate outcomes = root.annotateAt outcomes [] := rfl

namespace Node

/-- An element inside a document is annotated at its path. -/
theorem annotate_node (outcomes : List Recorded) (path : List Nat) (e : Element) :
    e.node.annotate outcomes path = (e.annotateAt outcomes path).node := by
  rw [Element.node, annotate, Element.annotateAt]

/-- Every child is annotated at its index. -/
theorem getElem?_annotateAll (outcomes : List Recorded) (path : List Nat) (i : Nat)
    (ns : List Node) (j : Nat) :
    (annotateAll outcomes path i ns)[j]? =
      ns[j]?.map fun n => n.annotate outcomes (path ++ [i + j]) := by
  induction ns generalizing i j with
  | nil => rw [annotateAll, List.getElem?_nil, Option.map_none]
  | cons n rest ih =>
    rw [annotateAll]
    cases j with
    | zero => rw [List.getElem?_cons_zero, List.getElem?_cons_zero, Option.map_some, Nat.add_zero]
    | succ j =>
      rw [List.getElem?_cons_succ, List.getElem?_cons_succ, ih, Nat.add_assoc, Nat.add_comm 1 j]

/-- Rendering outcomes inside children makes no text an element, nor an element a text. -/
theorem any_isElement_annotateAll (outcomes : List Recorded) (path : List Nat) (i : Nat)
    (ns : List Node) :
    (annotateAll outcomes path i ns).any Node.isElement = ns.any Node.isElement := by
  induction ns generalizing i with
  | nil => rw [annotateAll]
  | cons n rest ih =>
    cases n with
    | text s => rw [annotateAll, annotate, List.any_cons, List.any_cons, ih]
    | element n as cs =>
      have helement : ∀ e : Element, e.node.isElement = true := fun _ => rfl
      rw [annotateAll, annotate, List.any_cons, List.any_cons, ih, helement]
      rfl

theorem annotateAll_of_texts (outcomes : List Recorded) (path : List Nat) (i : Nat)
    {ns : List Node} (h : ns.any Node.isElement = false) :
    annotateAll outcomes path i ns = ns := by
  induction ns generalizing i with
  | nil => rw [annotateAll]
  | cons n rest ih =>
    rw [List.any_cons, Bool.or_eq_false_iff] at h
    cases n with
    | text s => rw [annotateAll, annotate, ih _ h.2]
    | element n as cs => exact absurd h.1 Bool.noConfusion

/-! ## 3. Which outcomes are read -/

/-- **Only outcomes behind the path of an element change its children**, and only those that go on
with an index of one of them.  By induction on the children, for all paths and indices. -/
theorem annotateAll_congr {outcomes others : List Recorded} {path : List Nat} {i : Nat}
    (ns : List Node)
    (h : ∀ j tail, i ≤ j →
      outcomeAt? outcomes (path ++ j :: tail) = outcomeAt? others (path ++ j :: tail)) :
    annotateAll outcomes path i ns = annotateAll others path i ns := by
  induction ns using Node.induction generalizing path i with
  | nil => rw [annotateAll, annotateAll]
  | text s rest ih =>
    have hrest : annotateAll outcomes path (i + 1) rest = annotateAll others path (i + 1) rest :=
      ih fun j tail hj => h j tail (Nat.le_of_succ_le hj)
    rw [annotateAll, annotateAll, hrest, annotate, annotate]
  | element n as cs rest ihc ihr =>
    have hrest : annotateAll outcomes path (i + 1) rest = annotateAll others path (i + 1) rest :=
      ihr fun j tail hj => h j tail (Nat.le_of_succ_le hj)
    have hinside :
        annotateAll outcomes (path ++ [i]) 0 cs = annotateAll others (path ++ [i]) 0 cs := by
      refine ihc ?_
      intro j tail _
      rw [List.append_assoc, List.singleton_append]
      exact h i (j :: tail) (Nat.le_refl i)
    have hown : outcomeAt? outcomes (path ++ [i]) = outcomeAt? others (path ++ [i]) :=
      h i [] (Nat.le_refl i)
    rw [annotateAll, annotateAll, hrest, annotate, annotate, hinside, Element.renderAt,
      Element.renderAt, hown]

/-- Only outcomes at the path of a child and behind it change the child. -/
theorem annotate_congr {outcomes others : List Recorded} {path : List Nat} (n : Node)
    (h : ∀ tail, outcomeAt? outcomes (path ++ tail) = outcomeAt? others (path ++ tail)) :
    n.annotate outcomes path = n.annotate others path := by
  cases n with
  | text s => rw [annotate, annotate]
  | element n as cs =>
    have hinside : annotateAll outcomes path 0 cs = annotateAll others path 0 cs :=
      annotateAll_congr cs fun j tail _ => h (j :: tail)
    have hown : outcomeAt? outcomes path = outcomeAt? others path := by
      have hempty := h []
      rwa [List.append_nil] at hempty
    rw [annotate, annotate, hinside, Element.renderAt, Element.renderAt, hown]

end Node

end LivingDoc
