import LivingDoc.Proofs.Markup.Places

/-!
# The elements of a tree

The traversal of a tree keeps a stack.  What it gives is simpler than that: an element comes before
those in its children, and these come child by child.

* `Element.descendants_eq`: an element is traversed before the elements in its children.
* `Node.placesAll_element`: the places of children are places of these elements, in their order.
-/

namespace LivingDoc

mutual
/-- The elements in a child, in document order. -/
def Node.elements : Node → List Element
  | .text _ => []
  | .element n as cs => ⟨n, as, cs⟩ :: Node.elementsAll cs
/-- The elements in a list of children, in document order. -/
def Node.elementsAll : List Node → List Element
  | [] => []
  | n :: rest => n.elements ++ Node.elementsAll rest
end

namespace Node

theorem elementsAll_append (ns ms : List Node) :
    elementsAll (ns ++ ms) = elementsAll ns ++ elementsAll ms := by
  induction ns with
  | nil => rw [elementsAll, List.nil_append, List.nil_append]
  | cons n rest ih => rw [List.cons_append, elementsAll, elementsAll, ih, List.append_assoc]

/-- The places of children are places of the elements in them, in the same order. -/
theorem placesAll_element (ns : List Node) (path : List Nat) (around : List Element) (i : Nat) :
    (placesAll path around i ns).map (·.element) = elementsAll ns := by
  induction ns using Node.induction generalizing path around i with
  | nil => rw [placesAll, elementsAll, List.map_nil]
  | text s rest ih =>
    rw [placesAll, elementsAll, places, elements, List.nil_append, List.nil_append, ih]
  | element n as cs rest ihc ihr =>
    rw [placesAll, elementsAll, places, elements, List.map_append, List.map_cons, ihc, ihr]

end Node

/-- **An element is traversed before the elements in its children, and these child by child.** -/
theorem Element.descendants_eq (e : Element) :
    e.descendants = e :: Node.elementsAll e.children := by
  rw [← places_element, places_eq, List.map_cons, Place.below, Node.placesAll_element]

end LivingDoc
