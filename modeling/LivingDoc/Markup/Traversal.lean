import LivingDoc.Markup.Element

/-!
# Document order

The elements of a tree in document order, an element before its descendants.  The traversal keeps a
stack of the elements that are still to come, as the iterator `Descendants` does; it ends because
every step takes one element away from the trees on the stack.
-/

namespace LivingDoc

mutual
/-- The number of elements in a child. -/
def Node.elementCount : Node → Nat
  | .text _ => 0
  | .element _ _ cs => 1 + Node.elementCountAll cs
def Node.elementCountAll : List Node → Nat
  | [] => 0
  | n :: rest => n.elementCount + Node.elementCountAll rest
end

/-- The number of elements in the trees of the list, which is what a step of the traversal makes
less. -/
def Element.countAll : List Element → Nat
  | [] => 0
  | e :: rest => 1 + Node.elementCountAll e.children + Element.countAll rest

theorem Element.countAll_append (es ds : List Element) :
    Element.countAll (es ++ ds) = Element.countAll es + Element.countAll ds := by
  induction es with
  | nil => simp [Element.countAll]
  | cons e es ih => simp only [List.cons_append, Element.countAll, ih, Nat.add_assoc]

theorem Element.countAll_childElements (e : Element) :
    Element.countAll e.childElements = Node.elementCountAll e.children := by
  unfold Element.childElements
  induction e.children with
  | nil => rfl
  | cons n rest ih =>
    cases n with
    | text s =>
      rw [List.filterMap_cons_none rfl, ih]
      simp [Node.elementCountAll, Node.elementCount]
    | element n as cs =>
      have step : (Node.element n as cs :: rest).filterMap Node.element?
          = ⟨n, as, cs⟩ :: rest.filterMap Node.element? := rfl
      rw [step, Element.countAll, ih, Node.elementCountAll, Node.elementCount]

/-- The elements of the trees on the stack, in document order: the top of the stack comes next, and
its child elements go onto the stack in its place.  The head of the list is the top of the stack, so
child elements are put in front in their order; pushing them one by one needs them reversed. -/
def Element.traverse : List Element → List Element
  | [] => []
  | e :: rest => e :: traverse (e.childElements ++ rest)
termination_by es => Element.countAll es
decreasing_by
  rw [Element.countAll_append, Element.countAll_childElements, Element.countAll]
  omega

/-- The element and its descendant elements, in document order (`descendants`). -/
def Element.descendants (e : Element) : List Element := Element.traverse [e]

/-- The elements of the tree with the local name and the class, in document order
(`find_by_class`). -/
def Element.findByClass (e : Element) (localName cls : String) : List Element :=
  e.descendants.filter fun d => d.localName == localName && d.hasClass cls

end LivingDoc
