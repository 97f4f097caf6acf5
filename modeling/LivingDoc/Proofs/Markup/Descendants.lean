import LivingDoc.Proofs.Markup.Places
import Mathlib.Data.List.Basic

/-!
# A tree taken off a stack

The elements of a tree are handed out one by one, and between one and the next there is only a stack
of elements that are still to come.  What comes off it is the recursive order of the tree: an
element, and then child by child what is in its children.  Texts have such an order too, and are put
together in it.

* `Descent.yields_iff`: what comes off a stack, from the first element to the end.
* `Element.eq_descendants_iff`: the elements of a tree by recursion, and nothing else by it.
* `Element.mem_texts_iff`, `Element.texts_sorted`: the texts of a tree are where child indices lead
  to texts, in document order.
* `Element.traversed_in_preorder`: what follows for look-ups by class and for the text of an
  element.
-/

namespace LivingDoc

/-! ## 1. Elements from a stack -/

/-- A traversal on its way: the elements that are still to come, the next one last. -/
structure Descent where
  stack : List Element

namespace Descent

/-- The next element, with the traversal behind it: the child elements go onto the stack in reverse,
so that the first comes off first. -/
def next? (d : Descent) : Option (Element × Descent) :=
  d.stack.getLast?.map fun e =>
    (e, ⟨d.stack.dropLast ++ e.children.reverse.filterMap Node.element?⟩)

/-- The traversal hands out these elements one after the other, and then ends. -/
inductive Yields : Descent → List Element → Prop
  | done {d : Descent} (h : d.next? = none) : Yields d []
  | step {d d' : Descent} {e : Element} {es : List Element} (h : d.next? = some (e, d'))
      (rest : Yields d' es) : Yields d (e :: es)

theorem next?_reverse_cons (e : Element) (es : List Element) :
    next? ⟨(e :: es).reverse⟩ = some (e, ⟨(e.childElements ++ es).reverse⟩) := by
  simp [next?, Element.childElements, List.filterMap_reverse]

/-- **A stack hands out what it is traversed to**, and ends behind it.  By induction on the
traversal, whose measure is the number of elements on the stack and in them. -/
theorem yields_traverse (es : List Element) : Yields ⟨es.reverse⟩ (Element.traverse es) := by
  induction es using Element.traverse.induct with
  | case1 =>
    rw [Element.traverse]
    exact .done rfl
  | case2 e rest ih =>
    rw [Element.traverse]
    exact .step (next?_reverse_cons e rest) ih

theorem Yields.unique {d : Descent} {es ds : List Element} (h : Yields d es) (h' : Yields d ds) :
    es = ds := by
  induction h generalizing ds with
  | done hnone =>
    cases h' with
    | done => rfl
    | step hsome => exact absurd (hnone.symm.trans hsome) (Option.some_ne_none _).symm
  | step hsome _ ih =>
    cases h' with
    | done hnone => exact absurd (hnone.symm.trans hsome) (Option.some_ne_none _).symm
    | step hsome' rest' =>
      obtain ⟨rfl, rfl⟩ := Prod.mk.inj (Option.some.inj (hsome.symm.trans hsome'))
      rw [ih rest']

/-- **What comes off a stack**: it ends, and what it has handed out is the traversal from its
top. -/
theorem yields_iff {stack es : List Element} :
    Yields ⟨stack⟩ es ↔ es = Element.traverse stack.reverse := by
  have hyields := yields_traverse stack.reverse
  rw [List.reverse_reverse] at hyields
  constructor
  · exact fun h => h.unique hyields
  · rintro rfl
    exact hyields

end Descent

/-! ## 2. Elements by recursion -/

namespace Element

theorem traverse_append (es ds : List Element) : traverse (es ++ ds) = traverse es ++ traverse ds := by
  induction es using traverse.induct with
  | case1 => rw [traverse, List.nil_append, List.nil_append]
  | case2 e rest ih =>
    rw [List.cons_append, traverse, ← List.append_assoc, ih, ← List.cons_append, ← traverse]

theorem traverse_eq_flatMap (es : List Element) : traverse es = es.flatMap descendants := by
  induction es with
  | nil => rw [traverse, List.flatMap_nil]
  | cons e es ih =>
    rw [← List.singleton_append, traverse_append, ih, List.flatMap_append, List.flatMap_singleton,
      descendants]

theorem descendants_eq_cons (e : Element) :
    e.descendants = e :: e.childElements.flatMap descendants := by
  rw [descendants, traverse, List.append_nil, traverse_eq_flatMap]

/-- Induction over elements: what holds of an element if it holds of its child elements holds of
every one.  It is induction over nodes, with texts passed over. -/
theorem induction {P : Element → Prop} (h : ∀ e, (∀ c ∈ e.childElements, P c) → P e) (e : Element) :
    P e := by
  refine h e ?_
  rw [childElements]
  induction e.children using Node.induction with
  | nil => exact fun c hc => absurd hc List.not_mem_nil
  | text s rest ih => exact ih
  | element n as cs rest ihc ihr =>
    have hcons : (Node.element n as cs :: rest).filterMap Node.element? =
        ⟨n, as, cs⟩ :: rest.filterMap Node.element? := rfl
    rw [hcons]
    exact List.forall_mem_cons.mpr ⟨h _ ihc, ihr⟩

/-- **The recursion has one solution.**  By induction over elements, so the order is determined by
the recursive equation, and by nothing in the stack. -/
theorem eq_descendants_iff {pre : Element → List Element} :
    (∀ e, pre e = e :: e.childElements.flatMap pre) ↔ pre = descendants := by
  constructor
  · intro h
    funext e
    induction e using Element.induction with
    | h e ih => rw [h, descendants_eq_cons, List.flatMap_congr ih]
  · rintro rfl
    exact descendants_eq_cons

end Element

/-! ## 3. Texts -/

mutual
/-- The texts in a child at a path, with the paths to them, in document order. -/
def Node.texts (path : List Nat) : Node → List (List Nat × String)
  | .text s => [(path, s)]
  | .element _ _ cs => Node.textsAll path 0 cs
/-- The texts in the children of the element at a path, from the one with this index on. -/
def Node.textsAll (path : List Nat) (index : Nat) : List Node → List (List Nat × String)
  | [] => []
  | n :: rest => n.texts (path ++ [index]) ++ Node.textsAll path (index + 1) rest
end

namespace Node

theorem texts_subset_textsAll {ns : List Node} {j : Nat} {n : Node} (h : ns[j]? = some n)
    (path : List Nat) (i : Nat) : n.texts (path ++ [i + j]) ⊆ textsAll path i ns := by
  induction ns generalizing i j with
  | nil => simp at h
  | cons m rest ih =>
    rw [textsAll]
    cases j with
    | zero =>
      obtain rfl : m = n := by simpa using h
      exact List.subset_append_left _ _
    | succ j =>
      have hrest := ih (j := j) (by simpa using h) (i + 1)
      rw [Nat.add_right_comm] at hrest
      exact List.subset_append_of_subset_right _ hrest

/-- The paths to the texts of children lie behind the path of their parent, none in front of the
index. -/
theorem path_of_mem_textsAll (ns : List Node) {path : List Nat} {i : Nat} {x : List Nat × String}
    (hx : x ∈ textsAll path i ns) : ∃ j tail, i ≤ j ∧ x.1 = path ++ j :: tail := by
  induction ns using Node.induction generalizing path i with
  | nil => simp [textsAll] at hx
  | text s rest ih =>
    rw [textsAll, texts, List.singleton_append, List.mem_cons] at hx
    rcases hx with rfl | hx
    · exact ⟨i, [], Nat.le_refl i, rfl⟩
    · obtain ⟨j, tail, hj, hpath⟩ := ih hx
      exact ⟨j, tail, by omega, hpath⟩
  | element n as cs rest ihc ihr =>
    rw [textsAll, texts, List.mem_append] at hx
    rcases hx with hx | hx
    · obtain ⟨j, tail, -, hpath⟩ := ihc hx
      exact ⟨i, j :: tail, Nat.le_refl i, by simpa using hpath⟩
    · obtain ⟨j, tail, hj, hpath⟩ := ihr hx
      exact ⟨j, tail, by omega, hpath⟩

/-- The paths to the texts of children go up.  By induction on the nodes: what is in a child has its
index behind the path of the parent, and what is in a later child a greater one. -/
theorem textsAll_sorted (ns : List Node) (path : List Nat) (i : Nat) :
    (textsAll path i ns).Pairwise (·.1 < ·.1) := by
  induction ns using Node.induction generalizing path i with
  | nil => exact .nil
  | text s rest ih =>
    rw [textsAll, texts, List.singleton_append, List.pairwise_cons]
    refine ⟨?_, ih path (i + 1)⟩
    intro x hx
    obtain ⟨j, tail, hj, hpath⟩ := path_of_mem_textsAll rest hx
    rw [hpath]
    exact append_cons_lt path (by omega) [] tail
  | element n as cs rest ihc ihr =>
    rw [textsAll, texts, List.pairwise_append]
    refine ⟨ihc .., ihr .., ?_⟩
    intro x hx y hy
    obtain ⟨j, tail, -, hpath⟩ := path_of_mem_textsAll cs hx
    obtain ⟨k, tail', hk, hpath'⟩ := path_of_mem_textsAll rest hy
    rw [hpath, hpath', List.append_assoc]
    exact append_cons_lt path (by omega) (j :: tail) tail'

theorem textCharsAll_eq (ns : List Node) (path : List Nat) (i : Nat) :
    textCharsAll ns = (textsAll path i ns).flatMap (·.2.toList) := by
  induction ns using Node.induction generalizing path i with
  | nil => rfl
  | text s rest ih =>
    rw [textCharsAll, textChars, textsAll, texts, List.singleton_append, List.flatMap_cons,
      ih path (i + 1)]
  | element n as cs rest ihc ihr =>
    rw [textCharsAll, textChars, textsAll, texts, List.flatMap_append, ihc, ihr path (i + 1)]

end Node

namespace Element

/-- The texts in an element, with the paths to them, in document order. -/
def texts (root : Element) : List (List Nat × String) := Node.textsAll [] 0 root.children

/-- Child indices lead from the root to a text: to an element, and to a text among its children. -/
def LeadsToText (root : Element) (path : List Nat) (s : String) : Prop :=
  ∃ outer around e i, root.Leads outer around e ∧ e.children[i]? = some (.text s) ∧
    path = outer ++ [i]

/-- The texts of an element that child indices lead to are texts of the tree. -/
theorem Leads.textsAll_subset {root : Element} {path : List Nat} {around : List Element} {e : Element}
    (h : root.Leads path around e) : Node.textsAll path 0 e.children ⊆ root.texts := by
  induction h with
  | root => exact List.Subset.refl _
  | @child path around e c i outer here ih =>
    have hsub := Node.texts_subset_textsAll here path 0
    rw [Nat.zero_add] at hsub
    exact List.Subset.trans hsub ih

/-- What leads to an element leads on to the texts in its children. -/
theorem Leads.textsAll {root : Element} (ns : List Node) {path : List Nat} {around : List Element}
    {e : Element} {i : Nat} (h : root.Leads path around e) (hns : e.children.drop i = ns)
    {x : List Nat × String} (hx : x ∈ Node.textsAll path i ns) : root.LeadsToText x.1 x.2 := by
  induction ns using Node.induction generalizing path around e i with
  | nil => simp [Node.textsAll] at hx
  | text s rest ih =>
    have hrest : e.children.drop (i + 1) = rest := by rw [← List.tail_drop, hns, List.tail_cons]
    rw [Node.textsAll, Node.texts, List.singleton_append, List.mem_cons] at hx
    rcases hx with rfl | hx
    · refine ⟨path, around, e, i, h, ?_, rfl⟩
      rw [← List.head?_drop, hns]
      rfl
    · exact ih h hrest hx
  | element n as cs rest ihc ihr =>
    have hrest : e.children.drop (i + 1) = rest := by rw [← List.tail_drop, hns, List.tail_cons]
    have here : e.children[i]? = some (Element.node ⟨n, as, cs⟩) := by
      rw [← List.head?_drop, hns]
      rfl
    rw [Node.textsAll, Node.texts, List.mem_append] at hx
    rcases hx with hx | hx
    · exact ihc (h.child here) rfl hx
    · exact ihr h hrest hx

/-- **The texts of a tree are exactly what the child indices lead to.** -/
theorem mem_texts_iff {root : Element} {path : List Nat} {s : String} :
    (path, s) ∈ root.texts ↔ root.LeadsToText path s := by
  constructor
  · exact fun h => Leads.textsAll root.children .root rfl h
  · rintro ⟨outer, around, e, i, hleads, here, rfl⟩
    have hsub := Node.texts_subset_textsAll here outer 0
    rw [Nat.zero_add, Node.texts] at hsub
    exact hleads.textsAll_subset (hsub List.mem_cons_self)

/-- **The paths to the texts go up in lexicographic order.** -/
theorem texts_sorted (root : Element) : root.texts.Pairwise (·.1 < ·.1) :=
  Node.textsAll_sorted root.children [] 0

/-- **The text of an element is that of all its texts**, one behind the other. -/
theorem textContent_eq (root : Element) :
    root.textContent = String.join (root.texts.map (·.2)) := by
  apply String.toList_injective
  rw [textContent, String.toList_ofList, String.toList_join, List.flatMap_map, texts,
    ← Node.textCharsAll_eq]

theorem hasClass_iff {e : Element} {c : String} :
    e.hasClass c = true ↔ ∃ v, e.attribute? "class" = some v ∧ c ∈ Text.words v := by
  rw [hasClass, classes, List.contains_iff_mem]
  cases e.attribute? "class" with
  | none =>
    have hnone : Text.words "" = [] := rfl
    simp [hnone]
  | some v => simp

/-! ## 4. What follows -/

theorem findByClass_eq (root : Element) (localName cls : String) :
    root.findByClass localName cls =
      (root.places.filter fun p => p.element.localName == localName && p.element.hasClass cls).map
        (·.element) := by
  rw [findByClass, ← places_element, List.filter_map]
  rfl

/-- What is to be said of the elements and the texts of a tree in document order. -/
structure InPreorder (root : Element) : Prop where
  /-- The stack with the root on it runs empty, and hands out the elements of the tree. -/
  yields (es : List Element) : Descent.Yields ⟨[root]⟩ es ↔ es = root.descendants
  /-- An element comes first, and then child by child the elements of its child elements; this fixes
  the list for every tree. -/
  recursive (pre : Element → List Element) :
    (∀ e, pre e = e :: e.childElements.flatMap pre) ↔ pre = descendants
  /-- The elements are those that child indices lead to. -/
  places_iff (p : Place) : p ∈ root.places ↔ root.Leads p.path p.around p.element
  places_element : root.places.map (·.element) = root.descendants
  /-- Their paths go up, so each is there once. -/
  places_sorted : root.places.Pairwise (·.path < ·.path)
  /-- A look-up by class finds the places of elements with the local name and the class. -/
  findByClass (localName cls : String) : root.findByClass localName cls =
    (root.places.filter fun p => p.element.localName == localName && p.element.hasClass cls).map
      (·.element)
  /-- The classes are the words of the attribute. -/
  hasClass (e : Element) (c : String) :
    e.hasClass c = true ↔ ∃ v, e.attribute? "class" = some v ∧ c ∈ Text.words v
  /-- The texts are those that child indices lead to. -/
  texts_iff (path : List Nat) (s : String) : (path, s) ∈ root.texts ↔ root.LeadsToText path s
  /-- Their paths go up, so each is there once. -/
  texts_sorted : root.texts.Pairwise (·.1 < ·.1)
  /-- The text of the tree is that of its texts, one behind the other. -/
  textContent : root.textContent = String.join (root.texts.map (·.2))

/-- **A tree is taken off its stack in document order**, and looked through and read in this
order. -/
theorem traversed_in_preorder (root : Element) : root.InPreorder where
  yields _ := Descent.yields_iff
  recursive _ := eq_descendants_iff
  places_iff _ := mem_places_iff
  places_element := root.places_element
  places_sorted := root.places_sorted
  findByClass := root.findByClass_eq
  hasClass _ _ := hasClass_iff
  texts_iff _ _ := mem_texts_iff
  texts_sorted := root.texts_sorted
  textContent := root.textContent_eq

end Element

end LivingDoc
