import LivingDoc.Markup.Scope
import LivingDoc.Markup.Traversal

/-!
# Places in a tree

An element on its own does not say where it stands: which declarations are in scope for it depends
on the elements around it, and an outcome is recorded under the path to it.  A place is an element
with both, and the places of a tree are its elements in document order.

* `Element.mem_places_iff`: the places are exactly what child indices lead to from the root.
* `Element.places_element`: their elements are the tree's elements in document order.
* `Element.places_sorted`: their paths go up in lexicographic order, so no element has two places.
-/

namespace LivingDoc

/-! ## 1. Places -/

/-- Where an element stands in a tree. -/
structure Place where
  /-- The child indices from the root. -/
  path : List Nat
  /-- The elements around it, from the root inwards. -/
  around : List Element
  element : Element
deriving DecidableEq

mutual
/-- The places in a child at a path, in document order. -/
def Node.places (path : List Nat) (around : List Element) : Node → List Place
  | .text _ => []
  | .element n as cs =>
    ⟨path, around, ⟨n, as, cs⟩⟩ :: Node.placesAll path (around ++ [⟨n, as, cs⟩]) 0 cs
/-- The places in the children of the element at a path, from the one with this index on. -/
def Node.placesAll (path : List Nat) (around : List Element) (index : Nat) :
    List Node → List Place
  | [] => []
  | n :: rest => n.places (path ++ [index]) around ++ Node.placesAll path around (index + 1) rest
end

/-- The places of the tree below an element, its own first. -/
def Element.places (root : Element) : List Place := root.node.places [] []

namespace Place

/-- The places of the descendants of the element at a place. -/
def below (p : Place) : List Place :=
  Node.placesAll p.path (p.around ++ [p.element]) 0 p.element.children

/-- The declarations in scope at a place: those of the elements around it and its own, each pushed
onto a fresh scope. -/
def scope (p : Place) : Scope := (p.around ++ [p.element]).foldl Scope.push .empty

end Place

/-- The scope inside the elements around a place. -/
def scopeWithin (around : List Element) : Scope := around.foldl Scope.push .empty

theorem scopeWithin_append (around : List Element) (e : Element) :
    scopeWithin (around ++ [e]) = (scopeWithin around).push e := by
  simp [scopeWithin]

theorem Place.scope_mk (path : List Nat) (around : List Element) (e : Element) :
    Place.scope ⟨path, around, e⟩ = (scopeWithin around).push e :=
  scopeWithin_append around e

theorem Element.places_eq (root : Element) :
    root.places = ⟨[], [], root⟩ :: Place.below ⟨[], [], root⟩ := by
  simp only [places, Element.node, Node.places, Place.below, List.nil_append]

/-! ## 2. What leads to a place -/

/-- The child indices lead from the root to an element, past the elements around it. -/
inductive Element.Leads (root : Element) : List Nat → List Element → Element → Prop
  | root : Leads root [] [] root
  | child {path : List Nat} {around : List Element} {e c : Element} {i : Nat}
      (outer : Leads root path around e) (here : e.children[i]? = some c.node) :
      Leads root (path ++ [i]) (around ++ [e]) c

/-- What leads to an element leads on to the places in its children.  By induction on those of the
children that are left, from an index on. -/
theorem Element.Leads.placesAll {root : Element} (ns : List Node) {path : List Nat}
    {around : List Element} {e : Element} {i : Nat} (h : root.Leads path around e)
    (hns : e.children.drop i = ns) {p : Place}
    (hp : p ∈ Node.placesAll path (around ++ [e]) i ns) :
    root.Leads p.path p.around p.element := by
  induction ns using Node.induction generalizing path around e i with
  | nil => simp [Node.placesAll] at hp
  | text s rest ih =>
    have hrest : e.children.drop (i + 1) = rest := by rw [← List.tail_drop, hns, List.tail_cons]
    simp only [Node.placesAll, Node.places, List.nil_append] at hp
    exact ih h hrest hp
  | element n as cs rest ihc ihr =>
    have hrest : e.children.drop (i + 1) = rest := by rw [← List.tail_drop, hns, List.tail_cons]
    have here : e.children[i]? = some (Element.node ⟨n, as, cs⟩) := by
      rw [← List.head?_drop, hns]
      rfl
    simp only [Node.placesAll, Node.places, List.cons_append, List.mem_cons,
      List.mem_append] at hp
    rcases hp with rfl | hp | hp
    · exact h.child here
    · exact ihc (h.child here) rfl hp
    · exact ihr h hrest hp

theorem Node.below_subset_placesAll (ns : List Node) {path : List Nat} {around : List Element}
    {i : Nat} {p q : Place} (hp : p ∈ Node.placesAll path around i ns) (hq : q ∈ p.below) :
    q ∈ Node.placesAll path around i ns := by
  induction ns using Node.induction generalizing path around i with
  | nil => simp [Node.placesAll] at hp
  | text s rest ih =>
    simp only [Node.placesAll, Node.places, List.nil_append] at hp ⊢
    exact ih hp
  | element n as cs rest ihc ihr =>
    simp only [Node.placesAll, Node.places, List.cons_append, List.mem_cons,
      List.mem_append] at hp ⊢
    rcases hp with rfl | hp | hp
    · exact .inr (.inl hq)
    · exact .inr (.inl (ihc hp))
    · exact .inr (.inr (ihr hp))

theorem Element.below_subset_places {root : Element} {p q : Place} (hp : p ∈ root.places)
    (hq : q ∈ p.below) : q ∈ root.places := by
  rw [places_eq, List.mem_cons] at hp ⊢
  right
  rcases hp with rfl | hp
  · exact hq
  · exact Node.below_subset_placesAll _ hp hq

/-- A child element has its place among those of the children. -/
theorem Node.mem_placesAll_of_get (ns : List Node) (path : List Nat) (around : List Element)
    (i : Nat) {j : Nat} {c : Element} (h : ns[j]? = some c.node) :
    (⟨path ++ [i + j], around, c⟩ : Place) ∈ Node.placesAll path around i ns := by
  induction ns generalizing i j with
  | nil => simp at h
  | cons n rest ih =>
    rw [Node.placesAll, List.mem_append]
    cases j with
    | zero =>
      simp only [List.getElem?_cons_zero, Option.some.injEq] at h
      subst h
      left
      exact List.mem_cons_self
    | succ j =>
      right
      have := ih (i + 1) (by simpa using h)
      rwa [Nat.add_right_comm] at this

/-- **The places of a tree are exactly what the child indices lead to from the root.**  The list is
made by recursion into the children, and the relation grows at its end; so one direction is an
induction on the tree and the other on the way. -/
theorem Element.mem_places_iff {root : Element} {p : Place} :
    p ∈ root.places ↔ root.Leads p.path p.around p.element := by
  constructor
  · intro h
    rw [places_eq, List.mem_cons] at h
    rcases h with rfl | h
    · exact .root
    · exact Leads.placesAll _ .root rfl h
  · suffices ∀ path around e, root.Leads path around e →
        (⟨path, around, e⟩ : Place) ∈ root.places from this p.path p.around p.element
    intro path around e h
    induction h with
    | root => simp [places_eq]
    | @child path around e c i outer here ih =>
      refine below_subset_places ih ?_
      have := Node.mem_placesAll_of_get e.children path (around ++ [e]) 0 here
      rwa [Nat.zero_add] at this

/-! ## 3. Document order -/

theorem path_lt_append (path : List Nat) (j : Nat) (tail : List Nat) :
    path < path ++ j :: tail := by
  have h : path ++ [] < path ++ j :: tail := List.append_left_lt (List.nil_lt_cons j tail)
  rwa [List.append_nil] at h

theorem append_cons_lt (path : List Nat) {j k : Nat} (h : j < k) (s t : List Nat) :
    path ++ j :: s < path ++ k :: t :=
  List.append_left_lt (List.cons_lt_cons_iff.mpr (.inl h))

/-- The elements of children are traversed as their places are listed.  By induction on the
children, with whatever is on the stack behind them. -/
theorem Node.traverse_children (ns : List Node) (path : List Nat) (around : List Element) (i : Nat)
    (rest : List Element) :
    Element.traverse (ns.filterMap Node.element? ++ rest) =
      (Node.placesAll path around i ns).map (·.element) ++ Element.traverse rest := by
  induction ns using Node.induction generalizing path around i rest with
  | nil => rfl
  | text s more ih =>
    rw [List.filterMap_cons_none rfl, ih path around (i + 1) rest]
    simp only [Node.placesAll, Node.places, List.nil_append]
  | element n as cs more ihc ihr =>
    have hcs : Element.childElements ⟨n, as, cs⟩ = cs.filterMap Node.element? := rfl
    have hn : Node.element? (.element n as cs) = some ⟨n, as, cs⟩ := rfl
    rw [List.filterMap_cons_some hn, List.cons_append, Element.traverse, hcs,
      ihc (path ++ [i]) (around ++ [⟨n, as, cs⟩]) 0, ihr path around (i + 1) rest]
    simp only [Node.placesAll, Node.places, List.map_append, List.map_cons, List.cons_append,
      List.append_assoc]

/-- **The elements of the places are those of the tree in document order.** -/
theorem Element.places_element (root : Element) :
    root.places.map (·.element) = root.descendants := by
  have h := Node.traverse_children root.children [] [root] 0 []
  simp only [List.append_nil] at h
  rw [descendants, Element.traverse, List.append_nil, Element.childElements, h, places_eq]
  simp [Place.below, Element.traverse]

/-- The places of children lie behind the path of their parent, none in front of the index. -/
theorem Node.path_of_mem_placesAll (ns : List Node) {path : List Nat} {around : List Element}
    {i : Nat} {p : Place} (hp : p ∈ Node.placesAll path around i ns) :
    ∃ j tail, i ≤ j ∧ p.path = path ++ j :: tail := by
  induction ns using Node.induction generalizing path around i with
  | nil => simp [Node.placesAll] at hp
  | text s rest ih =>
    simp only [Node.placesAll, Node.places, List.nil_append] at hp
    obtain ⟨j, tail, hj, h⟩ := ih hp
    exact ⟨j, tail, by omega, h⟩
  | element n as cs rest ihc ihr =>
    simp only [Node.placesAll, Node.places, List.cons_append, List.mem_cons,
      List.mem_append] at hp
    rcases hp with rfl | hp | hp
    · exact ⟨i, [], Nat.le_refl i, rfl⟩
    · obtain ⟨j, tail, -, h⟩ := ihc hp
      exact ⟨i, j :: tail, Nat.le_refl i, by simpa using h⟩
    · obtain ⟨j, tail, hj, h⟩ := ihr hp
      exact ⟨j, tail, by omega, h⟩

/-- The paths of the places of children go up.  By induction on the children: those in a child go on
with its index, and a later child has a greater one. -/
theorem Node.placesAll_sorted (ns : List Node) (path : List Nat) (around : List Element) (i : Nat) :
    (Node.placesAll path around i ns).Pairwise (·.path < ·.path) := by
  induction ns using Node.induction generalizing path around i with
  | nil => exact .nil
  | text s rest ih =>
    simp only [Node.placesAll, Node.places, List.nil_append]
    exact ih path around (i + 1)
  | element n as cs rest ihc ihr =>
    simp only [Node.placesAll, Node.places, List.cons_append, List.pairwise_cons, List.mem_append,
      List.pairwise_append]
    refine ⟨?_, ihc .., ihr .., ?_⟩
    · rintro q (hq | hq)
      · obtain ⟨j, tail, -, h⟩ := Node.path_of_mem_placesAll cs hq
        rw [h]
        exact path_lt_append (path ++ [i]) j tail
      · obtain ⟨j, tail, hj, h⟩ := Node.path_of_mem_placesAll rest hq
        rw [h]
        exact append_cons_lt path (by omega) [] tail
    · intro p hp q hq
      obtain ⟨j, tail, -, h⟩ := Node.path_of_mem_placesAll cs hp
      obtain ⟨k, tail', hk, h'⟩ := Node.path_of_mem_placesAll rest hq
      rw [h, h', List.append_assoc]
      exact append_cons_lt path (by omega) (j :: tail) tail'

/-- **The paths of the places go up in lexicographic order.** -/
theorem Element.places_sorted (root : Element) : root.places.Pairwise (·.path < ·.path) := by
  rw [places_eq, List.pairwise_cons]
  refine ⟨?_, Node.placesAll_sorted ..⟩
  intro q hq
  obtain ⟨j, tail, -, h⟩ := Node.path_of_mem_placesAll _ hq
  rw [h]
  exact List.nil_lt_cons ..

theorem Element.places_path_nodup (root : Element) : (root.places.map (·.path)).Nodup := by
  rw [List.Nodup, List.pairwise_map]
  exact root.places_sorted.imp fun h => Std.ne_of_lt h

end LivingDoc
