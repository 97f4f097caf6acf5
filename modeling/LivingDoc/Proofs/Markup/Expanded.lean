import LivingDoc.Proofs.Markup.Declarations
import LivingDoc.Proofs.Markup.Places
import LivingDoc.Proofs.Markup.WellNamed
import Mathlib.Data.List.Find

/-!
# Names keep their namespaces

A document is read into a tree in which every element lists the bindings in scope on it.  The
element made from it has names only: it declares what its parent has not, and its names take
prefixes that may be others than those that were written.  The evaluation goes by a scope of such
declarations, so the scope has to give back what the list said.

* `Xml.Lawful`: what the list of bindings and the names of an element have to do with each other.
* `Xml.Agrees.push`: the declarations of an element take a scope that agrees with its parent's list
  to one that agrees with its own.
* `Xml.Item.keeps_names`: so everywhere in the tree the scope agrees, and every name has the
  namespace it was made from, where no prefix is `xmlns`.
* `Xml.Item.not_forall_keeps_names`: where that prefix is bound they need not.
-/

namespace LivingDoc

/-- The namespace of an element by its qualified name: that of its prefix, and `xml` needs no
declaration. -/
def Scope.namespaceOf (s : Scope) (name : String) : Option String :=
  if (splitQualified name).1 = "xml" then some Xml.xmlUri else s.uriFor (splitQualified name).1

namespace Xml

/-! ## 1. Lawful trees -/

/-- The bindings and the names of an element, by the bindings of its parent.  This is what the rules
of namespaces in XML give a tree that a parser hands over. -/
structure Lawful (inherited : List Binding) (u : Option String) (l : String) (bs : List Binding)
    (ps : List Property) : Prop where
  /-- Every prefix is listed once, and those of the parent are among them. -/
  unique : (bs.map (·.qualifier)).Nodup
  inherits : ∀ b ∈ inherited, b.qualifier ∈ bs.map (·.qualifier)
  /-- Prefixes are names without a colon, and `xml` belongs to its namespace. -/
  prefixes : ∀ x ∈ prefixesOf bs, IsPlain x
  xml : ∀ b ∈ bs, (b.qualifier = some "xml" ↔ b.uri = xmlUri)
  /-- The namespace of the element is that of a prefix, or without a prefix the default one. -/
  isPlain : IsPlain l
  element : u = some xmlUri ∨ (∃ b ∈ bs, b.qualifier.isSome = true ∧ u = some b.uri) ∨
    u.getD "" = (uriOf? bs none).getD ""
  /-- That of an attribute is that of a prefix, and without a prefix there is none. -/
  plain : ∀ d ∈ ps, IsPlain d.localName
  properties : ∀ d ∈ ps, d.uri = none ∧ d.localName ≠ "xmlns" ∨ d.uri = some xmlUri ∨
    ∃ b ∈ bs, b.qualifier.isSome = true ∧ d.uri = some b.uri

instance (inherited : List Binding) (u : Option String) (l : String) (bs : List Binding)
    (ps : List Property) : Decidable (Lawful inherited u l bs ps) :=
  decidable_of_iff
    ((bs.map (·.qualifier)).Nodup ∧ (∀ b ∈ inherited, b.qualifier ∈ bs.map (·.qualifier)) ∧
      (∀ x ∈ prefixesOf bs, IsPlain x) ∧
      (∀ b ∈ bs, (b.qualifier = some "xml" ↔ b.uri = xmlUri)) ∧ IsPlain l ∧
      (u = some xmlUri ∨ (∃ b ∈ bs, b.qualifier.isSome = true ∧ u = some b.uri) ∨
        u.getD "" = (uriOf? bs none).getD "") ∧
      (∀ d ∈ ps, IsPlain d.localName) ∧
      ∀ d ∈ ps, d.uri = none ∧ d.localName ≠ "xmlns" ∨ d.uri = some xmlUri ∨
        ∃ b ∈ bs, b.qualifier.isSome = true ∧ d.uri = some b.uri)
    ⟨fun ⟨h1, h2, h3, h4, h5, h6, h7, h8⟩ => ⟨h1, h2, h3, h4, h5, h6, h7, h8⟩,
      fun ⟨h1, h2, h3, h4, h5, h6, h7, h8⟩ => ⟨h1, h2, h3, h4, h5, h6, h7, h8⟩⟩

/-- What can be said of an element in a tree of items, by the bindings of its parent. -/
abbrev ElementLaw :=
  List Binding → Option String → String → List Binding → List Property → Prop

/-- The prefix `xmlns` is not bound.  Namespaces in XML reserve it, but the reader does not refuse
it. -/
def NoXmlns : ElementLaw := fun _ _ _ bs _ => "xmlns" ∉ prefixesOf bs

mutual
/-- Every element of the tree obeys the law. -/
def Item.Every (P : ElementLaw) (inherited : List Binding) : Item → Prop
  | .text _ => True
  | .element u l bs ps cs => P inherited u l bs ps ∧ Item.EveryAll P bs cs
/-- Every element of the trees obeys the law. -/
def Item.EveryAll (P : ElementLaw) (inherited : List Binding) : List Item → Prop
  | [] => True
  | i :: rest => i.Every P inherited ∧ Item.EveryAll P inherited rest
end

mutual
/-- Whether a law holds everywhere in a tree is decided element by element. -/
def Item.Every.dec (P : ElementLaw) [∀ inherited u l bs ps, Decidable (P inherited u l bs ps)]
    (inherited : List Binding) : (i : Item) → Decidable (i.Every P inherited)
  | .text _ => .isTrue (by simp [Item.Every])
  | .element u l bs ps cs =>
    match Item.EveryAll.dec P bs cs with
    | .isTrue h => decidable_of_iff (P inherited u l bs ps) (by simp [Item.Every, h])
    | .isFalse h => .isFalse (by simp [Item.Every, h])
def Item.EveryAll.dec (P : ElementLaw) [∀ inherited u l bs ps, Decidable (P inherited u l bs ps)]
    (inherited : List Binding) : (is : List Item) → Decidable (Item.EveryAll P inherited is)
  | [] => .isTrue (by simp [Item.EveryAll])
  | i :: rest =>
    match Item.Every.dec P inherited i, Item.EveryAll.dec P inherited rest with
    | .isTrue h, .isTrue h' => .isTrue (by simp [Item.EveryAll, h, h'])
    | .isFalse h, _ => .isFalse (by simp [Item.EveryAll, h])
    | _, .isFalse h => .isFalse (by simp [Item.EveryAll, h])
end

instance (P : ElementLaw) [∀ inherited u l bs ps, Decidable (P inherited u l bs ps)]
    (inherited : List Binding) (i : Item) : Decidable (i.Every P inherited) :=
  Item.Every.dec P inherited i

instance (inherited : List Binding) (u : Option String) (l : String) (bs : List Binding)
    (ps : List Property) : Decidable (NoXmlns inherited u l bs ps) :=
  inferInstanceAs (Decidable ("xmlns" ∉ prefixesOf bs))

theorem Item.every_of_mem {P : ElementLaw} {inherited : List Binding} {is : List Item}
    (h : Item.EveryAll P inherited is) {i : Item} (hi : i ∈ is) : i.Every P inherited := by
  induction is with
  | nil => simp at hi
  | cons j is ih =>
    rw [Item.EveryAll] at h
    rcases List.mem_cons.mp hi with rfl | hi
    · exact h.1
    · exact ih h.2 hi

/-! ## 2. Where an item stands -/

/-- The element that is made of an element of a tree: its new declarations come first, and its names
take the prefixes that are in scope on it. -/
def owned (inherited : List Binding) (u : Option String) (l : String) (bs : List Binding)
    (ps : List Property) (cs : List Item) : Element :=
  ⟨qualify bs u l true, attributesOf bs inherited ps, Item.namedAll bs cs⟩

theorem Item.named_element (inherited : List Binding) (u : Option String) (l : String)
    (bs : List Binding) (ps : List Property) (cs : List Item) :
    (Item.element u l bs ps cs).named inherited = (owned inherited u l bs ps cs).node := by
  rw [Item.named]
  rfl

/-- The item stands at this path, inside the items that these elements are made of, and its parent
has these bindings. -/
inductive Item.Stands (root : Item) : List Nat → List Element → List Binding → Item → Prop
  | root : Stands root [] [] [] root
  | child {path : List Nat} {around : List Element} {inherited bs : List Binding}
      {u : Option String} {l : String} {ps : List Property} {cs : List Item} {i : Nat} {c : Item}
      (outer : Stands root path around inherited (.element u l bs ps cs)) (here : cs[i]? = some c) :
      Stands root (path ++ [i]) (around ++ [owned inherited u l bs ps cs]) bs c

theorem Item.namedAll_eq_map (inherited : List Binding) (is : List Item) :
    Item.namedAll inherited is = is.map (·.named inherited) := by
  induction is with
  | nil => rfl
  | cons i is ih => rw [Item.namedAll, ih, List.map_cons]

/-- What is made of an element has its place where the element stands.  By induction on the way to
it, which is about items of any kind; elements alone have places. -/
theorem Item.Stands.mem_places {root : Item} {e : Element} (he : root.named [] = e.node)
    {path : List Nat} {around : List Element} {inherited bs : List Binding} {u : Option String}
    {l : String} {ps : List Property} {cs : List Item}
    (h : root.Stands path around inherited (.element u l bs ps cs)) :
    (⟨path, around, owned inherited u l bs ps cs⟩ : Place) ∈ e.places := by
  refine Element.mem_places_iff.mpr ?_
  -- the induction is about items of any kind, and says something of the elements
  suffices ∀ (i : Item) (own : Element), root.Stands path around inherited i →
      i.named inherited = own.node → e.Leads path around own from this _ _ h rfl
  clear h
  intro i own h hown
  induction h generalizing own with
  | root =>
    rw [he] at hown
    obtain ⟨n, as, ds⟩ := e
    obtain ⟨n', as', ds'⟩ := own
    rw [Element.node, Element.node, Node.element.injEq] at hown
    obtain ⟨rfl, rfl, rfl⟩ := hown
    exact .root
  | @child path around inherited bs u l ps cs i c outer here ih =>
    refine (ih (owned inherited u l bs ps cs) rfl).child ?_
    rw [owned, Item.namedAll_eq_map, List.getElem?_map, here, ← hown]
    rfl

/-- A law that holds everywhere holds where an item stands. -/
theorem Item.Stands.every {P : ElementLaw} {root : Item} (hP : root.Every P []) {path : List Nat}
    {around : List Element} {inherited : List Binding} {i : Item}
    (h : root.Stands path around inherited i) : i.Every P inherited := by
  induction h with
  | root => exact hP
  | child outer here ih =>
    rw [Item.Every] at ih
    exact Item.every_of_mem ih.2 (List.mem_of_getElem? here)

/-! ## 3. Names and what they are made from -/

/-- The name of an attribute where the bindings are in scope. -/
def Property.name (bs : List Binding) (d : Property) : String :=
  qualify bs d.uri d.localName false

/-- How a name is made from a namespace and a local name. -/
inductive Qualified (bs : List Binding) (l : String) (mayDefault : Bool) :
    Option String → String → Prop
  | none : Qualified bs l mayDefault none l
  | xml : Qualified bs l mayDefault (some xmlUri) ("xml" ++ ":" ++ l)
  | default {b : Binding} (mem : b ∈ bs) (isDefault : b.qualifier = none) (may : mayDefault = true) :
      Qualified bs l mayDefault (some b.uri) l
  | qualified {b : Binding} {x : String} (mem : b ∈ bs) (stands : b.qualifier = some x)
      (notXml : b.uri ≠ xmlUri) : Qualified bs l mayDefault (some b.uri) (x ++ ":" ++ l)
  | unbound {w : String} (notXml : w ≠ xmlUri) (unbound : ∀ b ∈ bs, b.uri = w → b.qualifier = none)
      (may : mayDefault = true → ∀ b ∈ bs, b.uri ≠ w) : Qualified bs l mayDefault (some w) l

/-- A name is made in one of these ways. -/
theorem qualified_qualify (bs : List Binding) (u : Option String) (l : String) (mayDefault : Bool) :
    Qualified bs l mayDefault u (qualify bs u l mayDefault) := by
  cases u with
  | none => exact .none
  | some w =>
    by_cases hw : w = xmlUri
    · rw [qualify, if_pos hw, hw]
      exact .xml
    rw [qualify, if_neg hw]
    dsimp only
    split
    · rename_i hd
      rw [Bool.and_eq_true] at hd
      obtain ⟨b, hb, hq⟩ := List.any_eq_true.mp hd.2
      obtain ⟨hb, hu⟩ := List.mem_filter.mp hb
      rw [← beq_iff_eq.mp hu]
      exact .default hb (beq_iff_eq.mp hq) hd.1
    · rename_i hd
      split
      · rename_i x hx
        obtain ⟨b, hb, hq⟩ := List.exists_of_findSome?_eq_some hx
        obtain ⟨hb, hu⟩ := List.mem_filter.mp hb
        rw [← beq_iff_eq.mp hu] at hw ⊢
        exact .qualified hb hq hw
      · rename_i hnone
        have hq : ∀ b ∈ bs, b.uri = w → b.qualifier = none := by
          intro b hb hu
          exact List.findSome?_eq_none_iff.mp hnone b
            (List.mem_filter.mpr ⟨hb, beq_iff_eq.mpr hu⟩)
        refine .unbound hw hq ?_
        intro hmay b hb hu
        refine hd (Bool.and_eq_true_iff.mpr ⟨hmay, List.any_eq_true.mpr ⟨b, ?_, ?_⟩⟩)
        · exact List.mem_filter.mpr ⟨hb, beq_iff_eq.mpr hu⟩
        · exact beq_iff_eq.mpr (hq b hb hu)

section

variable {inherited : List Binding} {u : Option String} {l : String} {bs : List Binding}
  {ps : List Property} (law : Lawful inherited u l bs ps)

include law

theorem Lawful.isPlain_of_mem {b : Binding} (hb : b ∈ bs) {x : String}
    (hx : b.qualifier = some x) : IsPlain x :=
  law.prefixes x (List.mem_filterMap.mpr ⟨b, hb, hx⟩)

theorem Lawful.uriOf? {b : Binding} (hb : b ∈ bs) : Xml.uriOf? bs b.qualifier = some b.uri :=
  uriOf?_of_nodup law.unique hb

/-- An attribute of a lawful element has no prefix if it is in no namespace, and one that stands for
its namespace if it is in one. -/
theorem Lawful.property_cases {d : Property} (hd : d ∈ ps) :
    d.uri = none ∧ d.localName ≠ "xmlns" ∧ d.name bs = d.localName ∨
    d.uri = some xmlUri ∧ d.name bs = "xml" ++ ":" ++ d.localName ∨
    ∃ b ∈ bs, ∃ x, b.qualifier = some x ∧ b.uri ≠ xmlUri ∧ d.uri = some b.uri ∧
      d.name bs = x ++ ":" ++ d.localName := by
  have hname := qualified_qualify bs d.uri d.localName false
  have hlaw := law.properties d hd
  rw [Property.name]
  generalize qualify bs d.uri d.localName false = name at hname ⊢
  generalize d.uri = w at hname hlaw ⊢
  cases hname with
  | none =>
    rcases hlaw with h | h | ⟨b, -, -, h⟩
    · exact .inl ⟨rfl, h.2, rfl⟩
    · contradiction
    · contradiction
  | xml => exact .inr (.inl ⟨rfl, rfl⟩)
  | default mem isDefault may => contradiction
  | @qualified b x mem stands notXml => exact .inr (.inr ⟨b, mem, x, stands, notXml, rfl, rfl⟩)
  | @unbound w notXml unbound =>
    rcases hlaw with h | h | ⟨b, hb, hq, h⟩
    · exact absurd h.1 (by simp)
    · exact absurd (Option.some.inj h) notXml
    · rw [unbound b hb (Option.some.inj h).symm] at hq
      contradiction

/-- No attribute of a lawful element is written as a declaration: its prefix is not `xmlns`, and
without a prefix it is not called so. -/
theorem Lawful.declares_property (hx : "xmlns" ∉ prefixesOf bs) {d : Property} (hd : d ∈ ps) :
    Attribute.declares ⟨d.name bs, d.value⟩ = none := by
  have hxmlns : ∀ {x : String}, IsPlain x → x ≠ "xmlns" → ∀ v,
      Attribute.declares ⟨x ++ ":" ++ d.localName, v⟩ = none := by
    intro x hplain hne v
    have hparts := splitQualified_append hplain.no_colon d.localName
    have hname : x ++ ":" ++ d.localName ≠ "xmlns" := by
      intro h
      rw [h, splitQualified_of_no_colon isPlain_xmlns.no_colon] at hparts
      exact hplain.ne_empty (congrArg Prod.fst hparts).symm
    rw [Attribute.declares_eq, if_neg hname, if_neg]
    rw [QName.ofText, hparts]
    exact hne
  rcases law.property_cases hd with ⟨-, hne, h⟩ | ⟨-, h⟩ | ⟨b, hb, x, hq, -, -, h⟩
  · rw [h, Attribute.declares_eq, if_neg hne, if_neg]
    rw [QName.ofText, splitQualified_of_no_colon (law.plain d hd).no_colon]
    simp
  · rw [h]
    exact hxmlns isPlain_xml (by decide) d.value
  · rw [h]
    refine hxmlns (law.isPlain_of_mem hb hq) ?_ d.value
    rintro rfl
    exact hx (List.mem_filterMap.mpr ⟨b, hb, hq⟩)

/-! ## 4. The scope agrees -/

/-- What is made of a lawful element declares its new bindings and nothing else. -/
theorem Lawful.namespaceDeclarations (hx : "xmlns" ∉ prefixesOf bs) (cs : List Item) :
    (owned inherited u l bs ps cs).namespaceDeclarations =
      (newBindings bs inherited).map fun b => (b.qualifier.getD "", b.uri) := by
  have hdeclarations : ((newBindings bs inherited).map Binding.declaration).filterMap
      Attribute.declares = (newBindings bs inherited).map fun b => (b.qualifier.getD "", b.uri) := by
    rw [List.filterMap_map]
    refine (List.filterMap_congr fun b _ => declares_declaration b).trans ?_
    rw [List.filterMap_eq_map']
  have hproperties : (ps.map fun d => (⟨d.name bs, d.value⟩ : Attribute)).filterMap
      Attribute.declares = [] := by
    refine List.filterMap_eq_nil_iff.mpr fun a ha => ?_
    obtain ⟨d, hd, rfl⟩ := List.mem_map.mp ha
    exact law.declares_property hx hd
  rw [Element.namespaceDeclarations_eq]
  calc (owned inherited u l bs ps cs).attributes.filterMap Attribute.declares
      = ((newBindings bs inherited).map Binding.declaration).filterMap Attribute.declares ++
          (ps.map fun d => (⟨d.name bs, d.value⟩ : Attribute)).filterMap Attribute.declares :=
        List.filterMap_append
    _ = _ := by rw [hdeclarations, hproperties, List.append_nil]

/-- The scope gives a prefix the URI that its binding in the list has; `xml` needs none. -/
def Agrees (s : Scope) (bs : List Binding) : Prop :=
  ∀ x, x ≠ "xml" → s.uriFor x = Xml.uriOf? bs (qualifierOf x)

omit law in
theorem agrees_empty : Agrees .empty [] := fun _ _ => rfl

omit law in
theorem uriOf?_eq_none_iff {bs : List Binding} {q : Option String} :
    Xml.uriOf? bs q = none ↔ ∀ b ∈ bs, b.qualifier ≠ q := by
  simp [Xml.uriOf?]

theorem Lawful.getD_eq_iff {b : Binding} (hb : b ∈ bs) (x : String) :
    b.qualifier.getD "" = x ↔ b.qualifier = qualifierOf x := by
  unfold qualifierOf
  cases hq : b.qualifier with
  | none =>
    rw [Option.getD_none]
    split
    · rename_i h
      simp [h]
    · rename_i h
      simp [Ne.symm h]
  | some y =>
    have hne := (law.isPlain_of_mem hb hq).ne_empty
    rw [Option.getD_some]
    split
    · rename_i h
      simp [h, hne]
    · simp

/-- The new declarations are looked up as the new bindings, and then the scope around them is. -/
theorem Lawful.uriFor_push (hx : "xmlns" ∉ prefixesOf bs) (cs : List Item) (s : Scope)
    (x : String) :
    (s.push (owned inherited u l bs ps cs)).uriFor x =
      (Xml.uriOf? (newBindings bs inherited).reverse (qualifierOf x)).or (s.uriFor x) := by
  have hfind : ((newBindings bs inherited).reverse.find? fun b => b.qualifier.getD "" == x) =
      (newBindings bs inherited).reverse.find? (·.qualifier == qualifierOf x) := by
    refine List.find?_congr fun b hb => ?_
    have hb : b ∈ bs := List.mem_of_mem_filter (List.mem_reverse.mp hb)
    rw [Bool.eq_iff_iff, beq_iff_eq, beq_iff_eq]
    exact law.getD_eq_iff hb x
  rw [Scope.uriFor, Scope.push]
  dsimp only
  rw [List.find?_append, law.namespaceDeclarations hx, ← List.map_reverse, List.find?_map,
    Option.map_or, Option.map_map, Xml.uriOf?, ← hfind]
  rfl

/-- **The declarations of an element take a scope that agrees with its parent's bindings to one that
agrees with its own.**  A binding that the parent has too is not declared again; the scope around
the element still has it, unless a new one is in front of it, which the list then shows. -/
theorem Agrees.push (hx : "xmlns" ∉ prefixesOf bs) (cs : List Item) {s : Scope}
    (h : Agrees s inherited) (hunique : (inherited.map (·.qualifier)).Nodup) :
    Agrees (s.push (owned inherited u l bs ps cs)) bs := by
  intro x hxml
  rw [law.uriFor_push hx, h x hxml]
  have hnew : ∀ b ∈ (newBindings bs inherited).reverse, b ∈ bs ∧ b ∉ inherited := by
    intro b hb
    obtain ⟨hb, hp⟩ := List.mem_filter.mp (List.mem_reverse.mp hb)
    simp only [Bool.and_eq_true, Bool.not_eq_true', List.contains_eq_mem,
      decide_eq_false_iff_not] at hp
    exact ⟨hb, hp.2⟩
  cases hq : Xml.uriOf? bs (qualifierOf x) with
  | none =>
    -- a prefix that is not in the list is not in that of the parent
    have hnone := uriOf?_eq_none_iff.mp hq
    have hown : Xml.uriOf? (newBindings bs inherited).reverse (qualifierOf x) = none :=
      uriOf?_eq_none_iff.mpr fun b hb => hnone b (hnew b hb).1
    have houter : Xml.uriOf? inherited (qualifierOf x) = none := by
      refine uriOf?_eq_none_iff.mpr fun b hb hbq => ?_
      obtain ⟨c, hc, hcq⟩ := List.mem_map.mp (law.inherits b hb)
      exact hnone c hc (hcq.trans hbq)
    rw [hown, houter]
    rfl
  | some w =>
    obtain ⟨b, hb, hbq, rfl⟩ := mem_of_uriOf? hq
    by_cases hi : b ∈ inherited
    · -- the parent has the binding, so nothing new has its prefix
      have hown : Xml.uriOf? (newBindings bs inherited).reverse (qualifierOf x) = none := by
        refine uriOf?_eq_none_iff.mpr fun c hc hcq => ?_
        obtain ⟨hc, hci⟩ := hnew c hc
        have huri := law.uriOf? hc
        rw [hcq, hq, Option.some.injEq] at huri
        have hsame : c = b := by
          obtain ⟨q, v⟩ := c
          obtain ⟨q', v'⟩ := b
          dsimp only at hcq hbq huri
          rw [hcq, hbq, huri]
        exact hci (hsame ▸ hi)
      rw [hown, ← hbq, uriOf?_of_nodup hunique hi]
      rfl
    · -- the binding is new, and the only one of its prefix
      have hbx : b.uri ≠ xmlUri := by
        intro hu
        have hqx := (law.xml b hb).mpr hu
        rw [hbq] at hqx
        exact hxml (qualifierOf_injective (hqx.trans rfl))
      have hmem : b ∈ (newBindings bs inherited).reverse :=
        List.mem_reverse.mpr (List.mem_filter.mpr ⟨hb, by simp [hbx, hi]⟩)
      have hnodup : ((newBindings bs inherited).reverse.map (·.qualifier)).Nodup := by
        rw [List.map_reverse, List.nodup_reverse]
        exact law.unique.sublist (List.filter_sublist.map _)
      rw [← hbq, uriOf?_of_nodup hnodup hmem]
      rfl

/-! ## 5. Names have their namespaces -/

/-- The scope and the names on an element say what the bindings and namespaces said that it was made
from. -/
structure KeepsNamespaces (scope : Scope) (own : Element) (u : Option String) (bs : List Binding)
    (ps : List Property) : Prop where
  /-- Every prefix but `xml` stands for what it stood for. -/
  bindings : ∀ x, x ≠ "xml" → scope.uriFor x = Xml.uriOf? bs (qualifierOf x)
  /-- The attributes are there behind the declarations. -/
  present : ∃ declarations, own.attributes =
    declarations ++ ps.map fun d => ⟨d.name bs, d.value⟩
  /-- One in a namespace matches it, and one in none has no prefix. -/
  matched : ∀ d ∈ ps, ∀ w, d.uri = some w → w ≠ xmlUri →
    scope.attributeMatches (d.name bs) w d.localName = true
  unprefixed : ∀ d ∈ ps, d.uri = none → (splitQualified (d.name bs)).1 = ""
  /-- The name of the element has its namespace; the empty one is none. -/
  name : (scope.namespaceOf own.name).getD "" = u.getD ""

/-- The name of a lawful element has its namespace in a scope that agrees.  An element without a
namespace may have the empty one instead, which is how the default namespace is taken back. -/
theorem Lawful.namespaceOf_name {s : Scope} (h : Agrees s bs) :
    (s.namespaceOf (qualify bs u l true)).getD "" = u.getD "" := by
  have hname := qualified_qualify bs u l true
  have hlaw := law.element
  generalize qualify bs u l true = name at hname ⊢
  have hlocal : s.namespaceOf l = Xml.uriOf? bs none := by
    rw [Scope.namespaceOf, splitQualified_of_no_colon law.isPlain.no_colon, if_neg (by simp)]
    exact h "" (by decide)
  cases hname with
  | none =>
    rw [hlocal]
    rcases hlaw with hu | ⟨b, -, -, hu⟩ | hu
    · contradiction
    · contradiction
    · exact hu.symm
  | xml =>
    rw [Scope.namespaceOf, splitQualified_append isPlain_xml.no_colon, if_pos rfl]
  | @default b mem isDefault =>
    have hu := law.uriOf? mem
    rw [isDefault] at hu
    rw [hlocal, hu]
  | @qualified b x mem stands notXml =>
    have hplain := law.isPlain_of_mem mem stands
    have hx : x ≠ "xml" := by
      rintro rfl
      exact notXml ((law.xml b mem).mp stands)
    have hu := law.uriOf? mem
    rw [stands] at hu
    rw [Scope.namespaceOf, splitQualified_append hplain.no_colon, if_neg hx, h x hx, qualifierOf,
      if_neg hplain.ne_empty, hu]
  | @unbound w notXml unbound may =>
    rw [hlocal]
    rcases hlaw with hu | ⟨b, hb, -, hu⟩ | hu
    · exact absurd (Option.some.inj hu) notXml
    · exact absurd (Option.some.inj hu).symm (may rfl b hb)
    · exact hu.symm

/-- An attribute of a lawful element matches its namespace in a scope that agrees. -/
theorem Lawful.attributeMatches_name (hx : "xmlns" ∉ prefixesOf bs) {s : Scope} (h : Agrees s bs)
    {d : Property} (hd : d ∈ ps) {w : String} (hw : d.uri = some w) (hxml : w ≠ xmlUri) :
    s.attributeMatches (d.name bs) w d.localName = true := by
  rcases law.property_cases hd with ⟨hu, -⟩ | ⟨hu, -⟩ | ⟨b, hb, x, hq, hne, hu, hname⟩
  · rw [hw] at hu
    contradiction
  · rw [hw] at hu
    exact absurd (Option.some.inj hu) hxml
  · rw [hw, Option.some.injEq] at hu
    subst hu
    have hplain := law.isPlain_of_mem hb hq
    have hbound : x ≠ "xml" := by
      rintro rfl
      exact hne ((law.xml b hb).mp hq)
    have hreserved : x ≠ "xmlns" := by
      rintro rfl
      exact hx (List.mem_filterMap.mpr ⟨b, hb, hq⟩)
    have huri := law.uriOf? hb
    rw [hq] at huri
    rw [Scope.attributeMatches, hname, splitQualified_append hplain.no_colon]
    simp [hplain.ne_empty, hreserved, h x hbound, qualifierOf, huri]

/-- A lawful element keeps its names in a scope that agrees. -/
theorem Lawful.keepsNamespaces (hx : "xmlns" ∉ prefixesOf bs) (cs : List Item) {s : Scope}
    (h : Agrees s bs) : KeepsNamespaces s (owned inherited u l bs ps cs) u bs ps where
  bindings := h
  present := ⟨_, rfl⟩
  matched := fun _ hd _ hw hxml => law.attributeMatches_name hx h hd hw hxml
  unprefixed := by
    intro d hd hu
    rcases law.property_cases hd with ⟨-, -, hname⟩ | ⟨hu', -⟩ | ⟨b, -, x, -, -, hu', -⟩
    · rw [hname, splitQualified_of_no_colon (law.plain d hd).no_colon]
    · rw [hu] at hu'
      contradiction
    · rw [hu] at hu'
      contradiction
  name := law.namespaceOf_name h

end

/-! ## 6. The whole tree -/

/-- Wherever an item stands the scope agrees with the bindings of its parent.  By induction on the
way to it; each element on the way is pushed once. -/
theorem Item.Stands.agrees {root : Item} (hlaw : root.Every Lawful []) (hx : root.Every NoXmlns [])
    {path : List Nat} {around : List Element} {inherited : List Binding} {i : Item}
    (h : root.Stands path around inherited i) :
    Agrees (scopeWithin around) inherited ∧ (inherited.map (·.qualifier)).Nodup := by
  induction h with
  | root => exact ⟨agrees_empty, List.nodup_nil⟩
  | @child path around inherited bs u l ps cs i c outer here ih =>
    have law := outer.every hlaw
    have hreserved := outer.every hx
    rw [Item.Every] at law hreserved
    rw [scopeWithin_append]
    exact ⟨Agrees.push law.1 hreserved.1 cs ih.1 ih.2, law.1.unique⟩

/-- **Names keep their namespaces.**  What is made of an element of a lawful tree has its place in
the element made of the tree, and in the scope of that place every prefix stands for what it stood
for, and every name has the namespace it was made from. -/
theorem Item.keeps_names {root : Item} {e : Element} (he : root.named [] = e.node)
    (hlaw : root.Every Lawful []) (hx : root.Every NoXmlns []) {path : List Nat}
    {around : List Element} {inherited bs : List Binding} {u : Option String} {l : String}
    {ps : List Property} {cs : List Item}
    (h : root.Stands path around inherited (.element u l bs ps cs)) :
    (⟨path, around, owned inherited u l bs ps cs⟩ : Place) ∈ e.places ∧
      KeepsNamespaces (Place.scope ⟨path, around, owned inherited u l bs ps cs⟩)
        (owned inherited u l bs ps cs) u bs ps := by
  obtain ⟨hagrees, hunique⟩ := h.agrees hlaw hx
  have law := h.every hlaw
  have hreserved := h.every hx
  rw [Item.Every] at law hreserved
  rw [Place.scope_mk]
  exact ⟨h.mem_places he,
    law.1.keepsNamespaces hreserved.1 cs (Agrees.push law.1 hreserved.1 cs hagrees hunique)⟩

/-- A tree in which a prefix is bound again, two prefixes have one namespace, and the default
namespace is taken back. -/
def nested : Item :=
  .element (some "u") "a" [⟨some "p", "u"⟩, ⟨some "q", "u"⟩, ⟨none, "d"⟩]
    [⟨some "u", "k", "1"⟩, ⟨none, "k", "2"⟩]
    [.element (some "") "b" [⟨none, ""⟩, ⟨some "p", "v"⟩, ⟨some "q", "u"⟩] []
      [.element (some "v") "c" [⟨none, ""⟩, ⟨some "p", "v"⟩, ⟨some "q", "u"⟩]
        [⟨some "u", "k", "3"⟩] []]]

theorem keeps_names_nested : nested.Every Lawful [] ∧ nested.Every NoXmlns [] ∧
    ∃ path around inherited u l bs ps cs,
      nested.Stands path around inherited (.element u l bs ps cs) ∧ ps = [⟨some "u", "k", "3"⟩] ∧
      KeepsNamespaces (Place.scope ⟨path, around, owned inherited u l bs ps cs⟩)
        (owned inherited u l bs ps cs) u bs ps := by
  have hlaw : nested.Every Lawful [] := by decide +kernel
  have hx : nested.Every NoXmlns [] := by decide +kernel
  have hstands : nested.Stands [0, 0] _ _ _ :=
    Item.Stands.child (i := 0) (.child (i := 0) .root rfl) rfl
  exact ⟨hlaw, hx, _, _, _, _, _, _, _, _, hstands, rfl,
    (Item.keeps_names (Item.named_element ..) hlaw hx hstands).2⟩

/-- **With the prefix `xmlns` names need not keep their namespaces.**  The attribute `q` is given
that prefix, which stands for its namespace, but what has it is a declaration. -/
theorem Item.not_forall_keeps_names : ¬ ∀ (root : Item) (e : Element), root.named [] = e.node →
    root.Every Lawful [] → ∀ path around inherited u l bs ps cs,
      root.Stands path around inherited (.element u l bs ps cs) →
      KeepsNamespaces (Place.scope ⟨path, around, owned inherited u l bs ps cs⟩)
        (owned inherited u l bs ps cs) u bs ps := by
  intro h
  have hlaw : Item.Every Lawful [] (.element none "a" [⟨some "xmlns", "u"⟩, ⟨some "p", "u"⟩]
      [⟨some "u", "q", "v"⟩] []) := by decide +kernel
  have hkeeps := h _ _ (Item.named_element ..) hlaw _ _ _ _ _ _ _ _ .root
  exact absurd (hkeeps.matched _ List.mem_cons_self "u" rfl (by decide)) (by decide +kernel)

end Xml

end LivingDoc
