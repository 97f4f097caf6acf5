import LivingDoc.Proofs.Markup.Rereading
import LivingDoc.Proofs.Markup.Stability
import LivingDoc.Proofs.Markup.WellNamed

/-!
# Elements that come back

An element written as markup and read again should be the element, and in general it is not: a line
end in an attribute value is read as a space, two texts next to each other are read as one, a prefix
may be exchanged for another one of the same namespace.  Here is exactly when it is.

* `Element.Stable`: the texts and tags that come back, with the bindings in scope at each.
* `Element.parse_markup_eq_self_iff`: an element comes back if and only if it is stable.
* `Element.not_forall_parse_markup`: not every element that is read is.
-/

namespace LivingDoc

namespace Xml

/-! ## 1. Stable nodes -/

/-- The text comes back: there is something in it, all of it allowed, and its carriage returns are
read as such. -/
def TextStable (s : String) : Prop :=
  s.toList ≠ [] ∧ (∀ c ∈ s.toList, isAllowed c = true) ∧ returnsKept false s.toList = true

/-- The first node is a text. -/
def startsWithText : List Node → Bool
  | .text _ :: _ => true
  | _ => false

mutual
/-- The node comes back where these bindings are inherited: the text does, or the tag with the
children. -/
def StableNode : (inherited : List Binding) → Node → Prop
  | _, .text s => TextStable s
  | inherited, .element n as cs =>
    TagStable inherited n as ∧ StableAll (inScope (bindingsOf as) inherited) cs
/-- The nodes come back: each of them does, and no two texts stand next to each other. -/
def StableAll : (inherited : List Binding) → List Node → Prop
  | _, [] => True
  | inherited, n :: ns =>
    StableNode inherited n ∧ (n.isElement = true ∨ startsWithText ns = false) ∧
      StableAll inherited ns
end

instance (s : String) : Decidable (TextStable s) :=
  @instDecidableAnd _ _ inferInstance (@instDecidableAnd _ _ (List.decidableBAll _ _) inferInstance)

mutual
/-- Whether a node is stable is decided part by part. -/
def StableNode.dec : (inherited : List Binding) → (n : Node) → Decidable (StableNode inherited n)
  | _, .text s => decidable_of_iff (TextStable s) (by rw [StableNode])
  | inherited, .element n as cs =>
    match StableAll.dec (inScope (bindingsOf as) inherited) cs with
    | .isTrue h => decidable_of_iff (TagStable inherited n as) (by simp [StableNode, h])
    | .isFalse h => .isFalse (by simp [StableNode, h])
def StableAll.dec : (inherited : List Binding) → (ns : List Node) → Decidable (StableAll inherited ns)
  | _, [] => .isTrue (by simp [StableAll])
  | inherited, n :: ns =>
    match StableNode.dec inherited n, StableAll.dec inherited ns with
    | .isTrue h, .isTrue h' =>
      decidable_of_iff (n.isElement = true ∨ startsWithText ns = false) (by simp [StableAll, h, h'])
    | .isFalse h, _ => .isFalse (by simp [StableAll, h])
    | _, .isFalse h => .isFalse (by simp [StableAll, h])
end

instance (inherited : List Binding) (n : Node) : Decidable (StableNode inherited n) :=
  StableNode.dec inherited n

theorem writableAll_of_stableAll {ns : List Node} {inherited : List Binding}
    (h : StableAll inherited ns) : WritableAll ns := by
  induction ns using Node.induction generalizing inherited with
  | nil => simp [WritableAll]
  | text s ns ih =>
    rw [StableAll] at h
    rw [WritableAll, Writable]
    exact ⟨trivial, ih h.2.2⟩
  | element n as cs ns ihc ihr =>
    rw [StableAll, StableNode] at h
    rw [WritableAll, Writable]
    exact ⟨⟨h.1.1.isName, h.1.1.named, ihc h.1.2⟩, ihr h.2.2⟩

/-! ## 2. Texts -/

/-- What is read of a text is the text when it is stable, and else it is another text or nothing. -/
theorem textItems_eq_some_iff {s x : String} (hs : s.toList ≠ []) :
    textItems s.toList = some [.text x] ↔
      (∀ c ∈ s.toList, isAllowed c = true) ∧ String.ofList (textRead false s.toList) = x := by
  have hempty : s.toList.isEmpty = false := by simpa using hs
  rw [textItems, hempty, ← List.all_eq_true]
  split
  · rename_i h
    simp [h]
  · rename_i h
    simp [h]

theorem textStable_iff {s : String} (hs : s.toList ≠ []) :
    textItems s.toList = some [.text s] ↔ TextStable s := by
  rw [textItems_eq_some_iff hs, TextStable, ← textRead_eq_self_iff]
  refine ⟨fun h => ⟨hs, h.1, ?_⟩, fun h => ⟨h.2.1, ?_⟩⟩
  · have hl := congrArg String.toList h.2
    rwa [String.toList_ofList] at hl
  · rw [h.2.2, String.ofList_toList]

theorem textItems_eq_some {s : List Char} {is : List Item} (h : textItems s = some is) :
    s = [] ∧ is = [] ∨ s ≠ [] ∧ ∃ x, is = [.text x] := by
  unfold textItems at h
  split at h
  · rw [Option.some.injEq] at h
    subst h
    cases s with
    | nil => exact Or.inl ⟨rfl, rfl⟩
    | cons c s => exact Or.inr ⟨by simp, _, rfl⟩
  · contradiction

/-- A text in front of a tag is a node of its own. -/
theorem rereadAll_of_not_text {ns : List Node} (h : startsWithText ns = false)
    (inherited : List Binding) (before : List Char) :
    rereadAll inherited before ns =
      (textItems before).bind fun texts => (rereadAll inherited [] ns).map (texts ++ ·) := by
  cases ns with
  | nil =>
    rw [rereadAll, rereadAll, textItems_nil]
    cases textItems before with
    | none => rfl
    | some texts => simp
  | cons n ns =>
    cases n with
    | text s => contradiction
    | element n as cs =>
      rw [rereadAll, rereadAll, textItems_nil]
      cases textItems before with
      | none => rfl
      | some texts =>
        rw [Option.bind_some, Option.bind_some, Option.bind_some]
        cases tagRead inherited (.ofText n) as with
        | none => rfl
        | some t =>
          rw [Option.bind_some, Option.bind_some]
          cases rereadAll t.bindings [] cs with
          | none => rfl
          | some children =>
            rw [Option.bind_some, Option.bind_some, Option.map_map]
            rfl

/-- Not more nodes are read than were written, and one fewer where two texts are read as one.  By
induction on the nodes. -/
theorem length_rereadAll_le {ns : List Node} {inherited : List Binding} {before : List Char}
    {is : List Item} (h : rereadAll inherited before ns = some is) :
    is.length ≤ ns.length + if before = [] then 0 else 1 := by
  induction ns generalizing before is with
  | nil =>
    rw [rereadAll] at h
    rcases textItems_eq_some h with ⟨hb, rfl⟩ | ⟨hb, x, rfl⟩
    · simp
    · simp [hb]
  | cons n ns ih =>
    cases n with
    | text s =>
      rw [rereadAll] at h
      have := ih h
      rw [List.length_cons]
      split at this <;> split <;> simp_all <;> omega
    | element n as cs =>
      rw [rereadAll] at h
      obtain ⟨texts, htexts, h⟩ := Option.bind_eq_some_iff.mp h
      obtain ⟨t, -, h⟩ := Option.bind_eq_some_iff.mp h
      obtain ⟨children, -, h⟩ := Option.bind_eq_some_iff.mp h
      obtain ⟨more, hmore, rfl⟩ := Option.map_eq_some_iff.mp h
      have := ih hmore
      rw [if_pos rfl] at this
      rw [List.length_append, List.length_cons, List.length_cons]
      rcases textItems_eq_some htexts with ⟨hb, rfl⟩ | ⟨hb, x, rfl⟩
      · rw [if_pos hb, List.length_nil]
        omega
      · rw [if_neg hb, List.length_singleton]
        omega

/-- A text in front of nodes that no node is lost of is not empty and not read with another one.
Counting is enough for it, whatever the nodes are. -/
theorem text_alone {s : List Char} {ns : List Node} {inherited : List Binding} {is : List Item}
    (h : rereadAll inherited s ns = some is) (hl : is.length = ns.length + 1) :
    s ≠ [] ∧ startsWithText ns = false := by
  have hs : s ≠ [] := by
    intro hs
    have := length_rereadAll_le h
    rw [if_pos hs] at this
    omega
  refine ⟨hs, ?_⟩
  cases ns with
  | nil => rfl
  | cons n ns =>
    cases n with
    | element n as cs => rfl
    | text t =>
      rw [rereadAll] at h
      have := length_rereadAll_le h
      rw [if_neg (by simp [hs])] at this
      rw [List.length_cons] at hl
      omega

theorem length_namedAll (inherited : List Binding) (is : List Item) :
    (Item.namedAll inherited is).length = is.length := by
  induction is with
  | nil => simp [Item.namedAll]
  | cons i is ih => rw [Item.namedAll, List.length_cons, List.length_cons, ih]

/-! ## 3. Content -/

/-- **Nodes come back exactly when they are stable.**  By induction on the nodes, where the number
of nodes says that a text is not read with its neighbour.  No inherited prefix may stand for the
namespace of `xml`, whose names are always made with `xml` itself. -/
theorem stableAll_iff {ns : List Node} (hns : WritableAll ns) {inherited : List Binding}
    (hi : ∀ b ∈ inherited, b.uri ≠ xmlUri) :
    (∃ is, rereadAll inherited [] ns = some is ∧ Item.namedAll inherited is = ns) ↔
      StableAll inherited ns := by
  induction ns using Node.induction generalizing inherited with
  | nil =>
    rw [StableAll, rereadAll]
    exact ⟨fun _ => trivial, fun _ => ⟨[], textItems_nil, by rw [Item.namedAll]⟩⟩
  | text s ns ih =>
    rw [WritableAll] at hns
    replace hns := hns.2
    rw [StableAll, StableNode, rereadAll, List.nil_append]
    constructor
    · rintro ⟨is, his, hnamed⟩
      have hlength := congrArg List.length hnamed
      rw [length_namedAll, List.length_cons] at hlength
      obtain ⟨hs, htext⟩ := text_alone his hlength
      rw [rereadAll_of_not_text htext] at his
      obtain ⟨texts, htexts, his⟩ := Option.bind_eq_some_iff.mp his
      obtain ⟨more, hmore, rfl⟩ := Option.map_eq_some_iff.mp his
      rcases textItems_eq_some htexts with ⟨hnil, -⟩ | ⟨-, x, rfl⟩
      · exact absurd hnil hs
      · rw [List.singleton_append, Item.namedAll, Item.named, List.cons.injEq,
          Node.text.injEq] at hnamed
        rw [hnamed.1] at htexts
        exact ⟨(textStable_iff hs).mp htexts, Or.inr htext, (ih hns hi).mp ⟨more, hmore, hnamed.2⟩⟩
    · rintro ⟨hs, htext, hrest⟩
      replace htext := htext.resolve_left (by simp [Node.isElement])
      obtain ⟨more, hmore, hnamed⟩ := (ih hns hi).mpr hrest
      refine ⟨.text s :: more, ?_, ?_⟩
      · rw [rereadAll_of_not_text htext, (textStable_iff hs.1).mpr hs, hmore]
        rfl
      · rw [Item.namedAll, Item.named, hnamed]
  | element n as cs ns ihc ihr =>
    rw [WritableAll, Writable] at hns
    obtain ⟨⟨hn, has, hcs⟩, hns⟩ := hns
    rw [StableAll, StableNode, rereadAll, textItems_nil, Option.bind_some]
    constructor
    · rintro ⟨is, his, hnamed⟩
      obtain ⟨t, ht, his⟩ := Option.bind_eq_some_iff.mp his
      obtain ⟨children, hchildren, his⟩ := Option.bind_eq_some_iff.mp his
      obtain ⟨more, hmore, rfl⟩ := Option.map_eq_some_iff.mp his
      rw [List.nil_append, Item.namedAll, Item.named, List.cons.injEq, Node.element.injEq] at hnamed
      obtain ⟨⟨hname, hattributes, hnodes⟩, hrest⟩ := hnamed
      obtain ⟨htag, hb⟩ := stable_of_tagRead hi hn has ht hname hattributes
      have hbs := uri_ne_of_mem_inScope (fun b hb => (htag.fresh b hb).2.1) hi
      rw [hb] at hchildren hnodes
      exact ⟨⟨htag, (ihc hcs hbs).mp ⟨children, hchildren, hnodes⟩⟩, Or.inl rfl,
        (ihr hns hi).mp ⟨more, hmore, hrest⟩⟩
    · rintro ⟨⟨htag, hchildren⟩, -, hrest⟩
      obtain ⟨t, ht, hb, hname, hattributes⟩ := tagRead_of_stable hi htag
      have hbs := uri_ne_of_mem_inScope (fun b hb => (htag.fresh b hb).2.1) hi
      obtain ⟨children, hread, hnodes⟩ := (ihc hcs hbs).mpr hchildren
      obtain ⟨more, hmore, hmorenodes⟩ := (ihr hns hi).mpr hrest
      rw [← hb] at hread hnodes
      refine ⟨.element t.uri (QName.ofText n).localName t.bindings t.properties children :: more,
        ?_, ?_⟩
      · rw [ht, Option.bind_some, hread, Option.bind_some, hmore]
        rfl
      · rw [Item.namedAll, Item.named, hname, hattributes, hnodes, hmorenodes]

end Xml

/-! ## 4. Elements -/

namespace Element

/-- The element is stable as the root of a document, where nothing is in scope. -/
def Stable (e : Element) : Prop := Xml.StableNode [] e.node

instance (e : Element) : Decidable e.Stable := inferInstanceAs (Decidable (Xml.StableNode _ _))

/-- **An element comes back from its markup if and only if it is stable.** -/
theorem parse_markup_eq_self_iff (e : Element) : Element.parse e.markup = .ok e ↔ e.Stable := by
  have hi : ∀ b ∈ ([] : List Xml.Binding), b.uri ≠ Xml.xmlUri := by simp
  have hone : Xml.StableAll [] [e.node] ↔ e.Stable := by
    simp [Xml.StableAll, Stable, Xml.startsWithText]
  have hname : Xml.WritableAll [e.node] ↔ Xml.Writable e.node := by simp [Xml.WritableAll]
  rw [← hone]
  constructor
  · intro h
    have hw := Xml.writable_of_parse h
    exact (Xml.stableAll_iff (hname.mpr hw) hi).mp ((Xml.parse_markup_eq_ok_iff hw).mp h)
  · intro h
    have hw := Xml.writableAll_of_stableAll h
    exact (Xml.parse_markup_eq_ok_iff (hname.mp hw)).mpr ((Xml.stableAll_iff hw hi).mpr h)

/-- An element with declarations, prefixes and texts that comes back. -/
example : Stable ⟨"p:a", [⟨"xmlns:p", "urn:p"⟩, ⟨"p:b", "1"⟩],
    [.text "x & y", .element "c" [⟨"xmlns", "urn:c"⟩, ⟨"xml:lang", "en"⟩] [], .text "z"]⟩ := by
  decide +kernel

/-- **Not everything that is read comes back**, though the specification has it so (4.1).  A line
feed that stands as a reference in an attribute value is read as itself, is written without a
reference, and is then read as a space. -/
theorem not_forall_parse_markup :
    ¬ ∀ text e, Element.parse text = .ok e → Element.parse e.markup = .ok e := by
  intro h
  have hread : Element.parse "<a b=\"&#10;\"/>" = .ok ⟨"a", [⟨"b", "\n"⟩], []⟩ := by decide +kernel
  exact absurd (h _ _ hread) (by decide +kernel)

end Element

end LivingDoc
