import LivingDoc.Proofs.Markup.Declarations
import LivingDoc.Proofs.Markup.Places
import LivingDoc.Proofs.Markup.RoundTrip

/-!
# Elements in normal form

Whether an element comes back from its markup depends on what the reader makes of every tag.  A
simple form of elements does come back, and it can be seen without the reader: all namespaces are
declared on the root, none of them twice, and there is nothing in texts and values that the reader
changes.  One name has to be left out: the reader takes an attribute with the local name `xmlns` for
the declaration of the default namespace, whatever prefix it has.

* `Element.Normal`: the normal form.
* `Element.parse_markup_of_normal`: what is in normal form comes back, if no attribute has a prefix
  in front of `xmlns`.
* `Element.not_forall_normal`: not everything in normal form does.
-/

namespace LivingDoc

/-! ## 1. The normal form -/

/-- The attribute is a namespace declaration. -/
def Attribute.isDeclaration (a : Attribute) : Bool := a.declares.isSome

namespace Xml

/-- A tag in normal form where these prefixes are declared. -/
structure NormalTag (prefixes : List String) (n : String) (as : List Attribute) : Prop where
  /-- The names are valid, and no two attributes share one. -/
  isName : IsName n
  named : ∀ a ∈ as, IsName a.name
  distinct : (as.map (·.name)).Nodup
  /-- The values hold allowed characters, and no line ends and tabs among them. -/
  values : ∀ a ∈ as, ∀ c ∈ a.value.toList, isAllowed c = true ∧ c ≠ '\t' ∧ c ≠ '\n' ∧ c ≠ '\r'
  /-- The prefix of the element is declared. -/
  elementPrefix : (splitQualified n).1 = "" ∨ (splitQualified n).1 ∈ prefixes
  /-- So are those of the attributes, `xml` apart. -/
  attributePrefixes : ∀ a ∈ as, a.isDeclaration = true ∨ (splitQualified a.name).1 = "" ∨
    (splitQualified a.name).1 = "xml" ∨ (splitQualified a.name).1 ∈ prefixes

instance (prefixes : List String) (n : String) (as : List Attribute) :
    Decidable (NormalTag prefixes n as) :=
  @decidable_of_iff _
    (IsName n ∧ (∀ a ∈ as, IsName a.name) ∧ (as.map (·.name)).Nodup ∧
      (∀ a ∈ as, ∀ c ∈ a.value.toList,
        isAllowed c = true ∧ c ≠ '\t' ∧ c ≠ '\n' ∧ c ≠ '\r') ∧
      ((splitQualified n).1 = "" ∨ (splitQualified n).1 ∈ prefixes) ∧
      ∀ a ∈ as, a.isDeclaration = true ∨ (splitQualified a.name).1 = "" ∨
        (splitQualified a.name).1 = "xml" ∨ (splitQualified a.name).1 ∈ prefixes)
    ⟨fun ⟨h1, h2, h3, h4, h5, h6⟩ => ⟨h1, h2, h3, h4, h5, h6⟩,
      fun ⟨h1, h2, h3, h4, h5, h6⟩ => ⟨h1, h2, h3, h4, h5, h6⟩⟩
    (@instDecidableAnd _ _ inferInstance (@instDecidableAnd _ _ inferInstance
      (@instDecidableAnd _ _ inferInstance (@instDecidableAnd _ _
        (@List.decidableBAll _ _ (fun _ => List.decidableBAll _ _) _) inferInstance))))

mutual
/-- A child in normal form where these prefixes are declared: a text that is not empty and holds
allowed characters and no carriage return, or an element that declares nothing. -/
def NormalNode (prefixes : List String) : Node → Prop
  | .text s => s ≠ "" ∧ ∀ c ∈ s.toList, isAllowed c = true ∧ c ≠ '\r'
  | .element n as cs =>
    NormalTag prefixes n as ∧ (∀ a ∈ as, a.isDeclaration = false) ∧ NormalAll prefixes cs
/-- Children in normal form: each of them is, and no two texts stand next to each other. -/
def NormalAll (prefixes : List String) : List Node → Prop
  | [] => True
  | n :: ns =>
    NormalNode prefixes n ∧ (n.isElement = true ∨ startsWithText ns = false) ∧
      NormalAll prefixes ns
end

mutual
/-- Whether a child is in normal form is decided part by part. -/
def NormalNode.dec (prefixes : List String) : (n : Node) → Decidable (NormalNode prefixes n)
  | .text s =>
    @decidable_of_iff _ (s ≠ "" ∧ ∀ c ∈ s.toList, isAllowed c = true ∧ c ≠ '\r')
      (by rw [NormalNode]) (@instDecidableAnd _ _ inferInstance (List.decidableBAll _ _))
  | .element n as cs =>
    match NormalAll.dec prefixes cs with
    | .isTrue h => decidable_of_iff (NormalTag prefixes n as ∧ ∀ a ∈ as, a.isDeclaration = false)
        (by simp [NormalNode, h])
    | .isFalse h => .isFalse (by simp [NormalNode, h])
def NormalAll.dec (prefixes : List String) : (ns : List Node) → Decidable (NormalAll prefixes ns)
  | [] => .isTrue (by simp [NormalAll])
  | n :: ns =>
    match NormalNode.dec prefixes n, NormalAll.dec prefixes ns with
    | .isTrue h, .isTrue h' =>
      decidable_of_iff (n.isElement = true ∨ startsWithText ns = false) (by simp [NormalAll, h, h'])
    | .isFalse h, _ => .isFalse (by simp [NormalAll, h])
    | _, .isFalse h => .isFalse (by simp [NormalAll, h])
end

instance (prefixes : List String) (ns : List Node) : Decidable (NormalAll prefixes ns) :=
  NormalAll.dec prefixes ns

end Xml

/-- The prefixes that an element declares. -/
def Element.declaredPrefixes (e : Element) : List String := e.namespaceDeclarations.map (·.1)

/-- An element in normal form. -/
structure Element.Normal (e : Element) : Prop where
  tag : Xml.NormalTag e.declaredPrefixes e.name e.attributes
  children : Xml.NormalAll e.declaredPrefixes e.children
  /-- The declarations stand in front of the other attributes. -/
  inFront : e.attributes =
    e.attributes.filter (·.isDeclaration) ++ e.attributes.filter (!·.isDeclaration)
  /-- No prefix is declared twice, and `xml` and `xmlns` are not declared. -/
  prefixes : e.declaredPrefixes.Nodup ∧ ∀ x ∈ e.declaredPrefixes, x ≠ "xml" ∧ x ≠ "xmlns"
  /-- No namespace is declared twice, and neither the empty one nor one that belongs to XML is. -/
  uris : (e.namespaceDeclarations.map (·.2)).Nodup ∧ ∀ u ∈ e.namespaceDeclarations.map (·.2),
    u ≠ "" ∧ u ≠ Xml.xmlUri ∧ u ≠ Xml.xmlnsUri

instance (e : Element) : Decidable e.Normal :=
  decidable_of_iff
    (Xml.NormalTag e.declaredPrefixes e.name e.attributes ∧
      Xml.NormalAll e.declaredPrefixes e.children ∧
      e.attributes =
        e.attributes.filter (·.isDeclaration) ++ e.attributes.filter (!·.isDeclaration) ∧
      (e.declaredPrefixes.Nodup ∧ ∀ x ∈ e.declaredPrefixes, x ≠ "xml" ∧ x ≠ "xmlns") ∧
      ((e.namespaceDeclarations.map (·.2)).Nodup ∧ ∀ u ∈ e.namespaceDeclarations.map (·.2),
        u ≠ "" ∧ u ≠ Xml.xmlUri ∧ u ≠ Xml.xmlnsUri))
    ⟨fun ⟨h1, h2, h3, h4, h5⟩ => ⟨h1, h2, h3, h4, h5⟩,
      fun ⟨h1, h2, h3, h4, h5⟩ => ⟨h1, h2, h3, h4, h5⟩⟩

namespace Xml

/-! ## 2. Declared once -/

theorem filter_uri_of_nodup {bs : List Binding} (h : (bs.map (·.uri)).Nodup) {b : Binding}
    (hb : b ∈ bs) : bs.filter (·.uri == b.uri) = [b] := by
  induction bs with
  | nil => simp at hb
  | cons c bs ih =>
    rw [List.map_cons, List.nodup_cons] at h
    rcases List.mem_cons.mp hb with rfl | hb
    · rw [List.filter_cons_of_pos (by simp), List.filter_eq_nil_iff.mpr]
      intro d hd hu
      exact h.1 (List.mem_map.mpr ⟨d, hd, by simpa using hu⟩)
    · have hne : c.uri ≠ b.uri := by
        intro hu
        exact h.1 (List.mem_map.mpr ⟨b, hb, hu.symm⟩)
      rw [List.filter_cons_of_neg (by simpa using hne)]
      exact ih h.2 hb

/-- Where nothing is bound twice, a prefix is kept and its namespace is not the default one: there
is no other binding of the namespace that the name could be made with. -/
theorem keepsPrefix_of_nodup {bs : List Binding} (hq : (bs.map (·.qualifier)).Nodup)
    (hu : (bs.map (·.uri)).Nodup) {b : Binding} (hb : b ∈ bs) {x : String}
    (hx : b.qualifier = some x) : KeepsPrefix bs x ∧ NoDefault bs x := by
  have huri : uriOf? bs (some x) = some b.uri := by
    rw [← hx]
    exact uriOf?_of_nodup hq hb
  constructor
  · rw [KeepsPrefix, huri, Option.bind_some, filter_uri_of_nodup hu hb]
    simp [hx]
  · intro d hd hnone h
    rw [huri, Option.some.injEq] at h
    have hmem : d ∈ bs.filter (·.uri == b.uri) := List.mem_filter.mpr ⟨hd, by simp [h]⟩
    rw [filter_uri_of_nodup hu hb, List.mem_singleton] at hmem
    rw [hmem, hx] at hnone
    contradiction

/-! ## 3. What is read of the attributes -/

/-- A declaration is written as it stood in the element. -/
theorem declaration_bindingOf {a : Attribute} (hn : IsName a.name) {d : String × String}
    (hd : a.declares = some d) : (bindingOf d).declaration = a := by
  rw [Attribute.declares_eq] at hd
  split at hd
  · rename_i hname
    rw [Option.some.injEq] at hd
    subst hd
    exact congrArg (Attribute.mk · a.value) hname.symm
  · split at hd
    · rename_i hq
      rw [Option.some.injEq] at hd
      subst hd
      have hname : a.name = "xmlns" ++ ":" ++ (QName.ofText a.name).localName := by
        rw [← hq, ← text_of_qualifier (by rw [hq]; decide)]
        exact hn.2.symm
      have hplain : qualifierOf (QName.ofText a.name).localName =
          some (QName.ofText a.name).localName := if_neg hn.1.2.ne_empty
      rw [bindingOf, hplain, Binding.declaration]
      dsimp only
      exact congrArg (Attribute.mk · a.value) hname.symm
    · contradiction

section

variable {as : List Attribute} (hn : ∀ a ∈ as, IsName a.name)
  (hx : ∀ a ∈ as, (QName.ofText a.name).localName = "xmlns" → a.name = "xmlns")

include hn hx

theorem bindingsOf_eq : bindingsOf as = (as.filterMap Attribute.declares).map bindingOf := by
  rw [bindingsOf, List.map_filterMap]
  exact List.filterMap_congr fun a ha => binding?_eq (hn a ha) (hx a ha)

theorem ordinaryOf_eq : ordinaryOf as = as.filter (!·.isDeclaration) := by
  refine List.filter_congr fun a ha => ?_
  rw [binding?_eq (hn a ha) (hx a ha), Attribute.isDeclaration, Option.isNone_map,
    Option.not_isSome]

omit hx in
theorem declarations_eq :
    ((as.filterMap Attribute.declares).map bindingOf).map Binding.declaration =
      as.filter (·.isDeclaration) := by
  induction as with
  | nil => rfl
  | cons a as ih =>
    have hrest := ih fun b hb => hn b (List.mem_cons_of_mem _ hb)
    cases hd : a.declares with
    | none =>
      rw [List.filterMap_cons_none hd, List.filter_cons_of_neg (by simp [Attribute.isDeclaration, hd])]
      exact hrest
    | some d =>
      rw [List.filterMap_cons_some hd, List.filter_cons_of_pos (by simp [Attribute.isDeclaration, hd]),
        List.map_cons, List.map_cons, hrest, declaration_bindingOf (hn a List.mem_cons_self) hd]

end

/-! ## 4. Normal tags come back -/

theorem NormalTag.valueStable {prefixes : List String} {n : String} {as : List Attribute}
    (h : NormalTag prefixes n as) : ∀ a ∈ as, ValueStable a.value := by
  intro a ha c hc
  obtain ⟨hallowed, htab, hfeed, hreturn⟩ := h.values a ha c hc
  refine ⟨hallowed, ?_⟩
  rw [asSpace, if_neg]
  rintro (h | h | h)
  · exact htab h
  · exact hfeed h
  · exact hreturn h

section

variable {ds : List (String × String)} (hprefixes : (ds.map (·.1)).Nodup)
  (huris : (ds.map (·.2)).Nodup)

include hprefixes huris

/-- A declared prefix is kept, and its namespace is not the default one. -/
theorem keepsPrefix_of_declared {x : String} (hx : x ∈ ds.map (·.1)) (hne : x ≠ "") :
    KeepsPrefix (ds.map bindingOf) x ∧ NoDefault (ds.map bindingOf) x := by
  obtain ⟨d, hd, rfl⟩ := List.mem_map.mp hx
  have hq : ((ds.map bindingOf).map (·.qualifier)).Nodup := by
    have := hprefixes.map qualifierOf_injective
    rwa [List.map_map] at this ⊢
  have hu : ((ds.map bindingOf).map (·.uri)).Nodup := by rwa [List.map_map]
  exact keepsPrefix_of_nodup hq hu (List.mem_map_of_mem hd) (if_neg hne)

/-- The names of a normal tag keep their prefixes, each of which is declared or needs no
declaration. -/
theorem NormalTag.keepsPrefixes {n : String} {as : List Attribute}
    (h : NormalTag (ds.map (·.1)) n as) (hreserved : ∀ x ∈ ds.map (·.1), x ≠ "xmlns") :
    (∀ a ∈ as.filter (!·.isDeclaration), (QName.ofText a.name).qualifier = "" ∨
      (QName.ofText a.name).qualifier = "xml" ∨
      KeepsPrefix (ds.map bindingOf) (QName.ofText a.name).qualifier) ∧
    ((QName.ofText n).qualifier = "" ∨ (QName.ofText n).qualifier ≠ "xmlns" ∧
      KeepsPrefix (ds.map bindingOf) (QName.ofText n).qualifier ∧
      NoDefault (ds.map bindingOf) (QName.ofText n).qualifier) := by
  constructor
  · intro a ha
    obtain ⟨ha, hd⟩ := List.mem_filter.mp ha
    by_cases hne : (QName.ofText a.name).qualifier = ""
    · exact .inl hne
    · rcases h.attributePrefixes a ha with hdecl | he | hxml | hmem
      · rw [hdecl] at hd
        contradiction
      · exact .inl he
      · exact .inr (.inl hxml)
      · exact .inr (.inr (keepsPrefix_of_declared hprefixes huris hmem hne).1)
  · by_cases hne : (QName.ofText n).qualifier = ""
    · exact .inl hne
    · have hmem : (QName.ofText n).qualifier ∈ ds.map (·.1) := h.elementPrefix.resolve_left hne
      exact .inr ⟨hreserved _ hmem, keepsPrefix_of_declared hprefixes huris hmem hne⟩

end

theorem textStable_of_normal {s : String} (hs : s ≠ "")
    (h : ∀ c ∈ s.toList, isAllowed c = true ∧ c ≠ '\r') : TextStable s := by
  have hkept (behind : Bool) (cs : List Char) (hcs : ∀ c ∈ cs, c ≠ '\r') :
      returnsKept behind cs = true := by
    induction cs generalizing behind with
    | nil => rfl
    | cons c cs ih =>
      rw [returnsKept, ih _ fun d hd => hcs d (List.mem_cons_of_mem _ hd)]
      simp [hcs c List.mem_cons_self]
  refine ⟨?_, fun c hc => (h c hc).1, hkept false s.toList fun c hc => (h c hc).2⟩
  intro hnil
  exact hs (String.toList_eq_nil_iff.mp hnil)

/-- Children in normal form come back where the root has declared all namespaces.  By induction on
the children: they declare nothing, so the bindings of the root are in scope on all of them. -/
theorem stableAll_of_normal {ds : List (String × String)} (hprefixes : (ds.map (·.1)).Nodup)
    (huris : (ds.map (·.2)).Nodup) (hreserved : ∀ x ∈ ds.map (·.1), x ≠ "xmlns")
    (ns : List Node) {path : List Nat} {around : List Element} {i : Nat}
    (h : NormalAll (ds.map (·.1)) ns)
    (hx : ∀ p ∈ Node.placesAll path around i ns, ∀ a ∈ p.element.attributes,
      (splitQualified a.name).2 = "xmlns" → a.name = "xmlns") :
    StableAll (ds.map bindingOf) ns := by
  induction ns using Node.induction generalizing path around i with
  | nil => simp [StableAll]
  | text s rest ih =>
    rw [NormalAll, NormalNode] at h
    rw [StableAll, StableNode]
    simp only [Node.placesAll, Node.places, List.nil_append] at hx
    exact ⟨textStable_of_normal h.1.1 h.1.2, h.2.1, ih h.2.2 hx⟩
  | element n as cs rest ihc ihr =>
    rw [NormalAll, NormalNode] at h
    obtain ⟨⟨htag, hnone, hcs⟩, hnext, hrest⟩ := h
    simp only [Node.placesAll, Node.places, List.cons_append, List.mem_cons, List.mem_append] at hx
    -- nothing is declared inside the root, so what is in scope stays as it is
    have hdeclares : as.filterMap Attribute.declares = [] := by
      refine List.filterMap_eq_nil_iff.mpr fun a ha => ?_
      exact Option.not_isSome_iff_eq_none.mp (Bool.eq_false_iff.mp (hnone a ha))
    have hfilter : as.filter (!·.isDeclaration) = as :=
      List.filter_eq_self.mpr fun a ha => by simp [hnone a ha]
    have hown : ∀ a ∈ as, (QName.ofText a.name).localName = "xmlns" → a.name = "xmlns" :=
      hx _ (.inl rfl)
    have hbindings : bindingsOf as = [] := by
      rw [bindingsOf_eq htag.named hown, hdeclares]
      rfl
    have hordinary : ordinaryOf as = as := by rw [ordinaryOf_eq htag.named hown, hfilter]
    have hkeeps := htag.keepsPrefixes hprefixes huris hreserved
    rw [hfilter] at hkeeps
    rw [StableAll, StableNode, hbindings]
    refine ⟨⟨⟨htag.isName, htag.named, htag.valueStable, ?_, ?_, ?_, ?_, ?_, ?_⟩, ?_⟩, ?_, ?_⟩
    · rw [hbindings, hordinary]
      rfl
    · simp [hbindings]
    · simp [hbindings, prefixesOf]
    · rw [hordinary]
      exact htag.distinct
    · rw [hordinary, hbindings]
      exact hkeeps.1
    · rw [hbindings]
      exact hkeeps.2
    · exact ihc hcs fun p hp => hx p (.inr (.inl hp))
    · exact hnext
    · exact ihr hrest fun p hp => hx p (.inr (.inr hp))

/-- The tag of a root in normal form comes back, and brings what it declares into scope, and nothing
else. -/
theorem tagStable_of_normal {e : Element} (h : e.Normal)
    (hx : ∀ a ∈ e.attributes, (splitQualified a.name).2 = "xmlns" → a.name = "xmlns") :
    TagStable [] e.name e.attributes ∧
      inScope (bindingsOf e.attributes) [] = e.namespaceDeclarations.map bindingOf := by
  have hbindings : bindingsOf e.attributes = e.namespaceDeclarations.map bindingOf :=
    bindingsOf_eq h.tag.named hx
  have hordinary := ordinaryOf_eq h.tag.named hx
  have hscope : inScope (bindingsOf e.attributes) [] = e.namespaceDeclarations.map bindingOf := by
    obtain ⟨more, happ, hmem⟩ := inScope_eq_append (bindingsOf e.attributes) []
    have hmore : more = [] := List.eq_nil_iff_forall_not_mem.mpr fun b hb => by simpa using hmem b hb
    rw [happ, hmore, List.append_nil, hbindings]
  have hkeeps := h.tag.keepsPrefixes h.prefixes.1 h.uris.1 fun x hx => (h.prefixes.2 x hx).2
  refine ⟨⟨h.tag.isName, h.tag.named, h.tag.valueStable, ?_, ?_, ?_, ?_, ?_, ?_⟩, hscope⟩
  · rw [hbindings, hordinary, Element.namespaceDeclarations_eq, declarations_eq h.tag.named]
    exact h.inFront
  · intro b hb
    rw [hbindings] at hb
    obtain ⟨d, hd, rfl⟩ := List.mem_map.mp hb
    obtain ⟨-, hxml, hxmlns⟩ := h.uris.2 d.2 (List.mem_map_of_mem hd)
    refine ⟨by simp, hxml, hxmlns, ?_⟩
    intro hq
    have hne := (h.prefixes.2 d.1 (List.mem_map_of_mem hd)).1
    exact hne (qualifierOf_injective hq)
  · have hq : ((bindingsOf e.attributes).map (·.qualifier)).Nodup := by
      have := h.prefixes.1.map qualifierOf_injective
      rw [hbindings, List.map_map]
      rwa [Element.declaredPrefixes, List.map_map] at this
    have hsame : prefixesOf (bindingsOf e.attributes) =
        ((bindingsOf e.attributes).map (·.qualifier)).filterMap id := by
      rw [List.filterMap_map]
      rfl
    rw [hsame]
    exact hq.filterMap fun x y z hx hy => hx.trans hy.symm
  · rw [hordinary]
    exact h.tag.distinct.sublist (List.filter_sublist.map _)
  · rw [hordinary, hscope]
    exact hkeeps.1
  · rw [hscope]
    exact hkeeps.2

end Xml

/-! ## 5. Normal elements -/

namespace Element

/-- **What is in normal form comes back from its markup**, if no attribute has a prefix in front of
`xmlns`.  Such a tree is stable, which is the exact condition for coming back. -/
theorem parse_markup_of_normal {e : Element} (h : e.Normal)
    (hx : ∀ p ∈ e.places, ∀ a ∈ p.element.attributes,
      (splitQualified a.name).2 = "xmlns" → a.name = "xmlns") :
    Element.parse e.markup = .ok e := by
  rw [places_eq] at hx
  obtain ⟨htag, hscope⟩ := Xml.tagStable_of_normal h (hx _ List.mem_cons_self)
  refine (parse_markup_eq_self_iff e).mpr ?_
  rw [Stable, Element.node, Xml.StableNode, hscope]
  exact ⟨htag, Xml.stableAll_of_normal h.prefixes.1 h.uris.1 (fun x hx => (h.prefixes.2 x hx).2)
    e.children h.children fun p hp => hx p (List.mem_cons_of_mem _ hp)⟩

/-- An element with declarations, nested prefixes, texts and a value to be escaped comes back. -/
theorem parse_markup_of_normal_nested :
    Element.parse (Element.markup ⟨"p:a", [⟨"xmlns:p", "urn:p"⟩, ⟨"xmlns", "urn:d"⟩, ⟨"p:b", "1 < 2"⟩],
      [.text "x & y", .element "c" [⟨"xml:lang", "en"⟩] [.element "p:d" [⟨"b", "\""⟩] []],
        .text "z"]⟩) =
    .ok ⟨"p:a", [⟨"xmlns:p", "urn:p"⟩, ⟨"xmlns", "urn:d"⟩, ⟨"p:b", "1 < 2"⟩],
      [.text "x & y", .element "c" [⟨"xml:lang", "en"⟩] [.element "p:d" [⟨"b", "\""⟩] []],
        .text "z"]⟩ :=
  parse_markup_of_normal (by decide +kernel) (by decide +kernel)

/-- **Not everything in normal form comes back.**  The attribute `p:xmlns` is read as a declaration
of the default namespace, and is written as one. -/
theorem not_forall_normal : ¬ ∀ e : Element, e.Normal → Element.parse e.markup = .ok e := by
  intro h
  have hnormal : Element.Normal ⟨"a", [⟨"xmlns:p", "u"⟩, ⟨"p:xmlns", "z"⟩], []⟩ := by decide +kernel
  exact absurd (h _ hnormal) (by decide +kernel)

end Element

end LivingDoc
