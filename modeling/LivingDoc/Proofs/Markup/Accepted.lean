import LivingDoc.Proofs.Markup.Stability
import LivingDoc.Proofs.Markup.Rereading

/-!
# Markup that is accepted

The markup of an element is a document, unless one of two things is wrong with the element: it holds
a character that a document must not hold, or its names do not resolve when the declarations are
read again.  The second has nothing to do with texts, and the first nothing with names.

* `Xml.Resolves`: the names resolve.
* `Xml.exists_rereadAll_iff`: written nodes are read if and only if they resolve and all their
  characters are allowed.
* `Element.parse_markup_isOk_iff`: so it is for the markup of an element.
-/

namespace LivingDoc

namespace Xml

/-! ## 1. Names that resolve -/

/-- The namespace and the local name of an attribute by its name. -/
def expandedName (bs : List Binding) (m : String) : Option String × String :=
  (propertyOf bs ⟨.ofText m, "", 0⟩).key

/-- The names of an element and of its attributes resolve where the bindings are in scope. -/
structure NamesResolve (bs : List Binding) (n : String) (names : List String) : Prop where
  /-- The prefix of the element is bound, and it is not `xmlns`. -/
  notXmlns : (QName.ofText n).qualifier ≠ "xmlns"
  element : (QName.ofText n).qualifier = "" ∨
    (uriOf? bs (some (QName.ofText n).qualifier)).isSome = true
  /-- So are those of the attributes, and `xml` need not be. -/
  attributes : ∀ m ∈ names, (QName.ofText m).qualifier = "" ∨ (QName.ofText m).qualifier = "xml" ∨
    (uriOf? bs (some (QName.ofText m).qualifier)).isSome = true
  /-- No two attributes have one namespace and local name. -/
  distinct : (names.map (expandedName bs)).Nodup

/-- The bindings that the attributes declare when they are read again.  There are none if two of
them declare one prefix, or one declares a prefix that may not be. -/
def declaredIn (as : List Attribute) : Option (List Binding) :=
  (bindingsOf (as.map reread)).foldlM declare []

/-- The names of the attributes that are not declarations. -/
def ordinaryNames (as : List Attribute) : List String := (ordinaryOf as).map (·.name)

mutual
/-- The names in the node resolve where these bindings are inherited.  An element has its
declarations in scope for its own name and attributes, and for all that is in it. -/
def Resolves (inherited : List Binding) : Node → Prop
  | .text _ => True
  | .element n as cs => ∃ ds, declaredIn as = some ds ∧
      NamesResolve (inScope ds inherited) n (ordinaryNames as) ∧
      ResolvesAll (inScope ds inherited) cs
/-- The names in the nodes resolve. -/
def ResolvesAll (inherited : List Binding) : List Node → Prop
  | [] => True
  | n :: ns => Resolves inherited n ∧ ResolvesAll inherited ns
end

mutual
/-- The texts and values in the node hold allowed characters. -/
def Allowed : Node → Prop
  | .text s => ∀ c ∈ s.toList, isAllowed c = true
  | .element _ as cs => (∀ a ∈ as, hasAllowedValue a = true) ∧ AllowedAll cs
/-- The texts and values in the nodes hold allowed characters. -/
def AllowedAll : List Node → Prop
  | [] => True
  | n :: ns => Allowed n ∧ AllowedAll ns
end

/-! ## 2. Tags -/

/-- An attribute has a namespace, or none, if its prefix is bound or needs not be. -/
theorem exists_propertyUri_iff (bs : List Binding) (a : PendingProperty) :
    (∃ u, propertyUri bs a = .ok u) ↔ a.name.qualifier = "" ∨ a.name.qualifier = "xml" ∨
      (uriOf? bs (some a.name.qualifier)).isSome = true := by
  unfold propertyUri
  by_cases hx : a.name.qualifier = "xml"
  · simp [hx]
  by_cases he : a.name.qualifier = ""
  · simp [he]
  rw [if_neg hx, if_neg he]
  cases uriOf? bs (some a.name.qualifier) <;> simp [hx, he]

theorem exists_elementUri_iff (bs : List Binding) (q : QName) :
    (∃ u, (elementUri bs q 0).toOption = some u) ↔ q.qualifier = "" ∨
      (uriOf? bs (some q.qualifier)).isSome = true := by
  unfold elementUri
  by_cases he : q.qualifier = ""
  · simp [he, Except.toOption]
  rw [if_neg he]
  cases uriOf? bs (some q.qualifier) <;> simp [he, Except.toOption]

theorem ordinaryNames_reread (as : List Attribute) :
    ordinaryNames (as.map reread) = ordinaryNames as := by
  rw [ordinaryNames, ordinaryOf_reread, List.map_map]
  rfl

/-- The attributes of a tag are resolved if and only if each prefix is bound or needs no binding,
and no two have one expanded name. -/
theorem exists_resolve_iff (bs : List Binding) (as : List Attribute) :
    (∃ ps, (resolve bs (as.map waiting) []).toOption = some ps) ↔
      (∀ m ∈ as.map (·.name), (QName.ofText m).qualifier = "" ∨
        (QName.ofText m).qualifier = "xml" ∨
        (uriOf? bs (some (QName.ofText m).qualifier)).isSome = true) ∧
      ((as.map (·.name)).map (expandedName bs)).Nodup := by
  have hkeys : ((as.map waiting).map (propertyOf bs)).map Property.key =
      (as.map (·.name)).map (expandedName bs) := by
    rw [List.map_map, List.map_map, List.map_map]
    rfl
  have hprefixes : (∀ a ∈ as.map waiting, ∃ u, propertyUri bs a = .ok u) ↔
      ∀ m ∈ as.map (·.name), (QName.ofText m).qualifier = "" ∨
        (QName.ofText m).qualifier = "xml" ∨
        (uriOf? bs (some (QName.ofText m).qualifier)).isSome = true := by
    simp only [List.forall_mem_map, exists_propertyUri_iff]
    rfl
  rw [← hkeys, ← hprefixes]
  constructor
  · rintro ⟨ps, hps⟩
    obtain ⟨h1, h2, -⟩ := (resolve_eq_ok_iff (by simp)).mp (toOption_eq_some_iff.mp hps)
    exact ⟨h1, h2⟩
  · rintro ⟨h1, h2⟩
    exact ⟨_, toOption_eq_some_iff.mpr ((resolve_eq_ok_iff (by simp)).mpr ⟨h1, h2, rfl⟩)⟩

/-- **A written tag is read if and only if its values hold allowed characters and its names
resolve.**  The bindings behind it are those that its attributes declare, in front of the inherited
ones. -/
theorem exists_tagRead_iff (inherited : List Binding) (n : String) (as : List Attribute)
    (bs : List Binding) :
    (∃ t, tagRead inherited (.ofText n) as = some t ∧ t.bindings = bs) ↔
      (∀ a ∈ as, hasAllowedValue a = true) ∧ ∃ ds, declaredIn as = some ds ∧
        bs = inScope ds inherited ∧ NamesResolve bs n (ordinaryNames as) := by
  constructor
  · rintro ⟨t, ht, rfl⟩
    unfold tagRead at ht
    split at ht
    · contradiction
    rename_i hxmlns
    obtain ⟨ds, hds, ht⟩ := Option.bind_eq_some_iff.mp ht
    obtain ⟨ps, hps, ht⟩ := Option.bind_eq_some_iff.mp ht
    obtain ⟨uri, huri, rfl⟩ := Option.map_eq_some_iff.mp ht
    unfold declaredBy at hds
    split at hds
    · rename_i hallowed
      obtain ⟨hattributes, hdistinct⟩ := (exists_resolve_iff _ _).mp ⟨ps, hps⟩
      have hnames : (ordinaryOf (as.map reread)).map (·.name) = ordinaryNames as :=
        ordinaryNames_reread as
      rw [hnames] at hattributes hdistinct
      exact ⟨List.all_eq_true.mp hallowed, ds, hds, rfl, hxmlns,
        (exists_elementUri_iff _ _).mp ⟨uri, huri⟩, hattributes, hdistinct⟩
    · contradiction
  · rintro ⟨hallowed, ds, hds, rfl, hnames⟩
    have hread : (ordinaryOf (as.map reread)).map (·.name) = ordinaryNames as :=
      ordinaryNames_reread as
    obtain ⟨uri, huri⟩ := (exists_elementUri_iff _ _).mpr hnames.element
    obtain ⟨ps, hps⟩ := (exists_resolve_iff (inScope ds inherited) (ordinaryOf (as.map reread))).mpr
      ⟨by rw [hread]; exact hnames.attributes, by rw [hread]; exact hnames.distinct⟩
    refine ⟨⟨uri, inScope ds inherited, ps⟩, ?_, rfl⟩
    have hdeclared : declaredBy [] as = some ds := by
      rw [declaredBy, if_pos (List.all_eq_true.mpr hallowed)]
      exact hds
    rw [tagRead, if_neg hnames.notXmlns, hdeclared, Option.bind_some, hps, Option.bind_some, huri]
    rfl

/-! ## 3. Content -/

theorem exists_textItems_iff (s : List Char) :
    (∃ is, textItems s = some is) ↔ ∀ c ∈ s, isAllowed c = true := by
  unfold textItems
  rw [← List.all_eq_true]
  split
  · rename_i h
    simp [h]
  · rename_i h
    simp [h]

/-- **Written nodes are read if and only if their characters are allowed and their names resolve.**
By induction on the nodes, with any text in front of them: neighbouring texts are read as one, so a
text waits for the tag behind it. -/
theorem exists_rereadAll_iff (ns : List Node) (inherited : List Binding) (before : List Char) :
    (∃ is, rereadAll inherited before ns = some is) ↔
      (∀ c ∈ before, isAllowed c = true) ∧ AllowedAll ns ∧ ResolvesAll inherited ns := by
  induction ns using Node.induction generalizing inherited before with
  | nil => simp [rereadAll, AllowedAll, ResolvesAll, exists_textItems_iff]
  | text s rest ih =>
    rw [rereadAll, ih, AllowedAll, Allowed, ResolvesAll, Resolves]
    simp only [List.mem_append, or_imp, forall_and, true_and, and_assoc]
  | element n as cs rest ihc ihr =>
    rw [AllowedAll, Allowed, ResolvesAll, Resolves]
    have nothing : ∀ c ∈ ([] : List Char), isAllowed c = true := by simp
    constructor
    · rintro ⟨is, his⟩
      rw [rereadAll] at his
      obtain ⟨texts, htexts, his⟩ := Option.bind_eq_some_iff.mp his
      obtain ⟨t, ht, his⟩ := Option.bind_eq_some_iff.mp his
      obtain ⟨children, hchildren, his⟩ := Option.bind_eq_some_iff.mp his
      obtain ⟨more, hmore, -⟩ := Option.map_eq_some_iff.mp his
      obtain ⟨hvalues, ds, hds, hb, hnames⟩ :=
        (exists_tagRead_iff inherited n as t.bindings).mp ⟨t, ht, rfl⟩
      rw [hb] at hchildren hnames
      obtain ⟨-, hcs, hcsnames⟩ := (ihc _ _).mp ⟨children, hchildren⟩
      obtain ⟨-, hrest, hrestnames⟩ := (ihr _ _).mp ⟨more, hmore⟩
      exact ⟨(exists_textItems_iff before).mp ⟨texts, htexts⟩, ⟨⟨hvalues, hcs⟩, hrest⟩,
        ⟨ds, hds, hnames, hcsnames⟩, hrestnames⟩
    · rintro ⟨hbefore, ⟨⟨hvalues, hcs⟩, hrest⟩, ⟨ds, hds, hnames, hcsnames⟩, hrestnames⟩
      obtain ⟨texts, htexts⟩ := (exists_textItems_iff before).mpr hbefore
      obtain ⟨t, ht, hb⟩ := (exists_tagRead_iff inherited n as (inScope ds inherited)).mpr
        ⟨hvalues, ds, hds, rfl, hnames⟩
      obtain ⟨children, hchildren⟩ := (ihc (inScope ds inherited) []).mpr ⟨nothing, hcs, hcsnames⟩
      obtain ⟨more, hmore⟩ := (ihr inherited []).mpr ⟨nothing, hrest, hrestnames⟩
      rw [rereadAll, htexts, Option.bind_some, ht, Option.bind_some, hb, hchildren,
        Option.bind_some, hmore]
      exact ⟨_, rfl⟩

/-! ## 4. The characters of what is written -/

theorem isAllowed_of_isNameChar {c : Char} (h : isNameChar c = true) : isAllowed c = true := by
  simp only [isNameChar, isNameStart, inRanges, nameStartRanges, nameContinueRanges, List.any_cons,
    List.any_nil, Bool.or_false, Bool.or_eq_true, Bool.and_eq_true, decide_eq_true_eq] at h
  simp only [isAllowed, Bool.and_eq_true, Bool.or_eq_true, decide_eq_true_eq, bne_iff_ne]
  omega

theorem IsName.allowed {n : String} (h : IsName n) : ∀ c ∈ n.toList, isAllowed c = true := by
  intro c hc
  rw [← h.2] at hc
  exact isAllowed_of_isNameChar (QName.isNameChar_of_mem_text h.1 hc)

/-- Written attributes hold allowed characters if and only if their values do. -/
theorem allowed_attributes_iff {as : List Attribute} (h : ∀ a ∈ as, IsName a.name) :
    (∀ c ∈ as.flatMap Attribute.written, isAllowed c = true) ↔
      ∀ a ∈ as, hasAllowedValue a = true := by
  have hone : ∀ a ∈ as, (∀ c ∈ a.written, isAllowed c = true) ↔ hasAllowedValue a = true := by
    intro a ha
    have hname := (h a ha).allowed
    rw [hasAllowedValue_iff, ← allowed_escapeInValue a.value.toList]
    have hspace : isAllowed ' ' = true := by decide
    have hequals : isAllowed '=' = true := by decide
    have hquote : isAllowed '"' = true := by decide
    simp only [Attribute.written, List.mem_append, List.mem_cons, List.not_mem_nil, or_false,
      or_imp, forall_and, forall_eq, hspace, hequals, hquote, true_and, and_true]
    exact and_iff_right hname
  constructor
  · intro hall a ha
    exact (hone a ha).mp fun c hc => hall c (List.mem_flatMap.mpr ⟨a, ha, hc⟩)
  · intro hall c hc
    obtain ⟨a, ha, hc⟩ := List.mem_flatMap.mp hc
    exact (hone a ha).mpr (hall a ha) c hc

/-- What is written holds allowed characters if and only if the texts and values do.  All else is
names and marks of the markup, and the escapes are allowed where what they stand for is. -/
theorem allowed_writtenAll_iff {ns : List Node} (h : WritableAll ns) :
    (∀ c ∈ Node.writtenAll ns, isAllowed c = true) ↔ AllowedAll ns := by
  induction ns using Node.induction with
  | nil => simp [Node.writtenAll, AllowedAll]
  | text s rest ih =>
    rw [WritableAll] at h
    rw [Node.writtenAll, Node.written, AllowedAll, Allowed, List.forall_mem_append,
      allowed_escapeInText, ih h.2]
  | element n as cs rest ihc ihr =>
    rw [WritableAll, Writable] at h
    obtain ⟨⟨hn, has, hcs⟩, hrest⟩ := h
    have hname := hn.allowed
    have hless : isAllowed '<' = true := by decide
    have hgreater : isAllowed '>' = true := by decide
    have hslash : isAllowed '/' = true := by decide
    rw [Node.writtenAll, AllowedAll, Allowed, List.forall_mem_append, ihr hrest, ← ihc hcs,
      ← allowed_attributes_iff has]
    refine and_congr_left fun _ => ?_
    cases cs with
    | nil =>
      simp only [Node.written, Node.writtenAll, List.mem_append, List.mem_cons, List.not_mem_nil,
        or_false, or_imp, forall_and, forall_eq, hless, hgreater, hslash, true_and, and_true,
        false_imp_iff, forall_true_iff]
      exact and_iff_right hname
    | cons c cs =>
      simp only [Node.written, List.mem_append, List.mem_cons, List.not_mem_nil,
        or_false, or_imp, forall_and, forall_eq, hless, hgreater, hslash, true_and, and_true]
      constructor
      · rintro ⟨⟨⟨-, hattributes⟩, hchildren⟩, -⟩
        exact ⟨hattributes, hchildren⟩
      · rintro ⟨hattributes, hchildren⟩
        exact ⟨⟨⟨hname, hattributes⟩, hchildren⟩, hname⟩

end Xml

/-! ## 5. The markup of an element -/

namespace Element

/-- The names of the element resolve in a document of its own, outside of which nothing is bound. -/
def Resolves (e : Element) : Prop := Xml.Resolves [] e.node

/-- The texts and values in the element hold allowed characters. -/
def Allowed (e : Element) : Prop := Xml.Allowed e.node

theorem allowed_markup_iff {e : Element} (h : Xml.Writable e.node) :
    (∀ c ∈ e.markup.toList, Xml.isAllowed c = true) ↔ e.Allowed := by
  have hall : Xml.WritableAll [e.node] := by
    rw [Xml.WritableAll, Xml.WritableAll]
    exact ⟨h, trivial⟩
  have hwritten := Xml.allowed_writtenAll_iff hall
  rw [Node.writtenAll, Node.writtenAll, List.append_nil, Xml.AllowedAll, Xml.AllowedAll,
    and_true] at hwritten
  rw [markup, String.toList_ofList]
  exact hwritten

/-- **The markup of an element is a document if and only if its names resolve and its characters are
allowed.**  Its tags match and its escapes are right as they are written; so nothing else can be
wrong. -/
theorem parse_markup_isOk_iff {e : Element} (h : Xml.Writable e.node) :
    (∃ e', Element.parse e.markup = .ok e') ↔ e.Resolves ∧ e.Allowed := by
  have hread := Xml.exists_rereadAll_iff [e.node] [] []
  rw [Xml.AllowedAll, Xml.AllowedAll, Xml.ResolvesAll, Xml.ResolvesAll, and_true, and_true] at hread
  constructor
  · rintro ⟨e', he⟩
    obtain ⟨is, his, -⟩ := (Xml.parse_markup_eq_ok_iff h).mp he
    obtain ⟨-, hallowed, hresolves⟩ := hread.mp ⟨is, his⟩
    exact ⟨hresolves, hallowed⟩
  · rintro ⟨hresolves, hallowed⟩
    obtain ⟨is, his⟩ := hread.mpr ⟨by simp, hallowed, hresolves⟩
    have hone := his
    rw [Element.node, Xml.rereadAll_element] at hone
    obtain ⟨t, -, hone⟩ := Option.bind_eq_some_iff.mp hone
    obtain ⟨children, -, rfl⟩ := Option.map_eq_some_iff.mp hone
    refine ⟨⟨Xml.qualify t.bindings t.uri (Xml.QName.ofText e.name).localName true,
      Xml.attributesOf t.bindings [] t.properties, Xml.Item.namedAll t.bindings children⟩,
      (Xml.parse_markup_eq_ok_iff h).mpr ⟨_, his, ?_⟩⟩
    rw [Xml.Item.namedAll, Xml.Item.named, Xml.Item.namedAll]
    rfl

end Element

end LivingDoc
