import LivingDoc.Proofs.Annotation.Rendering
import LivingDoc.Proofs.Markup.Accepted
import LivingDoc.Proofs.Markup.Places

/-!
# The names of an annotated document

Rendering outcomes onto a document adds classes and elements of its own, none of which needs a
declaration.  So it can still be written, and whether its names resolve is not changed by it.

* `Element.writable_annotate`, `Element.writable_withStylesheet`: the names are still names.
* `Element.resolves_annotate`, `Element.resolves_withStylesheet`: the names resolve with the
  outcomes and the stylesheet if and only if they do without.
-/

namespace LivingDoc

namespace Xml

/-! ## 1. Classes -/

theorem binding?_of_plain {x : String} (hx : IsPlain x) (hne : x ≠ "xmlns") (v : String) :
    binding? ⟨x, v⟩ = none := by
  have h := QName.ofText_local fun c hc => (hx.2 c hc).2
  rw [binding?, declared?, h, if_neg (by simp), if_neg hne]

theorem binding?_class (v : String) : binding? ⟨"class", v⟩ = none :=
  binding?_of_plain (by decide) (by decide) v

theorem binding?_reread_class (v : String) : binding? (reread ⟨"class", v⟩) = none :=
  binding?_class _

theorem qualifier_class : (QName.ofText "class").qualifier = "" := by decide

theorem declaredIn_setIn (v : String) (as : List Attribute) :
    declaredIn (Element.setIn "class" v as) = declaredIn as := by
  have hbindings : bindingsOf ((Element.setIn "class" v as).map reread) =
      bindingsOf (as.map reread) := by
    have hclass (w : String) (cs : List Attribute) :
        bindingsOf ((⟨"class", w⟩ :: cs : List Attribute).map reread) =
          bindingsOf (cs.map reread) :=
      List.filterMap_cons_none (binding?_reread_class w)
    obtain ⟨bs, h⟩ := Element.exists_sets "class" v as
    rw [h.setIn_eq]
    cases h with
    | inPlace =>
      rw [List.map_append, List.map_append, bindingsOf_append, bindingsOf_append, hclass, hclass]
    | behind =>
      rw [List.map_append, bindingsOf_append, hclass, List.map_nil]
      exact List.append_nil _
  rw [declaredIn, declaredIn, hbindings]

theorem ordinaryNames_append (as cs : List Attribute) :
    ordinaryNames (as ++ cs) = ordinaryNames as ++ ordinaryNames cs := by
  rw [ordinaryNames, ordinaryOf_append, List.map_append]
  rfl

/-- An attribute `class` is among the names behind its setting, once. -/
theorem ordinaryNames_setIn (v : String) (as : List Attribute) :
    ordinaryNames (Element.setIn "class" v as) =
      if "class" ∈ ordinaryNames as then ordinaryNames as else ordinaryNames as ++ ["class"] := by
  have hclass (w : String) (cs : List Attribute) :
      ordinaryNames (⟨"class", w⟩ :: cs) = "class" :: ordinaryNames cs := by
    rw [ordinaryNames, ordinaryOf, List.filter_cons, binding?_class]
    rfl
  obtain ⟨bs, h⟩ := Element.exists_sets "class" v as
  rw [h.setIn_eq]
  cases h with
  | inPlace =>
    rw [ordinaryNames_append, ordinaryNames_append, hclass, hclass,
      if_pos (List.mem_append_right _ List.mem_cons_self)]
  | behind missing =>
    have hnot : "class" ∉ ordinaryNames as := by
      intro hmem
      obtain ⟨a, ha, hname⟩ := List.mem_map.mp hmem
      exact missing a (List.mem_filter.mp ha).1 hname
    rw [ordinaryNames_append, hclass, if_neg hnot]
    rfl

/-- One more name without a prefix resolves, unless it is there already.  It is in no namespace, so
no prefix has to be bound for it, and a name with a prefix is another one. -/
theorem namesResolve_append_class {bs : List Binding} {n : String} {names : List String}
    (hnames : ∀ m ∈ names, IsName m) (hclass : "class" ∉ names) :
    NamesResolve bs n (names ++ ["class"]) ↔ NamesResolve bs n names := by
  have hexpanded : expandedName bs "class" = (none, "class") := rfl
  constructor
  · intro h
    refine ⟨h.notXmlns, h.element, fun m hm => h.attributes m (List.mem_append_left _ hm), ?_⟩
    have hdistinct := h.distinct
    rw [List.map_append] at hdistinct
    exact hdistinct.of_append_left
  · intro h
    refine ⟨h.notXmlns, h.element, ?_, ?_⟩
    · intro m hm
      rcases List.mem_append.mp hm with hm | hm
      · exact h.attributes m hm
      · rw [List.mem_singleton.mp hm]
        exact .inl rfl
    · rw [List.map_append, List.map_singleton, hexpanded, List.nodup_append_comm,
        List.singleton_append, List.nodup_cons]
      refine ⟨?_, h.distinct⟩
      intro hmem
      obtain ⟨m, hm, hm'⟩ := List.mem_map.mp hmem
      -- a name with the same namespace and local name is the same name
      have huri : (propertyUri bs ⟨.ofText m, "", 0⟩).toOption.join = none := congrArg Prod.fst hm'
      have hlocal : (QName.ofText m).localName = "class" := congrArg Prod.snd hm'
      have hq : (QName.ofText m).qualifier = "" := by
        obtain ⟨u, hu⟩ := (exists_propertyUri_iff bs ⟨.ofText m, "", 0⟩).mpr (h.attributes m hm)
        by_contra hne
        rw [hu] at huri
        unfold propertyUri at hu
        split at hu
        · cases hu
          contradiction
        · split at hu
          · cases hu
            contradiction
          · contradiction
      refine hclass ?_
      have hm' : m = "class" := by
        rw [← (hnames m hm).2, text_of_not_qualifier hq, hlocal]
      rwa [← hm']

/-- Marking an element with a class changes nothing about its names: the class is no declaration,
and it is set where it stands or is new. -/
theorem resolves_setClass {n : String} {as : List Attribute} (h : ∀ a ∈ as, IsName a.name)
    (v : String) (bs : List Binding) (cs : List Node) :
    Resolves bs (.element n (Element.setIn "class" v as) cs) ↔ Resolves bs (.element n as cs) := by
  have hnames : ∀ m ∈ ordinaryNames as, IsName m := by
    intro m hm
    obtain ⟨a, ha, rfl⟩ := List.mem_map.mp hm
    exact h a (List.mem_of_mem_filter ha)
  have hsame (ds : List Binding) : NamesResolve ds n (ordinaryNames (Element.setIn "class" v as)) ↔
      NamesResolve ds n (ordinaryNames as) := by
    rw [ordinaryNames_setIn]
    split
    · rfl
    · rename_i hclass
      exact namesResolve_append_class hnames hclass
  simp only [Resolves, declaredIn_setIn, hsame]

/-! ## 2. Elements that are put in -/

/-- An element with one attribute and no prefixes resolves as its children do. -/
theorem resolves_plain {n : String} {a : Attribute} (hn : (QName.ofText n).qualifier = "")
    (ha : binding? (reread a) = none) (hq : (QName.ofText a.name).qualifier = "")
    (bs : List Binding) (cs : List Node) :
    Resolves bs (.element n [a] cs) ↔ ResolvesAll bs cs := by
  have hdeclared : declaredIn [a] = some [] := by
    rw [declaredIn, bindingsOf, List.map_singleton, List.filterMap_cons_none ha]
    rfl
  have hscope : inScope [] bs = bs := rfl
  have hnames : NamesResolve bs n (ordinaryNames [a]) := by
    have hxmlns : (QName.ofText n).qualifier ≠ "xmlns" := by
      rw [hn]
      decide
    refine ⟨hxmlns, .inl hn, ?_, ?_⟩
    · intro m hm
      obtain ⟨b, hb, rfl⟩ := List.mem_map.mp hm
      rw [List.mem_singleton.mp (List.mem_of_mem_filter hb)]
      exact .inl hq
    · exact (List.nodup_singleton (expandedName bs a.name)).sublist
        ((List.filter_sublist.map _).map _)
  rw [Resolves, hdeclared]
  constructor
  · rintro ⟨ds, hds, -, hcs⟩
    cases hds
    exact hcs
  · intro hcs
    exact ⟨[], rfl, hnames, hcs⟩

theorem resolves_congr {cs ds : List Node} (h : ∀ bs, ResolvesAll bs cs ↔ ResolvesAll bs ds)
    (bs : List Binding) (n : String) (as : List Attribute) :
    Resolves bs (.element n as cs) ↔ Resolves bs (.element n as ds) := by
  simp only [Resolves, h]

theorem resolvesAll_append (bs : List Binding) (cs ds : List Node) :
    ResolvesAll bs (cs ++ ds) ↔ ResolvesAll bs cs ∧ ResolvesAll bs ds := by
  induction cs with
  | nil => simp [ResolvesAll]
  | cons c cs ih => rw [List.cons_append, ResolvesAll, ResolvesAll, ih, and_assoc]

theorem resolvesAll_of_texts {cs : List Node} (h : cs.any Node.isElement = false)
    (bs : List Binding) : ResolvesAll bs cs := by
  induction cs with
  | nil => simp [ResolvesAll]
  | cons c cs ih =>
    rw [List.any_cons, Bool.or_eq_false_iff] at h
    cases c with
    | text s =>
      rw [ResolvesAll, Resolves]
      exact ⟨trivial, ih h.2⟩
    | element n as ds => exact absurd h.1 Bool.noConfusion

theorem resolves_labelled {n : String} (hn : (QName.ofText n).qualifier = "") (bs : List Binding)
    (cls s : String) : Resolves bs (Element.labelled n cls s) := by
  refine (resolves_plain hn (binding?_reread_class cls) qualifier_class bs [.text s]).mpr ?_
  simp only [ResolvesAll, Resolves, and_self]

/-- **What is rendered in place of children resolves as they do.**  The elements that are put in
have no prefixes; texts that are thrown away had no names. -/
theorem resolvesAll_childrenIn (o : Outcome) (bs : List Binding) (cs : List Node) :
    ResolvesAll bs (o.childrenIn cs) ↔ ResolvesAll bs cs := by
  cases o with
  | success => rfl
  | failure expected actual =>
    have hdel (kept : List Node) : Resolves bs (.element "del" [⟨"class", "expected"⟩] kept) ↔
        ResolvesAll bs kept :=
      resolves_plain (by decide) (binding?_reread_class "expected") qualifier_class bs kept
    have hins := resolves_labelled (n := "ins") (by decide) bs "actual" actual
    have htext : Resolves bs (.text " ") := by simp [Resolves]
    rw [Outcome.childrenIn, failureChildren, ResolvesAll, ResolvesAll, ResolvesAll, ResolvesAll,
      hdel]
    simp only [htext, hins, and_true]
    split
    · rfl
    · rename_i hnone
      refine iff_of_true ?_ (resolvesAll_of_texts (Bool.not_eq_true _ ▸ hnone) bs)
      simp [ResolvesAll, Resolves]
  | exception c =>
    have hspan := resolves_labelled (n := "span") (by decide) bs "exceptionMessage" c.message
    have hpre := resolves_labelled (n := "pre") (by decide) bs "stackTrace"
      (String.intercalate "\n" c.context)
    rw [Outcome.childrenIn, resolvesAll_append, exceptionChildren, ResolvesAll]
    refine and_iff_left ⟨hspan, ?_⟩
    split
    · simp [ResolvesAll]
    · simp only [ResolvesAll, hpre, and_true]

/-! ## 3. Names that can be written -/

theorem writableAll_append (cs ds : List Node) :
    WritableAll (cs ++ ds) ↔ WritableAll cs ∧ WritableAll ds := by
  induction cs with
  | nil => simp [WritableAll]
  | cons c cs ih => rw [List.cons_append, WritableAll, WritableAll, ih, and_assoc]

theorem writable_plain {n m : String} (hn : IsName n) (hm : IsName m) (v : String)
    {cs : List Node} (h : WritableAll cs) : Writable (.element n [⟨m, v⟩] cs) := by
  rw [Writable]
  refine ⟨hn, ?_, h⟩
  intro a ha
  rw [List.mem_singleton.mp ha]
  exact hm

theorem isName_class : IsName "class" := by decide

theorem writable_labelled {n : String} (hn : IsName n) (cls s : String) :
    Writable (Element.labelled n cls s) := by
  refine writable_plain hn isName_class cls ?_
  simp [WritableAll, Writable]

/-- What is rendered in place of children that can be written can be written. -/
theorem writableAll_childrenIn (o : Outcome) {cs : List Node} (h : WritableAll cs) :
    WritableAll (o.childrenIn cs) := by
  cases o with
  | success => exact h
  | failure expected actual =>
    have hkept : WritableAll (if cs.any Node.isElement then cs else [.text expected]) := by
      split
      · exact h
      · simp [WritableAll, Writable]
    have hdel := writable_plain (n := "del") (by decide) isName_class "expected" hkept
    have hins := writable_labelled (n := "ins") (by decide) "actual" actual
    rw [Outcome.childrenIn, failureChildren]
    simp only [WritableAll, Writable, hins, and_true]
    exact hdel
  | exception c =>
    have hspan := writable_labelled (n := "span") (by decide) "exceptionMessage" c.message
    have hpre := writable_labelled (n := "pre") (by decide) "stackTrace"
      (String.intercalate "\n" c.context)
    rw [Outcome.childrenIn, writableAll_append, exceptionChildren, WritableAll]
    refine ⟨h, hspan, ?_⟩
    split
    · simp [WritableAll]
    · simp only [WritableAll, hpre, and_true]

end Xml

/-! ## 4. One outcome -/

namespace Element

theorem isName_of_mem_addClass {e : Element} (h : ∀ a ∈ e.attributes, Xml.IsName a.name)
    (c : String) : ∀ a ∈ (e.addClass c).attributes, Xml.IsName a.name := by
  unfold addClass
  split
  · exact h
  · intro a ha
    rcases eq_or_mem_of_mem_setIn ha with rfl | ha
    · exact Xml.isName_class
    · exact h a ha

/-- An element with a class added resolves as it did. -/
theorem resolves_addClass {e : Element} (h : ∀ a ∈ e.attributes, Xml.IsName a.name) (c : String)
    (bs : List Xml.Binding) (cs : List Node) :
    Xml.Resolves bs (.element e.name (e.addClass c).attributes cs) ↔
      Xml.Resolves bs (.element e.name e.attributes cs) := by
  unfold addClass
  split
  · rfl
  · exact Xml.resolves_setClass h _ bs cs

theorem writable_render {e : Element} (h : Xml.Writable e.node) (o : Outcome) :
    Xml.Writable (e.render o).node := by
  rw [node, Xml.Writable] at h
  rw [node_render, Xml.Writable]
  exact ⟨h.1, isName_of_mem_addClass h.2.1 _, Xml.writableAll_childrenIn o h.2.2⟩

theorem resolves_render {e : Element} (h : Xml.Writable e.node) (o : Outcome)
    (bs : List Xml.Binding) : Xml.Resolves bs (e.render o).node ↔ Xml.Resolves bs e.node := by
  rw [node, Xml.Writable] at h
  rw [node_render, resolves_addClass h.2.1, node]
  exact Xml.resolves_congr (fun bs => Xml.resolvesAll_childrenIn o bs e.children) bs _ _

theorem writable_renderAt {e : Element} (h : Xml.Writable e.node) (outcomes : List Recorded)
    (path : List Nat) : Xml.Writable (e.renderAt outcomes path).node := by
  unfold renderAt
  split
  · exact writable_render h _
  · exact h

theorem resolves_renderAt {e : Element} (h : Xml.Writable e.node) (outcomes : List Recorded)
    (path : List Nat) (bs : List Xml.Binding) :
    Xml.Resolves bs (e.renderAt outcomes path).node ↔ Xml.Resolves bs e.node := by
  unfold renderAt
  split
  · exact resolves_render h _ bs
  · rfl

end Element

/-! ## 5. All outcomes of a document -/

theorem Node.writable_annotateAll (outcomes : List Recorded) {ns : List Node}
    (h : Xml.WritableAll ns) (path : List Nat) (i : Nat) :
    Xml.WritableAll (Node.annotateAll outcomes path i ns) := by
  induction ns using Node.induction generalizing path i with
  | nil => simp [annotateAll, Xml.WritableAll]
  | text s rest ih =>
    rw [Xml.WritableAll] at h
    rw [annotateAll, annotate, Xml.WritableAll]
    exact ⟨h.1, ih h.2 path (i + 1)⟩
  | element n as cs rest ihc ihr =>
    rw [Xml.WritableAll, Xml.Writable] at h
    obtain ⟨⟨hn, has, hcs⟩, hrest⟩ := h
    rw [annotateAll, annotate, Xml.WritableAll]
    refine ⟨Element.writable_renderAt ?_ outcomes _, ihr hrest path (i + 1)⟩
    rw [Element.node, Xml.Writable]
    exact ⟨hn, has, ihc hcs (path ++ [i]) 0⟩

/-- Children with their outcomes rendered resolve as they did.  By induction on the children, for
all paths and bindings. -/
theorem Node.resolves_annotateAll (outcomes : List Recorded) {ns : List Node}
    (h : Xml.WritableAll ns) (path : List Nat) (i : Nat) (bs : List Xml.Binding) :
    Xml.ResolvesAll bs (Node.annotateAll outcomes path i ns) ↔ Xml.ResolvesAll bs ns := by
  induction ns using Node.induction generalizing path i bs with
  | nil => rw [annotateAll]
  | text s rest ih =>
    rw [Xml.WritableAll] at h
    rw [annotateAll, annotate, Xml.ResolvesAll, Xml.ResolvesAll, ih h.2 path (i + 1) bs]
  | element n as cs rest ihc ihr =>
    rw [Xml.WritableAll, Xml.Writable] at h
    obtain ⟨⟨hn, has, hcs⟩, hrest⟩ := h
    have hinner : Xml.Writable
        (Element.node ⟨n, as, Node.annotateAll outcomes (path ++ [i]) 0 cs⟩) := by
      rw [Element.node, Xml.Writable]
      exact ⟨hn, has, Node.writable_annotateAll outcomes hcs (path ++ [i]) 0⟩
    have hone := Element.resolves_renderAt hinner outcomes (path ++ [i]) bs
    have hsame := Xml.resolves_congr (fun bs => ihc hcs (path ++ [i]) 0 bs) bs n as
    rw [annotateAll, annotate, Xml.ResolvesAll, Xml.ResolvesAll, hone, ihr hrest path (i + 1) bs]
    exact and_congr_left fun _ => hsame

namespace Element

theorem writable_annotate {root : Element} (h : Xml.Writable root.node)
    (outcomes : List Recorded) : Xml.Writable (root.annotate outcomes).node := by
  rw [node, Xml.Writable] at h
  refine writable_renderAt ?_ outcomes []
  rw [node, Xml.Writable]
  exact ⟨h.1, h.2.1, Node.writable_annotateAll outcomes h.2.2 [] 0⟩

/-- **The names of a document resolve with its outcomes if and only if they do without.** -/
theorem resolves_annotate {root : Element} (h : Xml.Writable root.node)
    (outcomes : List Recorded) : (root.annotate outcomes).Resolves ↔ root.Resolves := by
  rw [node, Xml.Writable] at h
  have hinner : Xml.Writable
      (Element.node { root with children := Node.annotateAll outcomes [] 0 root.children }) := by
    rw [node, Xml.Writable]
    exact ⟨h.1, h.2.1, Node.writable_annotateAll outcomes h.2.2 [] 0⟩
  refine (resolves_renderAt hinner outcomes [] []).trans ?_
  exact Xml.resolves_congr (fun bs => Node.resolves_annotateAll outcomes h.2.2 [] 0 bs) [] _ _

end Element

/-! ## 6. The stylesheet -/

theorem writable_styleNode : Xml.Writable styleNode := by
  refine Xml.writable_plain (by decide) (by decide) "text/css" ?_
  simp [Xml.WritableAll, Xml.Writable]

theorem resolves_styleNode (bs : List Xml.Binding) : Xml.Resolves bs styleNode := by
  have htype : Xml.binding? (Xml.reread ⟨"type", "text/css"⟩) = none :=
    Xml.binding?_of_plain (by decide) (by decide) _
  have hstyle : (Xml.QName.ofText "style").qualifier = "" := by decide
  have hqualifier : (Xml.QName.ofText "type").qualifier = "" := by decide
  refine (Xml.resolves_plain hstyle htype hqualifier bs _).mpr ?_
  simp only [Xml.ResolvesAll, Xml.Resolves, and_self]

theorem writable_styleHead {ns : List Node} (h : Xml.WritableAll ns) :
    Xml.WritableAll (styleHead ns) := by
  induction ns with
  | nil => exact h
  | cons n rest ih =>
    rw [Xml.WritableAll] at h
    cases n with
    | text s =>
      rw [styleHead, Xml.WritableAll]
      exact ⟨h.1, ih h.2⟩
    | element n as cs =>
      rw [styleHead]
      split
      · rw [Xml.Writable] at h
        rw [Xml.WritableAll, Xml.Writable, Xml.writableAll_append]
        simp only [Xml.WritableAll, writable_styleNode, and_true]
        exact h
      · rw [Xml.WritableAll]
        exact ⟨h.1, ih h.2⟩

theorem resolves_styleHead (bs : List Xml.Binding) (ns : List Node) :
    Xml.ResolvesAll bs (styleHead ns) ↔ Xml.ResolvesAll bs ns := by
  induction ns with
  | nil => rfl
  | cons n rest ih =>
    cases n with
    | text s => rw [styleHead, Xml.ResolvesAll, Xml.ResolvesAll, ih]
    | element n as cs =>
      rw [styleHead]
      split
      · have hadded : ∀ bs, Xml.ResolvesAll bs (cs ++ [styleNode]) ↔ Xml.ResolvesAll bs cs := by
          intro bs
          rw [Xml.resolvesAll_append]
          simp only [Xml.ResolvesAll, resolves_styleNode, and_true]
        rw [Xml.ResolvesAll, Xml.ResolvesAll, Xml.resolves_congr hadded]
      · rw [Xml.ResolvesAll, Xml.ResolvesAll, ih]

namespace Element

theorem writable_withStylesheet {root : Element} (h : Xml.Writable root.node) :
    Xml.Writable root.withStylesheet.node := by
  rw [node, Xml.Writable] at h ⊢
  exact ⟨h.1, h.2.1, writable_styleHead h.2.2⟩

theorem resolves_withStylesheet (root : Element) :
    root.withStylesheet.Resolves ↔ root.Resolves :=
  Xml.resolves_congr (fun bs => resolves_styleHead bs root.children) [] _ _

end Element

end LivingDoc
