import LivingDoc.Proofs.Markup.Tags
import Mathlib.Data.List.Nodup

/-!
# Tags that come back

What is read of a written tag need not be the tag: declarations move to the front, one that is in
scope already is left out, and a name takes the first prefix of its namespace.  A tag comes back
exactly when none of this makes a difference.

* `Xml.TagStable`: what that takes.
* `Xml.tagRead_of_stable`, `Xml.stable_of_tagRead`: such tags come back, and no others.
-/

namespace LivingDoc.Xml

/-! ## 1. Bindings in scope -/

/-- An element's own declarations are in front of what it inherits.  By induction on the inherited
ones, each of which is put behind or left out. -/
theorem inScope_eq_append (own inherited : List Binding) :
    ∃ more, inScope own inherited = own ++ more ∧ ∀ b ∈ more, b ∈ inherited := by
  have fold (bs ds : List Binding) : ∃ more, inherit ds bs = ds ++ more ∧ ∀ b ∈ more, b ∈ bs := by
    unfold inherit
    induction bs generalizing ds with
    | nil => exact ⟨[], by simp, by simp⟩
    | cons b bs ih =>
      rw [List.foldl_cons]
      split
      · obtain ⟨more, h, hm⟩ := ih ds
        exact ⟨more, h, fun c hc => List.mem_cons_of_mem _ (hm c hc)⟩
      · obtain ⟨more, h, hm⟩ := ih (ds ++ [b])
        refine ⟨b :: more, by rw [h]; simp, fun c hc => ?_⟩
        rcases List.mem_cons.mp hc with rfl | hc
        · exact List.mem_cons_self
        · exact List.mem_cons_of_mem _ (hm c hc)
  unfold inScope
  split
  · rename_i h
    exact ⟨inherited, by rw [List.isEmpty_iff.mp h]; rfl, fun b hb => hb⟩
  · exact fold inherited own

/-- Only an element's own declarations can be new, and each of them that its parent does not have
is. -/
theorem newBindings_inScope (own inherited : List Binding) :
    newBindings (inScope own inherited) inherited =
      own.filter fun b => b.uri != xmlUri && !inherited.contains b := by
  obtain ⟨more, h, hm⟩ := inScope_eq_append own inherited
  have hnil : (more.filter fun b => b.uri != xmlUri && !inherited.contains b) = [] := by
    refine List.filter_eq_nil_iff.mpr fun b hb => ?_
    simp [hm b hb]
  rw [newBindings, h, List.filter_append, hnil, List.append_nil]

/-- The namespace of the prefix `xml` is never bound. -/
theorem uri_ne_of_mem_inScope {own inherited : List Binding}
    (ho : ∀ b ∈ own, b.uri ≠ xmlUri) (hi : ∀ b ∈ inherited, b.uri ≠ xmlUri) :
    ∀ b ∈ inScope own inherited, b.uri ≠ xmlUri := by
  obtain ⟨more, h, hm⟩ := inScope_eq_append own inherited
  intro b hb
  rw [h] at hb
  rcases List.mem_append.mp hb with hb | hb
  · exact ho b hb
  · exact hi b (hm b hb)

/-! ## 2. Declarations -/

/-- The prefixes of the bindings, the default namespace apart. -/
def prefixesOf (bs : List Binding) : List String := bs.filterMap (·.qualifier)

theorem prefixesOf_append (bs ds : List Binding) :
    prefixesOf (bs ++ ds) = prefixesOf bs ++ prefixesOf ds :=
  List.filterMap_append

theorem nodup_prefixesOf_append_singleton {ds : List Binding} {b : Binding} :
    (prefixesOf (ds ++ [b])).Nodup ↔
      (prefixesOf ds).Nodup ∧ ¬(b.qualifier.isSome ∧ ds.any (·.qualifier == b.qualifier)) := by
  rw [prefixesOf_append]
  cases hq : b.qualifier with
  | none => simp [prefixesOf, hq]
  | some x =>
    have hx : prefixesOf [b] = [x] := by simp [prefixesOf, hq]
    have hmem : x ∈ prefixesOf ds ↔ ds.any (·.qualifier == some x) = true := by
      simp [prefixesOf]
    rw [hx, List.nodup_append_comm, List.singleton_append, List.nodup_cons, hmem]
    simp [and_comm]

/-- What a row of declarations declares where all of them are accepted: they leave the reserved
names alone, and have different prefixes.  By induction on the row. -/
theorem foldlM_declare {bs ds es : List Binding} (h : bs.foldlM declare ds = some es) :
    es = ds ++ bs.filter (·.uri != xmlUri) ∧
      (∀ b ∈ bs, b.uri ≠ xmlnsUri ∧ (b.qualifier = some "xml" ↔ b.uri = xmlUri)) ∧
      ((prefixesOf ds).Nodup → (prefixesOf es).Nodup) := by
  induction bs generalizing ds with
  | nil =>
    rw [List.foldlM_nil] at h
    cases h
    simp
  | cons b bs ih =>
    rw [List.foldlM_cons] at h
    obtain ⟨fs, hf, hrest⟩ := Option.bind_eq_some_iff.mp h
    obtain ⟨he, hall, hnodup⟩ := ih hrest
    unfold declare at hf
    split at hf
    · contradiction
    · rename_i hb
      simp only [not_or, not_not] at hb
      obtain ⟨h1, h2, h3⟩ := hb
      have hall : ∀ c ∈ b :: bs, c.uri ≠ xmlnsUri ∧ (c.qualifier = some "xml" ↔ c.uri = xmlUri) := by
        intro c hc
        rcases List.mem_cons.mp hc with rfl | hc
        · exact ⟨h1, h2⟩
        · exact hall c hc
      split at hf
      · rename_i hu
        cases hf
        refine ⟨?_, hall, hnodup⟩
        rw [he, List.filter_cons_of_neg (by simp [hu])]
      · rename_i hu
        cases hf
        refine ⟨?_, hall, fun hd => hnodup (nodup_prefixesOf_append_singleton.mpr ⟨hd, h3⟩)⟩
        rw [he, List.filter_cons_of_pos (by simp [hu]), List.append_assoc, List.singleton_append]

theorem foldlM_declare_of_nodup {bs ds : List Binding}
    (hb : ∀ b ∈ bs, b.uri ≠ xmlUri ∧ b.uri ≠ xmlnsUri ∧ b.qualifier ≠ some "xml")
    (hd : (prefixesOf (ds ++ bs)).Nodup) :
    bs.foldlM declare ds = some (ds ++ bs) := by
  induction bs generalizing ds with
  | nil =>
    rw [List.append_nil]
    rfl
  | cons b bs ih =>
    obtain ⟨h1, h2, h3⟩ := hb b List.mem_cons_self
    have happ : ds ++ b :: bs = (ds ++ [b]) ++ bs := by simp
    have hone : (prefixesOf (ds ++ [b])).Nodup := by
      rw [happ, prefixesOf_append] at hd
      exact hd.of_append_left
    have hdeclare : declare ds b = some (ds ++ [b]) := by
      unfold declare
      rw [if_neg, if_neg h1]
      rintro (h | h | h)
      · exact h2 h
      · exact h ⟨fun hx => absurd hx h3, fun hx => absurd hx h1⟩
      · exact (nodup_prefixesOf_append_singleton.mp hone).2 h
    rw [List.foldlM_cons, hdeclare]
    refine (ih (fun c hc => hb c (List.mem_cons_of_mem _ hc)) (by rwa [← happ])).trans ?_
    rw [← happ]

/-! ## 3. Attributes -/

/-- An attribute with the namespace of its prefix, if that has one. -/
def propertyOf (bs : List Binding) (a : PendingProperty) : Property :=
  ⟨(propertyUri bs a).toOption.join, a.name.localName, a.value⟩

/-- What no two attributes of an element share: the expanded name. -/
def Property.key (d : Property) : Option String × String := (d.uri, d.localName)

theorem resolve_cons_of_ok {bs : List Binding} {a : PendingProperty} {ps : List PendingProperty}
    {done : List Property} {u : Option String} (hu : propertyUri bs a = .ok u) :
    resolve bs (a :: ps) done =
      if (propertyOf bs a).key ∈ done.map (·.key) then
        .error ⟨.attributeRepeated a.name.localName, a.left⟩
      else resolve bs ps (done ++ [propertyOf bs a]) := by
  have hprop : propertyOf bs a = ⟨u, a.name.localName, a.value⟩ := by
    rw [propertyOf, hu]
    rfl
  have hdup : done.any (fun d => d.uri == u && d.localName == a.name.localName) = true ↔
      (propertyOf bs a).key ∈ done.map (·.key) := by
    simp [hprop, Property.key]
  rw [resolve, hu]
  simp only [hdup, hprop]

theorem nodup_key_append_singleton {done : List Property} (hdone : (done.map (·.key)).Nodup)
    (d : Property) :
    ((done ++ [d]).map (·.key)).Nodup ↔ d.key ∉ done.map (·.key) := by
  rw [List.map_append, List.nodup_append_comm]
  exact ⟨fun h => (List.nodup_cons.mp h).1, fun h => List.nodup_cons.mpr ⟨h, hdone⟩⟩

/-- The attributes of a tag are resolved when every prefix has a namespace and no two have the same
namespace and local name.  By induction on those that are left, with the ones that are done in
front. -/
theorem resolve_eq_ok_iff {bs : List Binding} {ps : List PendingProperty}
    {done qs : List Property} (hdone : (done.map (·.key)).Nodup) :
    resolve bs ps done = .ok qs ↔
      (∀ a ∈ ps, ∃ u, propertyUri bs a = .ok u) ∧
        ((done ++ ps.map (propertyOf bs)).map (·.key)).Nodup ∧
        qs = done ++ ps.map (propertyOf bs) := by
  induction ps generalizing done with
  | nil =>
    rw [resolve, Except.ok.injEq]
    constructor
    · rintro rfl
      exact ⟨by simp, by simpa using hdone, by simp⟩
    · rintro ⟨-, -, h⟩
      rw [h]
      simp
  | cons a ps ih =>
    cases hu : propertyUri bs a with
    | error f =>
      rw [resolve, hu]
      refine ⟨fun h => absurd h (by simp), fun h => ?_⟩
      obtain ⟨u, hok⟩ := h.1 a List.mem_cons_self
      exact absurd (hu.symm.trans hok) (by simp)
    | ok u =>
      have hone := nodup_key_append_singleton hdone (propertyOf bs a)
      have happ : done ++ (a :: ps).map (propertyOf bs) =
          (done ++ [propertyOf bs a]) ++ ps.map (propertyOf bs) := by
        rw [List.map_cons, List.append_assoc, List.singleton_append]
      rw [resolve_cons_of_ok hu, happ]
      split
      · rename_i h
        refine ⟨fun hf => absurd hf (by simp), fun hok => ?_⟩
        have hnodup := hok.2.1
        rw [List.map_append] at hnodup
        exact absurd h (hone.mp hnodup.of_append_left)
      · rename_i h
        rw [ih (hone.mpr h)]
        refine and_congr_left fun _ => ⟨fun hall b hb => ?_, fun hall b hb =>
          hall b (List.mem_cons_of_mem _ hb)⟩
        rcases List.mem_cons.mp hb with rfl | hb
        · exact ⟨u, hu⟩
        · exact hall b hb

/-! ## 4. Prefixes that are kept -/

/-- The prefix is the first one of the namespace that it stands for, so a name that is made from the
namespace has it. -/
def KeepsPrefix (bs : List Binding) (x : String) : Prop :=
  (uriOf? bs (some x)).bind (fun u => (bs.filter (·.uri == u)).findSome? (·.qualifier)) = some x

instance (bs : List Binding) (x : String) : Decidable (KeepsPrefix bs x) :=
  inferInstanceAs (Decidable (_ = _))

/-- The default namespace is not that of the prefix. -/
def NoDefault (bs : List Binding) (x : String) : Prop :=
  ∀ b ∈ bs, b.qualifier = none → uriOf? bs (some x) ≠ some b.uri

instance (bs : List Binding) (x : String) : Decidable (NoDefault bs x) :=
  inferInstanceAs (Decidable (∀ b ∈ bs, _))

theorem prefixed_inj {x y l : String} : x ++ ":" ++ l = y ++ ":" ++ l ↔ x = y := by
  refine ⟨fun h => ?_, fun h => by rw [h]⟩
  have h := congrArg String.toList h
  simp only [String.toList_append, List.append_assoc] at h
  exact String.toList_injective (List.append_cancel_right h)

theorem prefixed_ne_local (x l : String) : x ++ ":" ++ l ≠ l := by
  intro h
  have h := congrArg (·.toList.length) h
  have hcolon : (":" : String).toList.length = 1 := rfl
  simp only [String.toList_append, List.length_append, hcolon] at h
  omega

theorem mem_of_uriOf? {bs : List Binding} {q : Option String} {u : String}
    (h : uriOf? bs q = some u) : ∃ b ∈ bs, b.qualifier = q ∧ b.uri = u := by
  obtain ⟨b, hb, rfl⟩ := Option.map_eq_some_iff.mp h
  exact ⟨b, List.mem_of_find?_eq_some hb, by simpa using List.find?_some hb, rfl⟩

theorem text_of_qualifier {q : QName} (h : q.qualifier ≠ "") :
    q.text = q.qualifier ++ ":" ++ q.localName := by
  simp [QName.text, h]

theorem text_of_not_qualifier {q : QName} (h : q.qualifier = "") : q.text = q.localName := by
  simp [QName.text, h]

/-- The prefix that stands for a namespace is written again when it is the first one. -/
theorem qualify_prefixed_iff {bs : List Binding} {u : String} (hu : u ≠ xmlUri) {x l : String} :
    qualify bs (some u) l false = x ++ ":" ++ l ↔
      (bs.filter (·.uri == u)).findSome? (·.qualifier) = some x := by
  rw [qualify, if_neg hu]
  dsimp only
  rw [Bool.false_and, if_neg Bool.false_ne_true]
  cases (bs.filter (·.uri == u)).findSome? (·.qualifier) with
  | none => exact ⟨fun h => absurd h.symm (prefixed_ne_local x l), fun h => by contradiction⟩
  | some y =>
    rw [Option.some.injEq]
    exact prefixed_inj

/-- For an element the default namespace goes before all prefixes. -/
theorem qualify_prefixed_iff_of_element {bs : List Binding} {u : String} (hu : u ≠ xmlUri)
    {x l : String} :
    qualify bs (some u) l true = x ++ ":" ++ l ↔
      (bs.filter (·.uri == u)).findSome? (·.qualifier) = some x ∧
        ∀ b ∈ bs, b.qualifier = none → u ≠ b.uri := by
  rw [← qualify_prefixed_iff hu]
  by_cases hd : ((bs.filter (·.uri == u)).any (·.qualifier == none)) = true
  · have hl : qualify bs (some u) l true = l := by
      rw [qualify, if_neg hu]
      dsimp only
      rw [hd]
      rfl
    rw [hl]
    refine ⟨fun h => absurd h.symm (prefixed_ne_local x l), fun h => ?_⟩
    obtain ⟨b, hb, hq⟩ := List.any_eq_true.mp hd
    obtain ⟨hb, hbu⟩ := List.mem_filter.mp hb
    exact absurd (beq_iff_eq.mp hbu).symm (h.2 b hb (beq_iff_eq.mp hq))
  · have hl : qualify bs (some u) l true = qualify bs (some u) l false := by
      rw [qualify, qualify, if_neg hu, if_neg hu]
      dsimp only
      rw [Bool.eq_false_iff.mpr hd]
      rfl
    rw [hl]
    refine ⟨fun h => ⟨h, fun b hb hq hbu => hd ?_⟩, And.left⟩
    exact List.any_eq_true.mpr
      ⟨b, List.mem_filter.mpr ⟨hb, beq_iff_eq.mpr hbu.symm⟩, beq_iff_eq.mpr hq⟩

/-- The name of an attribute comes back when its prefix does.  Without a prefix it is in no
namespace; in the namespace of `xml` it is always made with this prefix. -/
theorem attributeName_iff {bs : List Binding} (hbs : ∀ b ∈ bs, b.uri ≠ xmlUri)
    (a : PendingProperty) :
    (∃ u, propertyUri bs a = .ok u ∧ qualify bs u a.name.localName false = a.name.text) ↔
      a.name.qualifier = "" ∨ a.name.qualifier = "xml" ∨ KeepsPrefix bs a.name.qualifier := by
  unfold propertyUri
  by_cases hx : a.name.qualifier = "xml"
  · rw [if_pos hx]
    refine ⟨fun _ => Or.inr (Or.inl hx), fun _ => ⟨_, rfl, ?_⟩⟩
    rw [text_of_qualifier (by rw [hx]; decide), hx]
    rfl
  · rw [if_neg hx]
    by_cases he : a.name.qualifier = ""
    · rw [if_pos he]
      refine ⟨fun _ => Or.inl he, fun _ => ⟨_, rfl, ?_⟩⟩
      rw [text_of_not_qualifier he]
      rfl
    · rw [if_neg he, text_of_qualifier he]
      simp only [he, hx, false_or]
      unfold KeepsPrefix
      cases hu : uriOf? bs (some a.name.qualifier) with
      | none => simp
      | some u =>
        obtain ⟨b, hb, -, hbu⟩ := mem_of_uriOf? hu
        have hne : u ≠ xmlUri := fun h => hbs b hb (hbu.trans h)
        simp only [Except.ok.injEq, exists_eq_left', Option.bind_some]
        exact qualify_prefixed_iff hne

/-- The name of an element comes back when its prefix does and the default namespace is another.
Without a prefix it is in the default namespace, which goes before all prefixes. -/
theorem elementName_iff {bs : List Binding} (hbs : ∀ b ∈ bs, b.uri ≠ xmlUri) (q : QName) :
    (∃ u, elementUri bs q 0 = .ok u ∧ qualify bs u q.localName true = q.text) ↔
      q.qualifier = "" ∨ KeepsPrefix bs q.qualifier ∧ NoDefault bs q.qualifier := by
  unfold elementUri
  by_cases he : q.qualifier = ""
  · rw [if_pos he, text_of_not_qualifier he]
    refine ⟨fun _ => Or.inl he, fun _ => ⟨_, rfl, ?_⟩⟩
    cases hu : uriOf? bs none with
    | none => rfl
    | some u =>
      obtain ⟨b, hb, hq, hbu⟩ := mem_of_uriOf? hu
      have hne : u ≠ xmlUri := fun h => hbs b hb (hbu.trans h)
      have hd : (bs.filter (·.uri == u)).any (·.qualifier == none) = true :=
        List.any_eq_true.mpr
          ⟨b, List.mem_filter.mpr ⟨hb, beq_iff_eq.mpr hbu⟩, beq_iff_eq.mpr hq⟩
      rw [qualify, if_neg hne]
      dsimp only
      rw [hd]
      rfl
  · rw [if_neg he, text_of_qualifier he]
    simp only [he, false_or]
    unfold KeepsPrefix NoDefault
    cases hu : uriOf? bs (some q.qualifier) with
    | none => simp
    | some u =>
      obtain ⟨b, hb, -, hbu⟩ := mem_of_uriOf? hu
      have hne : u ≠ xmlUri := fun h => hbs b hb (hbu.trans h)
      simp only [Except.ok.injEq, exists_eq_left', Option.bind_some, ne_eq, Option.some.injEq]
      exact qualify_prefixed_iff_of_element hne

/-! ## 5. Declarations in front -/

/-- A binding as it is read when it was declared. -/
def rereadBinding (b : Binding) : Binding := { b with uri := String.ofList (valueRead b.uri.toList) }

theorem binding?_reread (a : Attribute) : binding? (reread a) = (binding? a).map rereadBinding := by
  unfold binding? declared? reread
  split
  · rfl
  · split <;> rfl

theorem bindingsOf_reread (as : List Attribute) :
    bindingsOf (as.map reread) = (bindingsOf as).map rereadBinding := by
  unfold bindingsOf
  rw [List.filterMap_map, List.map_filterMap]
  exact List.filterMap_congr fun a _ => binding?_reread a

theorem ordinaryOf_reread (as : List Attribute) :
    ordinaryOf (as.map reread) = (ordinaryOf as).map reread := by
  unfold ordinaryOf
  rw [List.filter_map]
  congr 1
  refine List.filter_congr fun a _ => ?_
  rw [Function.comp_apply, binding?_reread, Option.isNone_map]

theorem length_bindingsOf_add (as : List Attribute) :
    (bindingsOf as).length + (ordinaryOf as).length = as.length := by
  unfold bindingsOf ordinaryOf
  induction as with
  | nil => rfl
  | cons a as ih => cases h : binding? a <;> simp [h] <;> omega

theorem bindingsOf_append (as ds : List Attribute) :
    bindingsOf (as ++ ds) = bindingsOf as ++ bindingsOf ds :=
  List.filterMap_append

theorem ordinaryOf_append (as ds : List Attribute) :
    ordinaryOf (as ++ ds) = ordinaryOf as ++ ordinaryOf ds :=
  List.filter_append ..

theorem binding?_declaration (b : Binding) : binding? b.declaration = some b := by
  have hcolon := isPlain_xmlns.no_colon
  obtain ⟨x, u⟩ := b
  cases x with
  | none =>
    rw [binding?, Binding.declaration]
    dsimp only
    rw [QName.ofText_local hcolon]
    rfl
  | some x =>
    have ht : "xmlns:" ++ x = "xmlns" ++ ":" ++ x := rfl
    rw [binding?, Binding.declaration]
    dsimp only
    rw [ht, QName.ofText_prefixed hcolon]
    rfl

theorem bindingsOf_declarations (ds : List Binding) :
    bindingsOf (ds.map Binding.declaration) = ds := by
  unfold bindingsOf
  rw [List.filterMap_map]
  refine (List.filterMap_congr fun b _ => binding?_declaration b).trans ?_
  simp

theorem ordinaryOf_declarations (ds : List Binding) :
    ordinaryOf (ds.map Binding.declaration) = [] := by
  unfold ordinaryOf
  refine List.filter_eq_nil_iff.mpr fun a ha => ?_
  obtain ⟨b, -, rfl⟩ := List.mem_map.mp ha
  rw [binding?_declaration]
  simp

theorem reread_declaration (b : Binding) :
    reread b.declaration = (rereadBinding b).declaration := by
  obtain ⟨x, u⟩ := b
  cases x <;> rfl

theorem ordinaryOf_of_bindingsOf_nil {as : List Attribute} (h : bindingsOf as = []) :
    ordinaryOf as = as := by
  refine List.filter_eq_self.mpr fun a ha => ?_
  rw [List.filterMap_eq_nil_iff.mp h a ha]
  rfl

/-! ## 6. Tags that come back -/

/-- The value comes back: it holds allowed characters, and no line ends and tabs among them. -/
def ValueStable (v : String) : Prop := ∀ c ∈ v.toList, isAllowed c = true ∧ asSpace c = c

instance (v : String) : Decidable (ValueStable v) := List.decidableBAll _ _

/-- The tag comes back when it is written and read where these bindings are inherited.  Everything
in it is decided without the reader. -/
structure TagStable (inherited : List Binding) (n : String) (as : List Attribute) : Prop where
  /-- The names can be written, and the values come back. -/
  isName : IsName n
  named : ∀ a ∈ as, IsName a.name
  values : ∀ a ∈ as, ValueStable a.value
  /-- The declarations stand in front, with the names of declarations. -/
  inFront : as = (bindingsOf as).map Binding.declaration ++ ordinaryOf as
  /-- Each declares something that is not in scope yet and can be declared. -/
  fresh : ∀ b ∈ bindingsOf as, b ∉ inherited ∧ b.uri ≠ xmlUri ∧ b.uri ≠ xmlnsUri ∧
    b.qualifier ≠ some "xml"
  /-- No prefix is declared twice. -/
  prefixes : (prefixesOf (bindingsOf as)).Nodup
  /-- No attribute is there twice. -/
  distinct : ((ordinaryOf as).map (·.name)).Nodup
  /-- The prefixes of the attributes are kept. -/
  attributeNames : ∀ a ∈ ordinaryOf as, (QName.ofText a.name).qualifier = "" ∨
    (QName.ofText a.name).qualifier = "xml" ∨
    KeepsPrefix (inScope (bindingsOf as) inherited) (QName.ofText a.name).qualifier
  /-- So is the prefix of the element, and its namespace is not the default one. -/
  elementName : (QName.ofText n).qualifier = "" ∨
    (QName.ofText n).qualifier ≠ "xmlns" ∧
    KeepsPrefix (inScope (bindingsOf as) inherited) (QName.ofText n).qualifier ∧
    NoDefault (inScope (bindingsOf as) inherited) (QName.ofText n).qualifier

instance (inherited : List Binding) (n : String) (as : List Attribute) :
    Decidable (TagStable inherited n as) :=
  decidable_of_iff
    (IsName n ∧ (∀ a ∈ as, IsName a.name) ∧
      (∀ a ∈ as, ValueStable a.value) ∧
      as = (bindingsOf as).map Binding.declaration ++ ordinaryOf as ∧
      (∀ b ∈ bindingsOf as, b ∉ inherited ∧ b.uri ≠ xmlUri ∧ b.uri ≠ xmlnsUri ∧
        b.qualifier ≠ some "xml") ∧
      (prefixesOf (bindingsOf as)).Nodup ∧ ((ordinaryOf as).map (·.name)).Nodup ∧
      (∀ a ∈ ordinaryOf as, (QName.ofText a.name).qualifier = "" ∨
        (QName.ofText a.name).qualifier = "xml" ∨
        KeepsPrefix (inScope (bindingsOf as) inherited) (QName.ofText a.name).qualifier) ∧
      ((QName.ofText n).qualifier = "" ∨ (QName.ofText n).qualifier ≠ "xmlns" ∧
        KeepsPrefix (inScope (bindingsOf as) inherited) (QName.ofText n).qualifier ∧
        NoDefault (inScope (bindingsOf as) inherited) (QName.ofText n).qualifier))
    ⟨fun ⟨h1, h2, h3, h4, h5, h6, h7, h8, h9⟩ => ⟨h1, h2, h3, h4, h5, h6, h7, h8, h9⟩,
      fun ⟨h1, h2, h3, h4, h5, h6, h7, h8, h9⟩ => ⟨h1, h2, h3, h4, h5, h6, h7, h8, h9⟩⟩

theorem map_eq_self_iff {α : Type} {f : α → α} {l : List α} :
    l.map f = l ↔ ∀ a ∈ l, f a = a := by
  have h := List.map_inj_left (f := f) (g := id) (l := l)
  rwa [List.map_id] at h

theorem toOption_eq_some_iff {ε α : Type} {x : Except ε α} {a : α} :
    x.toOption = some a ↔ x = .ok a := by
  cases x <;> simp [Except.toOption]

theorem reread_eq_self_iff {a : Attribute} :
    reread a = a ↔ ∀ c ∈ a.value.toList, asSpace c = c := by
  rw [← valueRead_eq_self_iff, reread]
  constructor
  · intro h
    have hv : String.ofList (valueRead a.value.toList) = a.value := congrArg Attribute.value h
    have hl := congrArg String.toList hv
    rwa [String.toList_ofList] at hl
  · intro h
    rw [h, String.ofList_toList]

/-- An attribute as it is named again where it was resolved. -/
def renamed (bs : List Binding) (a : Attribute) : Attribute :=
  ⟨qualify bs (propertyOf bs (waiting a)).uri (propertyOf bs (waiting a)).localName false, a.value⟩

theorem renamed_eq_self_iff {bs : List Binding} {a : Attribute} (hn : IsName a.name)
    {u : Option String} (hu : propertyUri bs (waiting a) = .ok u) :
    renamed bs a = a ↔
      qualify bs u (QName.ofText a.name).localName false = (QName.ofText a.name).text := by
  have hp : propertyOf bs (waiting a) = ⟨u, (QName.ofText a.name).localName, a.value⟩ := by
    rw [propertyOf, hu]
    rfl
  rw [renamed, hp, hn.2]
  exact ⟨fun h => congrArg Attribute.name h, fun h => by rw [h]⟩

/-- The attributes of a tag are those that are declared and those that are named again. -/
theorem attributesOf_waiting (own inherited : List Binding) (as : List Attribute) :
    attributesOf (inScope own inherited) inherited
        ((as.map waiting).map (propertyOf (inScope own inherited))) =
      (own.filter fun b => b.uri != xmlUri && !inherited.contains b).map Binding.declaration ++
        as.map (renamed (inScope own inherited)) := by
  rw [attributesOf, newBindings_inScope, List.map_map, List.map_map]
  rfl

/-- Where the attributes come back none of them was lost on the way: every declaration is new.
Otherwise there would be fewer. -/
theorem new_of_attributes {as : List Attribute} {ds inherited : List Binding}
    {f : Attribute → Attribute}
    (hds : ds = (bindingsOf (as.map reread)).filter (·.uri != xmlUri))
    (h : (ds.filter fun b => b.uri != xmlUri && !inherited.contains b).map Binding.declaration ++
      (ordinaryOf (as.map reread)).map f = as) :
    ds = bindingsOf (as.map reread) ∧
      ∀ b ∈ ds, (b.uri != xmlUri && !inherited.contains b) = true := by
  have hlength := congrArg List.length h
  rw [List.length_append, List.length_map, List.length_map] at hlength
  have hparts := length_bindingsOf_add (as.map reread)
  rw [List.length_map] at hparts
  have hnew := List.length_filter_le (fun b => b.uri != xmlUri && !inherited.contains b) ds
  have hxml := List.length_filter_le (·.uri != xmlUri) (bindingsOf (as.map reread))
  rw [← hds] at hxml
  refine ⟨?_, List.length_filter_eq_length_iff.mp (by omega)⟩
  have hb := List.length_filter_eq_length_iff (p := (·.uri != xmlUri))
    (l := bindingsOf (as.map reread))
  rw [← hds] at hb
  exact hds.trans (List.filter_eq_self.mpr (hb.mp (by omega)))

/-- Where the attributes come back every value is read as it is, and the ordinary attributes come
back behind the declarations. -/
theorem reread_of_attributes {as : List Attribute} {f : Attribute → Attribute}
    (h : (bindingsOf (as.map reread)).map Binding.declaration ++
      (ordinaryOf (as.map reread)).map f = as) (hf : ∀ a, (f a).value = a.value) :
    as.map reread = as ∧ (ordinaryOf as).map f = ordinaryOf as := by
  have hb := congrArg bindingsOf h
  rw [bindingsOf_append, bindingsOf_declarations] at hb
  have hnone : bindingsOf ((ordinaryOf (as.map reread)).map f) = [] := by
    have hl := congrArg List.length hb
    rw [List.length_append, bindingsOf_reread, List.length_map] at hl
    exact List.length_eq_zero_iff.mp (by omega)
  have ho := congrArg ordinaryOf h
  rw [ordinaryOf_append, ordinaryOf_declarations, List.nil_append,
    ordinaryOf_of_bindingsOf_nil hnone, ordinaryOf_reread] at ho
  rw [hnone, List.append_nil, bindingsOf_reread] at hb
  have hself : ∀ a ∈ as, reread a = a := by
    intro a ha
    rw [← h, bindingsOf_reread, hb, ordinaryOf_reread, ho] at ha
    rcases List.mem_append.mp ha with ha | ha
    · obtain ⟨b, hbd, rfl⟩ := List.mem_map.mp ha
      rw [reread_declaration, map_eq_self_iff.mp hb b hbd]
    · rw [List.map_map] at ho
      have hv := congrArg Attribute.value (map_eq_self_iff.mp ho a ha)
      rw [Function.comp_apply, hf] at hv
      calc reread a = ⟨a.name, (reread a).value⟩ := rfl
        _ = a := by rw [hv]
  have hmap : as.map reread = as := map_eq_self_iff.mpr hself
  rw [← ordinaryOf_reread, hmap] at ho
  exact ⟨hmap, ho⟩

section

variable {inherited : List Binding} (hi : ∀ b ∈ inherited, b.uri ≠ xmlUri) {n : String}
  {as : List Attribute}

theorem TagStable.declaredBy (h : TagStable inherited n as) :
    declaredBy [] as = some (bindingsOf as) ∧ as.map reread = as := by
  have hself : as.map reread = as := map_eq_self_iff.mpr fun a ha =>
    reread_eq_self_iff.mpr fun c hc => (h.values a ha c hc).2
  refine ⟨?_, hself⟩
  rw [Xml.declaredBy, if_pos, hself]
  · exact foldlM_declare_of_nodup (fun b hb => (h.fresh b hb).2) h.prefixes
  · exact List.all_eq_true.mpr fun a ha =>
      hasAllowedValue_iff.mpr fun c hc => (h.values a ha c hc).1

include hi in
theorem TagStable.uri_ne (h : TagStable inherited n as) :
    ∀ b ∈ inScope (bindingsOf as) inherited, b.uri ≠ xmlUri :=
  uri_ne_of_mem_inScope (fun b hb => (h.fresh b hb).2.1) hi

include hi in
theorem TagStable.renamed (h : TagStable inherited n as) :
    (∀ a ∈ ordinaryOf as, ∃ u,
      propertyUri (inScope (bindingsOf as) inherited) (waiting a) = .ok u) ∧
      (ordinaryOf as).map (renamed (inScope (bindingsOf as) inherited)) = ordinaryOf as := by
  have huri (a : Attribute) (ha : a ∈ ordinaryOf as) :=
    (attributeName_iff (h.uri_ne hi) (waiting a)).mpr (h.attributeNames a ha)
  refine ⟨fun a ha => ?_, map_eq_self_iff.mpr fun a ha => ?_⟩
  · obtain ⟨u, hu, -⟩ := huri a ha
    exact ⟨u, hu⟩
  · obtain ⟨u, hu, hq⟩ := huri a ha
    exact (renamed_eq_self_iff (h.named a (List.mem_of_mem_filter ha)) hu).mpr hq

include hi in
theorem TagStable.resolve (h : TagStable inherited n as) :
    Xml.resolve (inScope (bindingsOf as) inherited) ((ordinaryOf as).map waiting) [] =
      .ok (((ordinaryOf as).map waiting).map (propertyOf (inScope (bindingsOf as) inherited))) := by
  obtain ⟨huri, hrenamed⟩ := h.renamed hi
  refine (resolve_eq_ok_iff (by simp)).mpr ⟨fun w hw => ?_, ?_, rfl⟩
  · obtain ⟨a, ha, rfl⟩ := List.mem_map.mp hw
    exact huri a ha
  · -- the name of an attribute is made from its namespace and local name
    rw [List.nil_append, List.map_map, List.map_map]
    have hdistinct := h.distinct
    rw [← hrenamed, List.map_map] at hdistinct
    exact List.Nodup.of_map (fun k : Option String × String =>
      qualify (inScope (bindingsOf as) inherited) k.1 k.2 false) (by rwa [List.map_map])

include hi in
/-- **A stable tag comes back**: its declarations are all new and in front, its names take their own
prefixes, and its values are read as they are. -/
theorem tagRead_of_stable (h : TagStable inherited n as) :
    ∃ t, tagRead inherited (.ofText n) as = some t ∧
      t.bindings = inScope (bindingsOf as) inherited ∧
      qualify t.bindings t.uri (QName.ofText n).localName true = n ∧
      attributesOf t.bindings inherited t.properties = as := by
  obtain ⟨hdeclared, hself⟩ := h.declaredBy
  obtain ⟨uri, huri, hname⟩ := (elementName_iff (h.uri_ne hi) (.ofText n)).mpr
    (h.elementName.imp_right And.right)
  have hxmlns : (QName.ofText n).qualifier ≠ "xmlns" := by
    rcases h.elementName with he | he
    · rw [he]
      decide
    · exact he.1
  refine ⟨⟨uri, inScope (bindingsOf as) inherited, ((ordinaryOf as).map waiting).map
    (propertyOf (inScope (bindingsOf as) inherited))⟩, ?_, rfl, ?_, ?_⟩
  · rw [tagRead, if_neg hxmlns, hdeclared, hself, Option.bind_some, h.resolve hi, huri]
    rfl
  · exact hname.trans h.isName.2
  · have hnew : ∀ b ∈ bindingsOf as, (b.uri != xmlUri && !inherited.contains b) = true := by
      intro b hb
      have := h.fresh b hb
      simp [this.1, this.2.1]
    dsimp only
    rw [attributesOf_waiting, List.filter_eq_self.mpr hnew, (h.renamed hi).2, ← h.inFront]

include hi in
/-- **No other tag comes back.**  The number of attributes says that every declaration is new, and
then each attribute is compared with the one in its place. -/
theorem stable_of_tagRead (hn : IsName n) (has : ∀ a ∈ as, IsName a.name) {t : TagRead}
    (ht : tagRead inherited (.ofText n) as = some t)
    (hname : qualify t.bindings t.uri (QName.ofText n).localName true = n)
    (has' : attributesOf t.bindings inherited t.properties = as) :
    TagStable inherited n as ∧ t.bindings = inScope (bindingsOf as) inherited := by
  unfold tagRead at ht
  split at ht
  · contradiction
  rename_i hxmlns
  obtain ⟨ds, hds, ht⟩ := Option.bind_eq_some_iff.mp ht
  obtain ⟨ps, hps, ht⟩ := Option.bind_eq_some_iff.mp ht
  obtain ⟨uri, huri, rfl⟩ := Option.map_eq_some_iff.mp ht
  rw [toOption_eq_some_iff] at hps huri
  obtain ⟨hresolved, hkeys, rfl⟩ := (resolve_eq_ok_iff (by simp)).mp hps
  rw [List.nil_append] at has' hkeys
  rw [attributesOf_waiting] at has'
  unfold declaredBy at hds
  split at hds
  · rename_i hallowed
    obtain ⟨hfilter, hdecl, hprefixes⟩ := foldlM_declare hds
    rw [List.nil_append] at hfilter
    obtain ⟨rfl, hnew⟩ := new_of_attributes hfilter has'
    rw [List.filter_eq_self.mpr hnew] at has'
    obtain ⟨hself, hrenamed⟩ := reread_of_attributes has' fun _ => rfl
    rw [hself] at hdecl hresolved hkeys has' hnew huri hname hrenamed hprefixes
    rw [hrenamed] at has'
    have hfresh : ∀ b ∈ bindingsOf as, b ∉ inherited ∧ b.uri ≠ xmlUri := by
      intro b hb
      have := hnew b hb
      simp only [Bool.and_eq_true, bne_iff_ne, Bool.not_eq_true', List.contains_eq_mem,
        decide_eq_false_iff_not] at this
      exact ⟨this.2, this.1⟩
    have hbs : ∀ b ∈ inScope (bindingsOf as) inherited, b.uri ≠ xmlUri :=
      uri_ne_of_mem_inScope (fun b hb => (hfresh b hb).2) hi
    refine ⟨⟨hn, has, fun a ha c hc => ⟨?_, ?_⟩, has'.symm, fun b hb => ?_, ?_, ?_,
      fun a ha => ?_, ?_⟩, by rw [hself]⟩
    · exact hasAllowedValue_iff.mp (List.all_eq_true.mp hallowed a ha) c hc
    · exact reread_eq_self_iff.mp (map_eq_self_iff.mp hself a ha) c hc
    · exact ⟨(hfresh b hb).1, (hfresh b hb).2, (hdecl b hb).1,
        fun hx => (hfresh b hb).2 ((hdecl b hb).2.mp hx)⟩
    · exact hprefixes (by simp [prefixesOf])
    · -- the namespace and local name of an attribute are made from its name
      rw [List.map_map, List.map_map] at hkeys
      exact List.Nodup.of_map (fun m : String =>
        (propertyOf (inScope (bindingsOf as) inherited) ⟨.ofText m, "", 0⟩).key)
        (by rw [List.map_map]; exact hkeys)
    · obtain ⟨u, hu⟩ := hresolved (waiting a) (List.mem_map_of_mem ha)
      have hq := (renamed_eq_self_iff (has a (List.mem_of_mem_filter ha)) hu).mp
        (map_eq_self_iff.mp hrenamed a ha)
      exact (attributeName_iff hbs (waiting a)).mp ⟨u, hu, hq⟩
    · rcases (elementName_iff hbs (.ofText n)).mp ⟨uri, huri, hname.trans hn.2.symm⟩ with he | he
      · exact Or.inl he
      · exact Or.inr ⟨hxmlns, he⟩
  · contradiction

end

end LivingDoc.Xml
