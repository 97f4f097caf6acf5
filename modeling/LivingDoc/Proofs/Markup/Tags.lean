import LivingDoc.Proofs.Markup.Reading
import LivingDoc.Xml.Document

/-!
# What is read of a written tag

The attributes of a tag are declarations and ordinary ones.  The reader collects both and, at the
end of the tag, brings the declarations into scope and gives every name the namespace of its prefix
there.  What comes of it depends on the tag and on the bindings around it, on nothing else.

* `Xml.readOn_opened`, `Xml.readOn_emptied`: a written tag is read as `Xml.tagRead` says.
-/

namespace LivingDoc.Xml

/-! ## 1. Declarations and ordinary attributes -/

/-- The name is one that an element and its attributes can be written with: the reader takes all of
it for one name. -/
def IsName (name : String) : Prop := (QName.ofText name).Valid ∧ (QName.ofText name).text = name

instance (name : String) : Decidable (IsName name) := inferInstanceAs (Decidable (_ ∧ _))

theorem isName_text {q : QName} (h : q.Valid) : IsName q.text := by
  unfold IsName
  rw [QName.ofText_text h]
  exact ⟨h, rfl⟩

/-- The binding that an attribute with this name declares, if it is a declaration. -/
def declared? (n : QName) (value : String) : Option Binding :=
  if n.qualifier = "xmlns" then some ⟨some n.localName, value⟩
  else if n.localName = "xmlns" then some ⟨none, value⟩
  else none

/-- The binding that an attribute declares. -/
def binding? (a : Attribute) : Option Binding := declared? (.ofText a.name) a.value

/-- The bindings that the attributes of a tag declare. -/
def bindingsOf (as : List Attribute) : List Binding := as.filterMap binding?

/-- The attributes of a tag that are not declarations. -/
def ordinaryOf (as : List Attribute) : List Attribute := as.filter fun a => (binding? a).isNone

/-- Declare one more binding.  By the rules of namespaces in XML a prefix is declared once, and the
prefix `xml` and its namespace belong together; they are not recorded. -/
def declare (ds : List Binding) (b : Binding) : Option (List Binding) :=
  if b.uri = xmlnsUri ∨ ¬(b.qualifier = some "xml" ↔ b.uri = xmlUri) ∨
      b.qualifier.isSome ∧ ds.any (·.qualifier == b.qualifier) then none
  else if b.uri = xmlUri then some ds
  else some (ds ++ [b])

theorem addProperty_of_prefix {n : QName} (hn : n.qualifier = "xmlns") (value : String)
    (p : Partial) (left : Nat) :
    (p.addProperty n value left).toOption =
      (declare p.declared ⟨some n.localName, value⟩).map fun ds => { p with declared := ds } := by
  unfold Partial.addProperty declare
  rw [if_pos hn]
  by_cases hw : value = xmlnsUri
  · rw [if_pos hw, if_pos (Or.inl hw)]
    rfl
  by_cases hm : n.localName = "xml" ↔ value = xmlUri
  · rw [if_neg hw, if_neg (by simp [hm]), if_neg (by simp [hm])]
    by_cases hd : p.declared.any (·.qualifier == some n.localName) = true
    · rw [if_pos hd, if_pos (Or.inr (Or.inr ⟨rfl, hd⟩))]
      rfl
    · rw [if_neg hd, if_neg (c := _ ∨ _) (by simpa [hw, hm] using hd)]
      split <;> rfl
  · rw [if_neg hw, if_pos (c := _ ∨ _) (Or.inr (Or.inl (by simpa using hm)))]
    by_cases hx : n.localName = "xml"
    · have hu : value ≠ xmlUri := fun hu => hm (iff_of_true hx hu)
      rw [if_pos (by simp [hx, hu])]
      rfl
    · have hu : value = xmlUri := by
        by_contra hu
        exact hm (iff_of_false hx hu)
      rw [if_neg (by simp [hx]), if_pos (by simp [hx, hu])]
      rfl

theorem addProperty_of_default {n : QName} (hn : n.qualifier ≠ "xmlns") (hx : n.localName = "xmlns")
    (value : String) (p : Partial) (left : Nat) :
    (p.addProperty n value left).toOption =
      (declare p.declared ⟨none, value⟩).map fun ds => { p with declared := ds } := by
  unfold Partial.addProperty declare
  rw [if_neg hn, if_pos hx]
  by_cases hu : value = xmlUri
  · rw [if_pos hu, if_pos (Or.inr (Or.inl (by simp [hu])))]
    rfl
  by_cases hw : value = xmlnsUri
  · rw [if_neg hu, if_pos hw, if_pos (Or.inl hw)]
    rfl
  · rw [if_neg hu, if_neg hw, if_neg (by simp [hu, hw]), if_neg hu]
    rfl

/-- A declaration in a tag declares its binding. -/
theorem addProperty_of_declared {n : QName} {value : String} {b : Binding}
    (h : declared? n value = some b) (p : Partial) (left : Nat) :
    (p.addProperty n value left).toOption =
      (declare p.declared b).map fun ds => { p with declared := ds } := by
  unfold declared? at h
  split at h
  · rename_i hn
    cases h
    exact addProperty_of_prefix hn value p left
  · rename_i hn
    split at h
    · rename_i hx
      cases h
      exact addProperty_of_default hn hx value p left
    · contradiction

/-- An ordinary attribute waits for the end of the tag. -/
theorem addProperty_of_not_declared {n : QName} {value : String} (h : declared? n value = none)
    (p : Partial) (left : Nat) :
    p.addProperty n value left = .ok { p with pending := p.pending ++ [⟨n, value, left⟩] } := by
  unfold declared? at h
  unfold Partial.addProperty
  split at h
  · contradiction
  · rename_i h1
    split at h
    · contradiction
    · rename_i h2
      rw [if_neg h1, if_neg h2]

/-! ## 2. The attributes of a tag -/

/-- An attribute as it is read when it was written. -/
def reread (a : Attribute) : Attribute :=
  { a with value := String.ofList (valueRead a.value.toList) }

/-- The value holds nothing that a document must not hold. -/
def hasAllowedValue (a : Attribute) : Bool := a.value.toList.all isAllowed

/-- The bindings declared once the attributes are read behind these, if nothing is wrong. -/
def declaredBy (ds : List Binding) (as : List Attribute) : Option (List Binding) :=
  if as.all hasAllowedValue then (bindingsOf (as.map reread)).foldlM declare ds else none

/-- An attribute that waits for the end of its tag, at no place in particular. -/
def waiting (a : Attribute) : PendingProperty := ⟨.ofText a.name, a.value, 0⟩

/-- The same attribute at no place in particular. -/
def PendingProperty.placeless (a : PendingProperty) : PendingProperty := { a with left := 0 }

theorem hasAllowedValue_iff {a : Attribute} :
    hasAllowedValue a = true ↔ ∀ c ∈ a.value.toList, isAllowed c = true :=
  List.all_eq_true

theorem declaredBy_nil (ds : List Binding) : declaredBy ds [] = some ds := rfl

theorem declaredBy_cons (ds : List Binding) (a : Attribute) (as : List Attribute) :
    declaredBy ds (a :: as) =
      if hasAllowedValue a then
        match binding? (reread a) with
        | some b => (declare ds b).bind (declaredBy · as)
        | none => declaredBy ds as
      else none := by
  unfold declaredBy bindingsOf
  rw [List.all_cons, List.map_cons]
  cases hasAllowedValue a with
  | false => rfl
  | true =>
    rw [Bool.true_and, if_pos rfl]
    cases hb : binding? (reread a) with
    | none => rw [List.filterMap_cons_none hb]
    | some b =>
      rw [List.filterMap_cons_some hb, List.foldlM_cons]
      dsimp only
      split
      · rfl
      · cases declare ds b <;> rfl

section

variable (entities : List Entity) (depth : Nat) (started : Bool)

theorem take_property (p : Partial) (n : QName) (v : List Char) (left valueLeft : Nat) :
    p.take (.ofDocument entities) started (.property ⟨n, v.flatMap escapeInValue, left, valueLeft⟩) =
      p.addProperty n (String.ofList (valueRead v)) left := by
  have ho : (Setting.ofDocument entities).outermost = true := rfl
  rw [Partial.take, ho, valueOf_escaped]
  rfl

/-- One attribute of a tag is read and taken in; if its value holds a forbidden character nothing is
read. -/
theorem readOn_attribute {a : Attribute} (hn : IsName a.name) (rest : List Char) (p : Partial) :
    ∃ left, readOn (.ofDocument entities) true depth (a.written ++ rest) started p =
      if hasAllowedValue a then
        (p.addProperty (.ofText a.name) (reread a).value left).toOption.bind
          (readOn (.ofDocument entities) true depth rest started)
      else none := by
  have hw : a.written ++ rest = ' ' :: ((QName.ofText a.name).text.toList ++
      '=' :: '"' :: (a.value.toList.flatMap escapeInValue ++ '"' :: rest)) := by
    rw [hn.2]
    simp [Attribute.written]
  rw [hw]
  by_cases hv : hasAllowedValue a = true
  · obtain ⟨left, valueLeft, ht⟩ :=
      tagToken_written hn.1 a.value.toList rest (hasAllowedValue_iff.mp hv)
    refine ⟨left, ?_⟩
    rw [readOn_of_tagToken (List.cons_ne_nil _ _) ht, if_pos hv, take_property]
    simp [Token.staysInTag, Token.depthAfter, Token.isStart, reread]
  · obtain ⟨f, hf⟩ :=
      fault_of_value hn.1 a.value.toList rest (mt hasAllowedValue_iff.mpr hv)
    refine ⟨0, ?_⟩
    rw [readOn_of_fault (List.cons_ne_nil _ _) (Or.inl rfl) (by rw [nextToken, if_pos rfl, hf]),
      if_neg hv]

/-- **The attributes of a tag**: the declarations are declared in order, and the ordinary attributes
wait for the end of the tag.  By induction on the attributes.  Those that wait remember their places
in the text, which no result depends on. -/
theorem readOn_attributes {as : List Attribute} (hn : ∀ a ∈ as, IsName a.name) (rest : List Char)
    (p : Partial) :
    ∃ ps : List PendingProperty,
      ps.map (·.placeless) = (ordinaryOf (as.map reread)).map waiting ∧
      readOn (.ofDocument entities) true depth (as.flatMap Attribute.written ++ rest) started p =
        (declaredBy p.declared as).bind fun ds =>
          readOn (.ofDocument entities) true depth rest started
            { p with declared := ds, pending := p.pending ++ ps } := by
  induction as generalizing p with
  | nil =>
    refine ⟨[], rfl, ?_⟩
    rw [declaredBy_nil, List.append_nil]
    rfl
  | cons a as ih =>
    rw [List.flatMap_cons, List.append_assoc, declaredBy_cons]
    obtain ⟨left, hread⟩ := readOn_attribute entities depth started
      (hn a List.mem_cons_self) (as.flatMap Attribute.written ++ rest) p
    rw [hread]
    -- where the reading fails any attributes will do, those without a place among them
    have fails : ∀ as' : List Attribute, (as'.map waiting).map (·.placeless) = as'.map waiting :=
      fun as' => by rw [List.map_map]; rfl
    by_cases hv : hasAllowedValue a = true
    · rw [if_pos hv, if_pos hv]
      cases hb : binding? (reread a) with
      | some b =>
        have ho : ordinaryOf ((a :: as).map reread) = ordinaryOf (as.map reread) := by
          simp [ordinaryOf, hb]
        have hb : declared? (.ofText a.name) (reread a).value = some b := hb
        rw [addProperty_of_declared hb, ho]
        dsimp only
        cases hd : declare p.declared b with
        | none => exact ⟨_, fails _, rfl⟩
        | some ds =>
          obtain ⟨ps, hps, hrest⟩ := ih (fun c hc => hn c (List.mem_cons_of_mem _ hc))
            { p with declared := ds }
          exact ⟨ps, hps, hrest⟩
      | none =>
        have ho : ordinaryOf ((a :: as).map reread) =
            reread a :: ordinaryOf (as.map reread) := by
          simp [ordinaryOf, hb]
        have hb : declared? (.ofText a.name) (reread a).value = none := hb
        rw [addProperty_of_not_declared hb, ho]
        obtain ⟨ps, hps, hrest⟩ := ih (fun c hc => hn c (List.mem_cons_of_mem _ hc))
          { p with pending := p.pending ++ [⟨.ofText a.name, (reread a).value, left⟩] }
        refine ⟨⟨.ofText a.name, (reread a).value, left⟩ :: ps, ?_, ?_⟩
        · rw [List.map_cons, List.map_cons, hps]
          rfl
        · refine hrest.trans ?_
          simp only [List.append_assoc, List.singleton_append]
    · rw [if_neg hv, if_neg hv]
      exact ⟨_, fails _, rfl⟩

end

/-! ## 3. The end of a tag -/

/-- What a tag comes to: the namespace of the element, the bindings in scope on it, and its
attributes. -/
structure TagRead where
  uri : Option String
  bindings : List Binding
  properties : List Property

/-- What is read of a written tag where the bindings are inherited, if nothing is wrong with it.  It
is a function of names, values and bindings; the text and the places in it are gone. -/
def tagRead (inherited : List Binding) (n : QName) (as : List Attribute) : Option TagRead :=
  if n.qualifier = "xmlns" then none
  else
    (declaredBy [] as).bind fun ds =>
      (resolve (inScope ds inherited) ((ordinaryOf (as.map reread)).map waiting) []).toOption.bind
        fun ps =>
          (elementUri (inScope ds inherited) n 0).toOption.map fun uri =>
            ⟨uri, inScope ds inherited, ps⟩

theorem propertyUri_placeless (bs : List Binding) (a : PendingProperty) :
    (propertyUri bs a.placeless).toOption = (propertyUri bs a).toOption := by
  unfold propertyUri PendingProperty.placeless
  split
  · rfl
  · split
    · rfl
    · dsimp only
      split <;> rfl

theorem resolve_placeless (bs : List Binding) (ps : List PendingProperty) (done : List Property) :
    (resolve bs (ps.map (·.placeless)) done).toOption = (resolve bs ps done).toOption := by
  induction ps generalizing done with
  | nil => rfl
  | cons a ps ih =>
    have hu := propertyUri_placeless bs a
    rw [List.map_cons]
    cases h1 : propertyUri bs a with
    | error f =>
      cases h2 : propertyUri bs a.placeless with
      | error g => rw [resolve, resolve, h1, h2]; rfl
      | ok u => rw [h1, h2] at hu; simp [Except.toOption] at hu
    | ok u =>
      cases h2 : propertyUri bs a.placeless with
      | error g => rw [h1, h2] at hu; simp [Except.toOption] at hu
      | ok w =>
        rw [h1, h2] at hu
        simp only [Except.toOption, Option.some.injEq] at hu
        subst hu
        have hstep : resolve bs (a.placeless :: ps.map (·.placeless)) done =
            if done.any (fun d => d.uri == w && d.localName == a.name.localName) then
              .error ⟨.attributeRepeated a.name.localName, 0⟩
            else resolve bs (ps.map (·.placeless)) (done ++ [⟨w, a.name.localName, a.value⟩]) := by
          rw [resolve, h2]
          rfl
        rw [hstep, resolve, h1]
        dsimp only
        split
        · rfl
        · exact ih _

theorem elementUri_left (bs : List Binding) (n : QName) (left : Nat) :
    (elementUri bs n left).toOption = (elementUri bs n 0).toOption := by
  unfold elementUri
  split
  · rfl
  · split <;> rfl

/-- What the tag comes to whose attributes are collected here, if nothing is wrong with it. -/
def Partial.tagEnd (p : Partial) : Option TagRead :=
  (resolve (inScope p.declared p.bindings) p.pending []).toOption.bind fun properties =>
    (elementUri (inScope p.declared p.bindings) p.tag 0).toOption.map fun uri =>
      ⟨uri, inScope p.declared p.bindings, properties⟩

/-- The tree with an element open at the end of its tag. -/
def Partial.opened (p : Partial) (t : TagRead) : Partial :=
  { p with
    nodes := []
    openElements := ⟨p.tag, t.uri, t.bindings, t.properties, p.nodes⟩ :: p.openElements
    declared := []
    pending := [] }

/-- The tree with an element that is complete at the end of its tag. -/
def Partial.emptied (p : Partial) (t : TagRead) : Partial :=
  { p with
    nodes := .element t.uri p.tag.localName t.bindings t.properties [] :: p.nodes
    declared := []
    pending := [] }

theorem Partial.bindings_opened (p : Partial) (t : TagRead) :
    (p.opened t).bindings = t.bindings := rfl

theorem toOption_openTag (p : Partial) : p.openTag.toOption = p.tagEnd.map p.opened := by
  rw [Partial.tagEnd, ← elementUri_left _ _ p.tagLeft, Partial.openTag, Partial.settle]
  cases resolve (inScope p.declared p.bindings) p.pending [] with
  | error f => rfl
  | ok properties =>
    simp only [bind, Except.bind, pure, Except.pure]
    cases elementUri (inScope p.declared p.bindings) p.tag p.tagLeft <;> rfl

theorem toOption_emptyTag (p : Partial) : p.emptyTag.toOption = p.tagEnd.map p.emptied := by
  rw [Partial.tagEnd, ← elementUri_left _ _ p.tagLeft, Partial.emptyTag, Partial.settle]
  cases resolve (inScope p.declared p.bindings) p.pending [] with
  | error f => rfl
  | ok properties =>
    simp only [bind, Except.bind, pure, Except.pure]
    cases elementUri (inScope p.declared p.bindings) p.tag p.tagLeft <;> rfl

/-- Places apart, the attributes collected are all that the end of a tag depends on. -/
theorem tagEnd_collected {as : List Attribute} {ps : List PendingProperty}
    (hps : ps.map (·.placeless) = (ordinaryOf (as.map reread)).map waiting) (p : Partial)
    (hn : p.tag.qualifier ≠ "xmlns") :
    ((declaredBy [] as).bind fun ds => ({ p with declared := ds, pending := ps } : Partial).tagEnd)
      = tagRead p.bindings p.tag as := by
  rw [tagRead, if_neg hn, ← hps]
  refine congrArg (declaredBy [] as).bind (funext fun ds => ?_)
  rw [resolve_placeless]
  rfl

section

variable (entities : List Entity) (depth : Nat) (started : Bool) {as : List Attribute}

/-- **The end of a tag**: what the tag comes to is put into the tree, open or complete as its mark
says. -/
theorem readOn_tagEnd (has : ∀ a ∈ as, IsName a.name) {mark rest : List Char} {mk : Token}
    (hne : mark ≠ []) (hmark : tagToken mark = .ok (mk, rest)) (hmk : mk.isStart = false)
    {finish : Partial → TagRead → Partial}
    (hfinish : ∀ q : Partial,
      (q.take (.ofDocument entities) started mk).toOption = q.tagEnd.map (finish q))
    (p : Partial) (hsame : ∀ ds ps, finish { p with declared := ds, pending := ps } = finish p)
    (hn : p.tag.qualifier ≠ "xmlns") (hd : p.declared = []) (hp : p.pending = []) :
    readOn (.ofDocument entities) true depth (as.flatMap Attribute.written ++ mark) started p
      = (tagRead p.bindings p.tag as).bind fun t =>
        readOn (.ofDocument entities) mk.staysInTag (mk.depthAfter depth) rest started
          (finish p t) := by
  obtain ⟨ps, hps, hread⟩ := readOn_attributes entities depth started has mark p
  rw [hread, hd, hp, ← tagEnd_collected hps p hn, Option.bind_assoc]
  refine congrArg (declaredBy [] as).bind (funext fun ds => ?_)
  rw [readOn_of_tagToken hne hmark, hfinish, List.nil_append, hsame, Option.bind_map, hmk,
    Bool.or_false]
  rfl

/-- **A start tag** opens an element as `tagRead` says. -/
theorem readOn_opened (has : ∀ a ∈ as, IsName a.name) (rest : List Char) (p : Partial)
    (hn : p.tag.qualifier ≠ "xmlns") (hd : p.declared = []) (hp : p.pending = []) :
    readOn (.ofDocument entities) true depth (as.flatMap Attribute.written ++ '>' :: rest) started p
      = (tagRead p.bindings p.tag as).bind fun t =>
        readOn (.ofDocument entities) false (depth + 1) rest started (p.opened t) := by
  have hmark : tagToken ('>' :: rest) = .ok (.opened, rest) := rfl
  exact readOn_tagEnd entities depth started has (List.cons_ne_nil _ _) hmark rfl toOption_openTag p
    (fun _ _ => rfl) hn hd hp

/-- **A tag that is both** gives a complete element as `tagRead` says. -/
theorem readOn_emptied (has : ∀ a ∈ as, IsName a.name) (rest : List Char) (p : Partial)
    (hn : p.tag.qualifier ≠ "xmlns") (hd : p.declared = []) (hp : p.pending = []) :
    readOn (.ofDocument entities) true depth
        (as.flatMap Attribute.written ++ '/' :: '>' :: rest) started p
      = (tagRead p.bindings p.tag as).bind fun t =>
        readOn (.ofDocument entities) false depth rest started (p.emptied t) := by
  have hmark : tagToken ('/' :: '>' :: rest) = .ok (.emptied, rest) := rfl
  exact readOn_tagEnd entities depth started has (List.cons_ne_nil _ _) hmark rfl toOption_emptyTag p
    (fun _ _ => rfl) hn hd hp

end

end LivingDoc.Xml
