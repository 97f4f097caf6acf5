import LivingDoc.Proofs.Markup.Rereading
import LivingDoc.Proofs.Markup.Stability

/-!
# The names that are read

Every name in a document was read as a name, in the document itself or in an entity, and prefixes
are names as well.  So the names that an element is given are names that can be written.

* `Xml.Partial.WellNamed`: what holds of a tree under construction, and
  `Xml.wellNamed_takeAll`: no token takes it away.
* `Xml.writable_of_parse`: the names in what is read can be written.
-/

namespace LivingDoc.Xml

/-! ## 1. The invariant -/

/-- The prefixes of the bindings are names without a colon. -/
def WellPrefixed (bs : List Binding) : Prop := ∀ b ∈ bs, ∀ x, b.qualifier = some x → IsPlain x

/-- The local names in a node and the prefixes bound in it are names without a colon. -/
inductive Item.WellNamed : Item → Prop
  | text (s : String) : WellNamed (.text s)
  | element {uri : Option String} {l : String} {bs : List Binding} {ps : List Property}
      {children : List Item} (isPlain : IsPlain l) (prefixes : WellPrefixed bs)
      (properties : ∀ d ∈ ps, IsPlain d.localName)
      (children_ : ∀ i ∈ children, i.WellNamed) :
      WellNamed (.element uri l bs ps children)

/-- The names in an open element and in what was read before it, as in `Item.WellNamed`. -/
structure OpenElement.WellNamed (e : OpenElement) : Prop where
  isPlain : IsPlain e.name.localName
  prefixes : WellPrefixed e.bindings
  properties : ∀ d ∈ e.properties, IsPlain d.localName
  before : ∀ i ∈ e.before, i.WellNamed

/-- What holds of a tree under construction: the names in what was read, in the open elements and in
the tag that is being read are names without a colon. -/
structure Partial.WellNamed (p : Partial) : Prop where
  nodes : ∀ i ∈ p.nodes, i.WellNamed
  openElements : ∀ e ∈ p.openElements, e.WellNamed
  tag : IsPlain p.tag.localName
  declared : WellPrefixed p.declared
  pending : ∀ a ∈ p.pending, IsPlain a.name.localName

/-- The name in the token is valid. -/
def Token.WellNamed : Token → Prop
  | .start n _ => n.Valid
  | .property a => a.name.Valid
  | _ => True

theorem WellPrefixed.inScope {own inherited : List Binding} (ho : WellPrefixed own)
    (hi : WellPrefixed inherited) : WellPrefixed (inScope own inherited) := by
  obtain ⟨more, h, hm⟩ := inScope_eq_append own inherited
  intro b hb
  rw [h] at hb
  rcases List.mem_append.mp hb with hb | hb
  · exact ho b hb
  · exact hi b (hm b hb)

theorem mem_of_declare {ds es : List Binding} {b c : Binding} (h : declare ds b = some es)
    (hc : c ∈ es) : c ∈ ds ∨ c = b := by
  unfold declare at h
  split at h
  · contradiction
  · split at h
    · cases h
      exact Or.inl hc
    · cases h
      rcases List.mem_append.mp hc with hc | hc
      · exact Or.inl hc
      · exact Or.inr (List.mem_singleton.mp hc)

theorem qualifier_of_declared? {n : QName} {value : String} {b : Binding}
    (h : declared? n value = some b) {x : String} (hx : b.qualifier = some x) : x = n.localName := by
  unfold declared? at h
  split at h
  · cases h
    exact (Option.some.inj hx).symm
  · split at h
    · cases h
      contradiction
    · contradiction

/-! ## 2. Tokens -/

theorem wellNamed_of_tagToken {cs r : List Char} {t : Token} (h : tagToken cs = .ok (t, r)) :
    t.WellNamed := by
  unfold tagToken at h
  split at h
  · contradiction
  · obtain ⟨s, -, h⟩ := bind_eq_ok.mp h
    cases h
    trivial
  · cases h
    trivial
  · split at h
    · obtain ⟨⟨a, s⟩, ha, h⟩ := bind_eq_ok.mp h
      cases h
      simp only [tagAttribute, bind_eq_ok] at ha
      obtain ⟨⟨n, r1⟩, hn, r2, -, ⟨q, r3⟩, -, ⟨v, s'⟩, -, s2, -, ha⟩ := ha
      cases ha
      exact valid_of_qname hn
    · contradiction

theorem wellNamed_of_startToken {cs r : List Char} {t : Token} (h : startToken cs = .ok (t, r)) :
    t.WellNamed := by
  obtain ⟨⟨n, s⟩, hn, h⟩ := bind_eq_ok.mp h
  cases h
  exact valid_of_qname hn

theorem wellNamed_of_contentToken {cs r : List Char} {t : Token}
    (h : contentToken cs = .ok (t, r)) : t.WellNamed := by
  unfold contentToken at h
  split at h
  · obtain ⟨⟨n, s⟩, -, h⟩ := bind_eq_ok.mp h
    obtain ⟨s', -, h⟩ := bind_eq_ok.mp h
    cases h
    trivial
  · split at h
    · obtain ⟨s, -, h⟩ := bind_eq_ok.mp h
      cases h
      trivial
    · split at h
      · obtain ⟨⟨run, s⟩, -, h⟩ := bind_eq_ok.mp h
        obtain ⟨s', -, h⟩ := bind_eq_ok.mp h
        cases h
        trivial
      · contradiction
  · obtain ⟨s, -, h⟩ := bind_eq_ok.mp h
    cases h
    trivial
  · contradiction
  · exact wellNamed_of_startToken h
  · obtain ⟨⟨run, s⟩, -, h⟩ := bind_eq_ok.mp h
    dsimp only at h
    split at h
    · contradiction
    · cases h
      trivial

theorem wellNamed_of_nextToken {inTag : Bool} {cs r : List Char} {t : Token}
    (h : nextToken inTag cs = .ok (t, r)) : t.WellNamed := by
  unfold nextToken at h
  split at h
  · exact wellNamed_of_tagToken h
  · exact wellNamed_of_contentToken h

/-- The tokens of a text are well named.  By induction on the tokens, each of which is read as one
of a tag or of content. -/
theorem wellNamed_tokens (inTag : Bool) (depth : Nat) (cs : List Char) :
    ∀ t ∈ (tokens inTag depth cs).1, t.WellNamed := by
  induction inTag, depth, cs using tokens.induct with
  | case1 inTag depth =>
    rw [tokens, dif_pos rfl]
    simp
  | case2 inTag depth cs hne hout =>
    rw [tokens, dif_neg hne, if_pos hout]
    simp
  | case3 inTag depth cs hne hout f h =>
    rw [tokens, dif_neg hne, if_neg hout]
    split <;> simp_all
  | case4 inTag depth cs hne hout t rest h hlt ih =>
    have hopen : inTag = true ∨ depth ≠ 0 := by
      cases inTag with
      | true => exact Or.inl rfl
      | false => exact Or.inr (by simpa using hout)
    rw [tokens_of_nextToken hne hopen h]
    intro u hu
    rcases List.mem_cons.mp hu with rfl | hu
    · exact wellNamed_of_nextToken h
    · exact ih u hu

/-! ## 3. Steps of the reading -/

namespace Partial.WellNamed

variable {p q : Partial}

theorem bindings (h : p.WellNamed) : WellPrefixed p.bindings := by
  unfold Partial.bindings
  split
  · exact fun b hb => absurd hb (by simp)
  · rename_i e outer heq
    exact (h.openElements e (by rw [heq]; exact List.mem_cons_self)).prefixes

theorem addText (h : p.WellNamed) (s : String) : (p.addText s).WellNamed := by
  unfold Partial.addText
  split
  · rename_i t rest _ hn _
    refine ⟨fun i hi => ?_, h.openElements, h.tag, h.declared, h.pending⟩
    rcases List.mem_cons.mp hi with rfl | hi
    · exact .text _
    · exact h.nodes i (by rw [hn]; exact List.mem_cons_of_mem _ hi)
  · refine ⟨fun i hi => ?_, h.openElements, h.tag, h.declared, h.pending⟩
    rcases List.mem_cons.mp hi with rfl | hi
    · exact .text _
    · exact h.nodes i hi

theorem flush (h : p.WellNamed) (buffer : List Char) : (p.flush buffer).WellNamed := by
  unfold Partial.flush
  split
  · exact h
  · exact h.addText _

theorem addProperty (h : p.WellNamed) {n : QName} (hn : n.Valid) {value : String} {left : Nat}
    (hq : p.addProperty n value left = .ok q) : q.WellNamed := by
  cases hd : declared? n value with
  | none =>
    rw [addProperty_of_not_declared hd, Except.ok.injEq] at hq
    subst hq
    refine ⟨h.nodes, h.openElements, h.tag, h.declared, fun a ha => ?_⟩
    rcases List.mem_append.mp ha with ha | ha
    · exact h.pending a ha
    · rw [List.mem_singleton.mp ha]
      exact hn.2
  | some b =>
    have hopt := addProperty_of_declared hd p left
    rw [hq] at hopt
    obtain ⟨ds, hds, rfl⟩ := Option.map_eq_some_iff.mp hopt.symm
    refine ⟨h.nodes, h.openElements, h.tag, fun c hc x hx => ?_, h.pending⟩
    rcases mem_of_declare hds hc with hc | rfl
    · exact h.declared c hc x hx
    · rw [qualifier_of_declared? hd hx]
      exact hn.2

theorem resolve (h : p.WellNamed) {bs : List Binding} {ps : List Property}
    (hr : Xml.resolve bs p.pending [] = .ok ps) : ∀ d ∈ ps, IsPlain d.localName := by
  obtain ⟨-, -, rfl⟩ := (resolve_eq_ok_iff (by simp)).mp hr
  rw [List.nil_append]
  intro d hd
  obtain ⟨a, ha, rfl⟩ := List.mem_map.mp hd
  exact h.pending a ha

theorem inScope (h : p.WellNamed) : WellPrefixed (inScope p.declared p.bindings) :=
  h.declared.inScope h.bindings

theorem tagEnd (h : p.WellNamed) {t : TagRead} (ht : p.tagEnd = some t) :
    WellPrefixed t.bindings ∧ ∀ d ∈ t.properties, IsPlain d.localName := by
  obtain ⟨ps, hps, ht⟩ := Option.bind_eq_some_iff.mp ht
  obtain ⟨uri, -, rfl⟩ := Option.map_eq_some_iff.mp ht
  exact ⟨h.inScope, h.resolve (toOption_eq_some_iff.mp hps)⟩

theorem openTag (h : p.WellNamed) (hq : p.openTag = .ok q) : q.WellNamed := by
  have hopt := toOption_openTag p
  rw [hq] at hopt
  obtain ⟨t, ht, rfl⟩ := Option.map_eq_some_iff.mp hopt.symm
  obtain ⟨hb, hps⟩ := h.tagEnd ht
  refine ⟨by simp [opened], fun e he => ?_, h.tag, fun b hb => absurd hb (by simp [opened]),
    by simp [opened]⟩
  rcases List.mem_cons.mp he with rfl | he
  · exact ⟨h.tag, hb, hps, h.nodes⟩
  · exact h.openElements e he

theorem emptyTag (h : p.WellNamed) (hq : p.emptyTag = .ok q) : q.WellNamed := by
  have hopt := toOption_emptyTag p
  rw [hq] at hopt
  obtain ⟨t, ht, rfl⟩ := Option.map_eq_some_iff.mp hopt.symm
  obtain ⟨hb, hps⟩ := h.tagEnd ht
  refine ⟨fun i hi => ?_, h.openElements, h.tag, fun b hb => absurd hb (by simp [emptied]),
    by simp [emptied]⟩
  rcases List.mem_cons.mp hi with rfl | hi
  · exact .element h.tag hb hps (by simp)
  · exact h.nodes i hi

theorem closeTag (h : p.WellNamed) {n : QName} {left : Nat} (hq : p.closeTag n left = .ok q) :
    q.WellNamed := by
  simp only [Partial.closeTag, Partial.settle, bind_eq_ok] at hq
  obtain ⟨⟨bs, ps, p'⟩, ⟨_, -, hp'⟩, hq⟩ := hq
  cases hp'
  dsimp only at hq
  split at hq
  · contradiction
  · rename_i e outer ho
    split at hq
    · rename_i hn
      cases hq
      have he := h.openElements e (by rw [ho]; exact List.mem_cons_self)
      refine ⟨fun i hi => ?_, fun e' he' => h.openElements e' (by
        rw [ho]; exact List.mem_cons_of_mem _ he'), h.tag, fun b hb => absurd hb (by simp), by simp⟩
      rcases List.mem_cons.mp hi with rfl | hi
      · rw [hn]
        exact .element he.isPlain he.prefixes he.properties fun i hi =>
          h.nodes i (List.mem_reverse.mp hi)
      · exact he.before i hi
    · contradiction

end Partial.WellNamed

/-- What an entity is read as in content leaves a tree well named.  It is a hypothesis on the
setting, since entities within entities are read by the reading that is spoken of. -/
def KeepsNames (use : UseInContent) : Prop :=
  ∀ e left p q, use e left p = .ok q → p.WellNamed → q.WellNamed

theorem wellNamed_readText {entities : List Entity} {use : UseInContent} (hu : KeepsNames use)
    {outermost : Bool} {behind : Nat} {ps : List Piece} {buffer : List Char} {kept : Bool}
    {p q : Partial} (h : readText entities use outermost behind ps buffer kept p = .ok q)
    (hp : p.WellNamed) : q.WellNamed := by
  induction ps generalizing buffer kept p with
  | nil =>
    rw [readText, Except.ok.injEq] at h
    subst h
    exact hp.flush buffer
  | cons piece ps ih =>
    cases piece with
    | literal c =>
      rw [readText] at h
      exact ih h hp
    | character c left =>
      rw [readText] at h
      split at h
      · exact ih h hp
      · exact ih h hp
    | entity name left afterwards =>
      rw [readText] at h
      split at h
      · contradiction
      · rename_i e he
        split at h
        · contradiction
        · rename_i r hr
          exact ih h (hu e _ _ _ hr (hp.flush buffer))
    | malformed left =>
      rw [readText] at h
      contradiction

theorem wellNamed_take {s : Setting} (hs : KeepsNames s.inContent) {t : Token} (ht : t.WellNamed)
    {started : Bool} {p q : Partial} (h : p.take s started t = .ok q) (hp : p.WellNamed) :
    q.WellNamed := by
  cases t with
  | start n left =>
    rw [Partial.take] at h
    split at h
    · contradiction
    · cases h
      exact ⟨hp.nodes, hp.openElements, ht.2, hp.declared, hp.pending⟩
  | property a =>
    rw [Partial.take] at h
    obtain ⟨⟨v, m⟩, -, h⟩ := bind_eq_ok.mp h
    have hm : ({ p with references := m } : Partial).WellNamed :=
      ⟨hp.nodes, hp.openElements, hp.tag, hp.declared, hp.pending⟩
    exact hm.addProperty ht h
  | opened => exact hp.openTag h
  | emptied => exact hp.emptyTag h
  | closed n left =>
    rw [Partial.take] at h
    split at h
    · exact hp.closeTag h
    · contradiction
  | text run left => exact wellNamed_readText hs h hp
  | verbatim run =>
    rw [Partial.take] at h
    cases h
    exact hp.addText _
  | aside =>
    rw [Partial.take] at h
    cases h
    exact ⟨hp.nodes, hp.openElements, hp.tag, hp.declared, hp.pending⟩

/-- **No row of tokens takes the names away.**  By induction on the row; a fault on the way leaves
no tree. -/
theorem wellNamed_takeAll {s : Setting} (hs : KeepsNames s.inContent) {ts : List Token}
    (ht : ∀ t ∈ ts, t.WellNamed) {started : Bool} {p q : Partial}
    (h : Partial.takeAll s ts started p = .ok q) (hp : p.WellNamed) : q.WellNamed := by
  induction ts generalizing started p with
  | nil =>
    rw [Partial.takeAll] at h
    cases h
    exact hp
  | cons t ts ih =>
    rw [Partial.takeAll] at h
    split at h
    · contradiction
    · rename_i r hr
      exact ih (fun u hu => ht u (List.mem_cons_of_mem _ hu)) h
        (wellNamed_take hs (ht t List.mem_cons_self) hr hp)

/-- No entity takes the names away, however deep others are in it.  By induction on the levels: the
text of an entity is read as a row of tokens, with one level fewer for entities inside. -/
theorem keepsNames_useInContent (entities : List Entity) (levels : Nat) (outermost : Bool) :
    KeepsNames (useInContent entities levels outermost) := by
  induction levels generalizing outermost with
  | zero =>
    intro e left p q h hp
    rw [useInContent] at h
    contradiction
  | succ levels ih =>
    intro e left p q h hp
    rw [useInContent] at h
    obtain ⟨n, -, h⟩ := bind_eq_ok.mp h
    dsimp only at h
    obtain ⟨r, hr, h⟩ := bind_eq_ok.mp h
    have hn : ({ p with references := n } : Partial).WellNamed :=
      ⟨hp.nodes, hp.openElements, hp.tag, hp.declared, hp.pending⟩
    have hr := wellNamed_takeAll (ih false) (wellNamed_tokens false 1 e.value) hr hn
    split at h
    · contradiction
    · cases h
      exact ⟨hr.nodes, hr.openElements, hr.tag, hr.declared, hr.pending⟩

/-! ## 4. Documents -/

/-- The tokens of an element start with its name, which is there from then on. -/
theorem wellNamed_elementTokens {entities : List Entity} {cs : List Char} {p : Partial}
    (h : Partial.takeAll (.ofDocument entities) (elementTokens cs).1 false .start = .ok p) :
    ∀ i ∈ p.nodes, i.WellNamed := by
  unfold elementTokens at h
  cases hs : startToken cs with
  | error f =>
    rw [hs] at h
    cases h
    exact fun i hi => absurd hi (by simp [Partial.start])
  | ok tr =>
    rw [hs] at h
    obtain ⟨⟨n, r⟩, hn, htr⟩ := bind_eq_ok.mp hs
    cases htr
    dsimp only at h
    rw [Partial.takeAll] at h
    split at h
    · contradiction
    · rename_i q hq
      rw [Partial.take] at hq
      split at hq
      · contradiction
      · cases hq
        have hstart : ({ Partial.start with
            tag := n
            tagLeft := cs.length + (Setting.ofDocument entities).behind
            apart := true } : Partial).WellNamed :=
          ⟨by simp [Partial.start], by simp [Partial.start], (valid_of_qname hn).2,
            fun b hb => absurd hb (by simp [Partial.start]), by simp [Partial.start]⟩
        exact (wellNamed_takeAll (keepsNames_useInContent entities entityLevels true)
          (wellNamed_tokens _ _ _) h hstart).nodes

theorem wellNamed_items {cs : List Char} {is : List Item} (h : items cs = .ok is) :
    ∀ i ∈ is, i.WellNamed := by
  unfold items at h
  obtain ⟨⟨entities, r⟩, -, h⟩ := bind_eq_ok.mp h
  obtain ⟨p, hp, h⟩ := bind_eq_ok.mp h
  obtain ⟨rest, -, h⟩ := bind_eq_ok.mp h
  obtain ⟨rest', -, h⟩ := bind_eq_ok.mp h
  have hnodes : ∀ i ∈ p.nodes, i.WellNamed := by
    split at hp
    · exact wellNamed_elementTokens hp
    · cases hp
      exact fun i hi => absurd hi (by simp [Partial.start])
  split at h
  · contradiction
  · split at h
    · contradiction
    · cases h
      exact fun i hi => hnodes i (List.mem_reverse.mp hi)

/-- A qualified name made from a well-named place can be written. -/
theorem isName_qualify {bs : List Binding} (hb : WellPrefixed bs) {l : String} (hl : IsPlain l)
    (uri : Option String) (mayDefault : Bool) : IsName (qualify bs uri l mayDefault) := by
  have hlocal : IsName l := by
    have ht : (⟨"", l⟩ : QName).text = l := rfl
    rw [← ht]
    exact isName_text ⟨Or.inl rfl, hl⟩
  have hprefixed {x : String} (hx : IsPlain x) : IsName (x ++ ":" ++ l) := by
    have ht : (⟨x, l⟩ : QName).text = x ++ ":" ++ l := text_of_qualifier hx.ne_empty
    rw [← ht]
    exact isName_text ⟨Or.inr hx, hl⟩
  unfold qualify
  split
  · exact hlocal
  · split
    · have ht : "xml:" ++ l = "xml" ++ ":" ++ l := rfl
      rw [ht]
      exact hprefixed isPlain_xml
    · dsimp only
      split
      · exact hlocal
      · split
        · rename_i x hx
          obtain ⟨b, hbs, hq⟩ := List.exists_of_findSome?_eq_some hx
          exact hprefixed (hb b (List.mem_of_mem_filter hbs) x hq)
        · exact hlocal

theorem isName_declaration {bs : List Binding} (hb : WellPrefixed bs) {b : Binding}
    (h : b ∈ bs) : IsName b.declaration.name := by
  obtain ⟨x, u⟩ := b
  cases x with
  | none => exact isName_text (q := ⟨"", "xmlns"⟩) ⟨Or.inl rfl, isPlain_xmlns⟩
  | some x =>
    have ht : (⟨"xmlns", x⟩ : QName).text = "xmlns:" ++ x :=
      text_of_qualifier isPlain_xmlns.ne_empty
    have hn : IsName (⟨"xmlns", x⟩ : QName).text :=
      isName_text ⟨Or.inr isPlain_xmlns, hb _ h x rfl⟩
    rwa [ht] at hn

theorem writableAll_of_forall {is : List Item} {inherited : List Binding}
    (h : ∀ i ∈ is, Writable (i.named inherited)) : WritableAll (Item.namedAll inherited is) := by
  induction is with
  | nil => simp [Item.namedAll, WritableAll]
  | cons i is ih =>
    rw [Item.namedAll, WritableAll]
    exact ⟨h i List.mem_cons_self, ih fun j hj => h j (List.mem_cons_of_mem _ hj)⟩

/-- **A well-named node gets names that can be written.**  By induction on the node, whatever
bindings it inherits: its names are made of local names, bound prefixes and `xml`. -/
theorem writable_named {i : Item} (h : i.WellNamed) (inherited : List Binding) :
    Writable (i.named inherited) := by
  induction h generalizing inherited with
  | text s =>
    rw [Item.named]
    simp [Writable]
  | @element uri l bs ps children hl hb hps hchildren ih =>
    rw [Item.named, Writable]
    refine ⟨isName_qualify hb hl uri true, fun a ha => ?_,
      writableAll_of_forall fun i hi => ih i hi bs⟩
    rw [attributesOf] at ha
    rcases List.mem_append.mp ha with ha | ha
    · obtain ⟨b, hbn, rfl⟩ := List.mem_map.mp ha
      exact isName_declaration hb (List.mem_of_mem_filter hbn)
    · obtain ⟨d, hd, rfl⟩ := List.mem_map.mp ha
      exact isName_qualify hb (hps d hd) d.uri false

theorem writable_of_mem {ns : List Node} (h : WritableAll ns) {n : Node} (hn : n ∈ ns) :
    Writable n := by
  induction ns with
  | nil => exact absurd hn (by simp)
  | cons m ns ih =>
    rw [WritableAll] at h
    rcases List.mem_cons.mp hn with rfl | hn
    · exact h.1
    · exact ih h.2 hn

/-- **The names in what is read can be written.** -/
theorem writable_of_parse {text : String} {e : Element} (h : Element.parse text = .ok e) :
    Writable e.node := by
  unfold Element.parse at h
  split at h
  · rename_i e' he
    cases h
    cases his : items text.toList with
    | error f => rw [his] at he; contradiction
    | ok is =>
      rw [his] at he
      have he : rootOf is = .ok e := he
      unfold rootOf at he
      split at he
      · rename_i e' hfound
        cases he
        obtain ⟨n, hn, hne⟩ := List.exists_of_findSome?_eq_some hfound
        have hnode : n = e.node := by
          cases n with
          | text s => contradiction
          | element n as cs =>
            cases hne
            rfl
        rw [← hnode]
        exact writable_of_mem (writableAll_of_forall fun i hi =>
          writable_named (wellNamed_items his i hi) []) hn
      · contradiction
  · contradiction

end LivingDoc.Xml
