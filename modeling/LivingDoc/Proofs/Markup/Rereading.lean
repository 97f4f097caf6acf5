import LivingDoc.Proofs.Markup.Tags

/-!
# What is read of written markup

An element that is written and read again becomes a tree with its namespaces resolved.  The tree is
a function of the element (`Xml.rereadAll`): texts next to each other are read as one, a text
without characters is not read at all, and every tag is read as `Xml.tagRead` says.

* `Xml.readOn_content`: the content of an element is read as that function says.
* `Xml.parse_markup_eq_ok_iff`: so is a whole document.
-/

namespace LivingDoc.Xml

/-! ## 1. The function -/

mutual
/-- All names in the node are names that can be written. -/
def Writable : Node → Prop
  | .text _ => True
  | .element n as cs => IsName n ∧ (∀ a ∈ as, IsName a.name) ∧ WritableAll cs
/-- All names in the nodes are names that can be written. -/
def WritableAll : List Node → Prop
  | [] => True
  | n :: ns => Writable n ∧ WritableAll ns
end

/-- What is read of a text in front of a tag. -/
def textItems (s : List Char) : Option (List Item) :=
  if s.all isAllowed then
    some (if s.isEmpty then [] else [.text (String.ofList (textRead false s))])
  else none

theorem textItems_nil : textItems [] = some [] := rfl

/-- What is read of written nodes behind these characters where the bindings are inherited.  The
characters are those of texts that were passed on the way: with no tag in between they are one text
to the reader. -/
def rereadAll : (inherited : List Binding) → (before : List Char) → List Node → Option (List Item)
  | _, before, [] => textItems before
  | inherited, before, .text s :: ns => rereadAll inherited (before ++ s.toList) ns
  | inherited, before, .element n as cs :: ns =>
    (textItems before).bind fun texts =>
      (tagRead inherited (.ofText n) as).bind fun t =>
        (rereadAll t.bindings [] cs).bind fun children =>
          (rereadAll inherited [] ns).map fun more =>
            texts ++ .element t.uri (QName.ofText n).localName t.bindings t.properties children
              :: more

/-! ## 2. Content -/

namespace Partial

/-- The tree with these items behind the nodes of the innermost level, between two tags.  A
statement about the reader says what grows, and leaves the last tag and its place open. -/
def grown (p : Partial) (items : List Item) (tag : QName) (tagLeft : Nat) (apart : Bool) :
    Partial :=
  { p with
    nodes := items.reverse ++ p.nodes
    tag := tag
    tagLeft := tagLeft
    declared := []
    pending := []
    apart := apart }

theorem bindings_grown (p : Partial) (items : List Item) (tag : QName) (tagLeft : Nat)
    (apart : Bool) : (p.grown items tag tagLeft apart).bindings = p.bindings := rfl

theorem grown_grown (p : Partial) (items more : List Item) (tag tag' : QName)
    (tagLeft tagLeft' : Nat) (apart apart' : Bool) :
    (p.grown items tag tagLeft apart).grown more tag' tagLeft' apart' =
      p.grown (items ++ more) tag' tagLeft' apart' := by
  simp [grown]

/-- The next text starts a new node. -/
def StartsText (p : Partial) : Prop := p.apart = true ∨ ∀ s, p.nodes.head? ≠ some (.text s)

theorem addText_of_startsText {p : Partial} (h : p.StartsText) (s : String) :
    p.addText s = { p with nodes := .text s :: p.nodes, apart := false } := by
  unfold addText
  split
  · rename_i hn ha
    rcases h with h | h
    · exact absurd (ha.symm.trans h) Bool.false_ne_true
    · exact absurd (by rw [hn]; rfl) (h _)
  · rfl

end Partial

section

variable (entities : List Entity) (depth : Nat)

/-- A text in front of a tag becomes the nodes that `textItems` says, on a level where no text is
last. -/
theorem readOn_text (s rest : List Char) (p : Partial) (hd : p.declared = []) (hp : p.pending = [])
    (hs : p.StartsText) :
    ∃ apart, readOn (.ofDocument entities) false (depth + 1)
        (s.flatMap escapeInText ++ '<' :: rest) true p
      = (textItems s).bind fun items =>
        readOn (.ofDocument entities) false (depth + 1) ('<' :: rest) true
          (p.grown items p.tag p.tagLeft apart) := by
  have hgrown : p.grown [] p.tag p.tagLeft p.apart = p := by
    rw [Partial.grown, ← hd, ← hp]
    rfl
  have hout : (Setting.ofDocument entities).outermost = true := rfl
  by_cases he : s = []
  · subst he
    refine ⟨p.apart, ?_⟩
    rw [textItems_nil, Option.bind_some, hgrown]
    rfl
  · refine ⟨false, ?_⟩
    unfold textItems
    by_cases hall : s.all isAllowed = true
    · obtain ⟨left, ht⟩ := contentToken_text he rest (List.all_eq_true.mp hall)
      rw [readOn_of_contentToken (by simp) ht, if_pos hall, Option.bind_some, if_neg (by simpa),
        Partial.take, hout, readText_escaped, Partial.flush,
        if_neg (by simpa using textRead_ne_nil he false), List.reverse_reverse,
        Partial.addText_of_startsText hs]
      simp only [Partial.grown, ← hd, ← hp]
      rfl
    · obtain ⟨f, hf⟩ := fault_of_text he rest (mt List.all_eq_true.mpr hall)
      rw [readOn_of_fault (by simp) (Or.inr (Nat.succ_ne_zero depth))
        (by rw [nextToken, if_neg Bool.false_ne_true, hf]), if_neg hall]
      rfl

/-- The name of a start tag in content. -/
theorem readOn_start {q : QName} (hq : q.Valid) {c : Char} (hc : isNameChar c = false)
    (rest : List Char) (p : Partial) :
    ∃ left, readOn (.ofDocument entities) false (depth + 1) ('<' :: (q.text.toList ++ c :: rest))
        true p
      = if q.qualifier = "xmlns" then none
        else readOn (.ofDocument entities) true (depth + 1) (c :: rest) true
          { p with tag := q, tagLeft := left, apart := true } := by
  obtain ⟨left, ht⟩ := contentToken_start hq rest hc
  refine ⟨left, ?_⟩
  rw [readOn_of_contentToken (List.cons_ne_nil _ _) ht, Partial.take]
  split
  · rfl
  · rfl

/-- An end tag closes the element whose name it repeats. -/
theorem readOn_closed {q : QName} (hq : q.Valid) (rest : List Char) (p : Partial)
    {uri : Option String} {bs : List Binding} {properties : List Property} {before : List Item}
    {outer : List OpenElement} (hp : p.pending = [])
    (ho : p.openElements = ⟨q, uri, bs, properties, before⟩ :: outer) :
    readOn (.ofDocument entities) false (depth + 1) ('<' :: '/' :: (q.text.toList ++ '>' :: rest))
        true p
      = readOn (.ofDocument entities) false depth rest true
        { p with
          nodes := .element uri q.localName bs properties p.nodes.reverse :: before
          openElements := outer
          declared := []
          pending := [] } := by
  obtain ⟨left, ht⟩ := contentToken_closed hq rest
  have hclose : p.closeTag q (left + (Setting.ofDocument entities).behind) = .ok
      { p with
        nodes := .element uri q.localName bs properties p.nodes.reverse :: before
        openElements := outer
        declared := []
        pending := [] } := by
    rw [Partial.closeTag, Partial.settle, hp]
    simp only [resolve, bind, Except.bind, pure, Except.pure, ho, if_true]
  rw [readOn_of_contentToken (List.cons_ne_nil _ _) ht, Partial.take, if_pos rfl, hclose]
  rfl

/-- The content of an element is read as `rereadAll` says: the statement of `readOn_content`, for
whatever text is in front of it and whatever tree it is read into. -/
def ReadsContent (ns : List Node) : Prop :=
  ∀ (depth : Nat) (before rest : List Char) (p : Partial), p.declared = [] → p.pending = [] →
    p.StartsText → ∃ tag tagLeft apart,
      readOn (.ofDocument entities) false (depth + 1)
          (before.flatMap escapeInText ++ (Node.writtenAll ns ++ '<' :: rest)) true p
        = (rereadAll p.bindings before ns).bind fun items =>
          readOn (.ofDocument entities) false (depth + 1) ('<' :: rest) true
            (p.grown items tag tagLeft apart)

/-- An element behind its name, whatever it is in, once its content is read as it should be. -/
theorem readOn_element {as : List Attribute} {cs : List Node} {q : QName} (hq : q.Valid)
    (hn : q.qualifier ≠ "xmlns") (has : ∀ a ∈ as, IsName a.name) (hcs : ReadsContent entities cs)
    (rest : List Char) (p : Partial) (ht : p.tag = q) (hd : p.declared = []) (hp : p.pending = []) :
    ∃ tag tagLeft apart,
      readOn (.ofDocument entities) true depth (as.flatMap Attribute.written ++
          '>' :: (Node.writtenAll cs ++ '<' :: '/' :: (q.text.toList ++ '>' :: rest))) true p
        = (tagRead p.bindings q as).bind fun t =>
          (rereadAll t.bindings [] cs).bind fun children =>
            readOn (.ofDocument entities) false depth rest true
              (p.grown [.element t.uri q.localName t.bindings t.properties children]
                tag tagLeft apart) := by
  subst ht
  rw [readOn_opened entities depth true has _ p hn hd hp]
  cases tagRead p.bindings p.tag as with
  | none => exact ⟨p.tag, 0, false, rfl⟩
  | some t =>
    obtain ⟨tag, tagLeft, apart, hread⟩ := hcs depth [] ('/' :: (p.tag.text.toList ++ '>' :: rest))
      (p.opened t) rfl rfl (Or.inr (by simp [Partial.opened]))
    refine ⟨tag, tagLeft, apart, ?_⟩
    rw [Option.bind_some, Option.bind_some]
    refine hread.trans ?_
    rw [Partial.bindings_opened]
    cases rereadAll t.bindings [] cs with
    | none => rfl
    | some children =>
      rw [Option.bind_some, Option.bind_some, readOn_closed entities depth hq _ _ rfl rfl]
      simp [Partial.grown, Partial.opened]

/-- What is written behind the attributes of an element. -/
def behindAttributes (n : String) (cs : List Node) (rest : List Char) : List Char :=
  if cs = [] then '/' :: '>' :: rest
  else '>' :: (Node.writtenAll cs ++ '<' :: '/' :: (n.toList ++ '>' :: rest))

theorem written_element (n : String) (as : List Attribute) (cs : List Node) (rest : List Char) :
    (Node.element n as cs).written ++ rest =
      '<' :: (n.toList ++ (as.flatMap Attribute.written ++ behindAttributes n cs rest)) := by
  cases cs with
  | nil => simp [Node.written, behindAttributes]
  | cons c cs => simp [Node.written, behindAttributes]

/-- What follows the name of a start tag does not go on with it. -/
theorem behindName_eq_cons (n : String) (as : List Attribute) (cs : List Node)
    (rest : List Char) :
    ∃ c more, as.flatMap Attribute.written ++ behindAttributes n cs rest = c :: more ∧
      isNameChar c = false := by
  cases as with
  | cons a as => exact ⟨' ', _, rfl, by decide⟩
  | nil =>
    unfold behindAttributes
    split
    · exact ⟨'/', _, rfl, by decide⟩
    · exact ⟨'>', _, rfl, by decide⟩

/-- An element behind its name, with content or without. -/
theorem readOn_tag {as : List Attribute} {cs : List Node} {n : String} (hn : IsName n)
    (hx : (QName.ofText n).qualifier ≠ "xmlns") (has : ∀ a ∈ as, IsName a.name)
    (hcs : ReadsContent entities cs) (rest : List Char) (p : Partial) (ht : p.tag = .ofText n)
    (hd : p.declared = []) (hp : p.pending = []) :
    ∃ tag tagLeft apart,
      readOn (.ofDocument entities) true depth
          (as.flatMap Attribute.written ++ behindAttributes n cs rest) true p
        = (tagRead p.bindings (.ofText n) as).bind fun t =>
          (rereadAll t.bindings [] cs).bind fun children =>
            readOn (.ofDocument entities) false depth rest true
              (p.grown [.element t.uri (QName.ofText n).localName t.bindings t.properties children]
                tag tagLeft apart) := by
  unfold behindAttributes
  by_cases he : cs = []
  · subst he
    rw [if_pos rfl, readOn_emptied entities depth true has rest p (ht ▸ hx) hd hp, ht]
    refine ⟨p.tag, p.tagLeft, p.apart, ?_⟩
    cases tagRead p.bindings (.ofText n) as with
    | none => rfl
    | some t =>
      rw [Option.bind_some, Option.bind_some, rereadAll, textItems_nil, Option.bind_some,
        Partial.grown, Partial.emptied, ht]
      rfl
  · rw [if_neg he]
    have helem := readOn_element entities depth hn.1 hx has hcs rest p ht hd hp
    rw [hn.2] at helem
    exact helem

/-- An element in content. -/
theorem readOn_written {as : List Attribute} {cs : List Node} {n : String} (hn : IsName n)
    (has : ∀ a ∈ as, IsName a.name) (hcs : ReadsContent entities cs) (rest : List Char)
    (p : Partial) (hd : p.declared = []) (hp : p.pending = []) :
    ∃ tag tagLeft apart,
      readOn (.ofDocument entities) false (depth + 1) ((Node.element n as cs).written ++ rest) true p
        = (tagRead p.bindings (.ofText n) as).bind fun t =>
          (rereadAll t.bindings [] cs).bind fun children =>
            readOn (.ofDocument entities) false (depth + 1) rest true
              (p.grown [.element t.uri (QName.ofText n).localName t.bindings t.properties children]
                tag tagLeft apart) := by
  obtain ⟨c, more, htail, hc⟩ := behindName_eq_cons n as cs rest
  obtain ⟨left, hstart⟩ := readOn_start entities depth hn.1 hc more p
  rw [hn.2, ← htail, ← written_element] at hstart
  rw [hstart]
  by_cases hx : (QName.ofText n).qualifier = "xmlns"
  · refine ⟨p.tag, 0, false, ?_⟩
    rw [if_pos hx, tagRead, if_pos hx]
    rfl
  · rw [if_neg hx]
    exact readOn_tag entities (depth + 1) hn hx has hcs rest
      { p with tag := .ofText n, tagLeft := left, apart := true } rfl hd hp

/-- **The content of an element is read as `rereadAll` says.**  By induction on the nodes: a text
goes to those in front of the rest, and an element is read between the text in front of it and the
rest, for both of which the statement is known. -/
theorem readOn_content (ns : List Node) (hns : WritableAll ns) : ReadsContent entities ns := by
  induction ns using Node.induction with
  | nil =>
    intro depth before rest p hd hp hs
    obtain ⟨apart, hread⟩ := readOn_text entities depth before rest p hd hp hs
    refine ⟨p.tag, p.tagLeft, apart, ?_⟩
    rw [rereadAll]
    exact hread
  | text s ns ih =>
    intro depth before rest p hd hp hs
    rw [WritableAll] at hns
    obtain ⟨tag, tagLeft, apart, hread⟩ :=
      ih hns.2 depth (before ++ s.toList) rest p hd hp hs
    refine ⟨tag, tagLeft, apart, ?_⟩
    rw [rereadAll, ← hread, Node.writtenAll, Node.written]
    simp
  | element n as cs ns ihc ihr =>
    intro depth before rest p hd hp hs
    rw [WritableAll, Writable] at hns
    obtain ⟨⟨hn, has, hcs⟩, hns⟩ := hns
    rw [Node.writtenAll, List.append_assoc, written_element, rereadAll]
    obtain ⟨apart, htext⟩ := readOn_text entities depth before
      (n.toList ++ (as.flatMap Attribute.written ++
        behindAttributes n cs (Node.writtenAll ns ++ '<' :: rest))) p hd hp hs
    rw [htext, ← written_element]
    -- where the reading fails any last tag will do
    cases textItems before with
    | none => exact ⟨p.tag, 0, false, rfl⟩
    | some texts =>
      obtain ⟨tag, tagLeft, apart', hread⟩ := readOn_written entities depth hn has (ihc hcs)
        (Node.writtenAll ns ++ '<' :: rest) (p.grown texts p.tag p.tagLeft apart) rfl rfl
      rw [Option.bind_some, Option.bind_some, hread, Partial.bindings_grown]
      cases tagRead p.bindings (.ofText n) as with
      | none => exact ⟨p.tag, 0, false, rfl⟩
      | some t =>
        rw [Option.bind_some, Option.bind_some]
        cases rereadAll t.bindings [] cs with
        | none => exact ⟨p.tag, 0, false, rfl⟩
        | some children =>
          rw [Option.bind_some, Option.bind_some, Partial.grown_grown]
          obtain ⟨tag', tagLeft', apart'', hmore⟩ := ihr hns depth [] rest
            (p.grown (texts ++ [.element t.uri (QName.ofText n).localName t.bindings
              t.properties children]) tag tagLeft apart') rfl rfl
            (Or.inr (by simp [Partial.grown]))
          refine ⟨tag', tagLeft', apart'', hmore.trans ?_⟩
          rw [Partial.bindings_grown]
          cases rereadAll p.bindings [] ns with
          | none => rfl
          | some more =>
            rw [Option.bind_some, Partial.grown_grown, List.append_assoc]
            rfl

end

/-! ## 3. Documents -/

theorem prolog_of_startsName {cs : List Char} (h : startsName cs = true) :
    prolog ('<' :: cs) = .ok ([], '<' :: cs) := by
  cases cs with
  | nil => simp [startsName] at h
  | cons c cs =>
    replace h : isNameStart c = true := h
    have start (s : String) (d : Char) (ds : List Char) (hs : s.toList = '<' :: d :: ds)
        (hd : isNameStart d = false) : startsWith s ('<' :: c :: cs) = false := by
      have hne : d ≠ c := by
        rintro rfl
        exact absurd (hd.symm.trans h) Bool.false_ne_true
      rw [startsWith, hs]
      simp [List.isPrefixOf, hne]
    have haside : skipAsides ('<' :: c :: cs) = .ok ('<' :: c :: cs) := by
      have hskip : skipSpaces ('<' :: c :: cs) = '<' :: c :: cs := rfl
      rw [skipAsides, hskip]
      simp [start "<!--" '!' _ rfl (by decide), start "<?" '?' _ rfl (by decide)]
    have hmark : (('<' :: c :: cs).head? == some '\ufeff') = false := by simp
    rw [prolog, hmark]
    simp [start "<?xml " '?' _ rfl (by decide), start "<!DOCTYPE" '!' _ rfl (by decide), haside,
      bind, Except.bind, pure, Except.pure]

/-- A document that starts with a tag is read on from behind the name of the tag.  There is no
prolog in front of it, and behind the element, which has to be complete, only space, comments and
instructions may stand. -/
theorem items_of_tag {q : QName} (hq : q.Valid) {c : Char} (hc : isNameChar c = false)
    (rest : List Char) :
    ∃ left, (items ('<' :: (q.text.toList ++ c :: rest))).toOption =
      if q.qualifier = "xmlns" then none
      else
        (readOn (.ofDocument []) true 0 (c :: rest) true (Partial.start.grown [] q left true)).bind
          fun end_ => (skipAsides end_.2).toOption.bind fun r =>
            if r.isEmpty && end_.1.openElements.isEmpty then some end_.1.nodes.reverse else none := by
  have htokens : elementTokens (q.text.toList ++ c :: rest) =
      (.start q (q.text.toList ++ c :: rest).length :: (tokens true 0 (c :: rest)).1,
        (tokens true 0 (c :: rest)).2) := by
    rw [elementTokens, startToken, qname_text hq hc]
    rfl
  have hskip : skipSpaces ('<' :: (q.text.toList ++ c :: rest)) =
      '<' :: (q.text.toList ++ c :: rest) := rfl
  have htake (left : Nat) : Partial.start.take (.ofDocument []) false (.start q left) =
      if q.qualifier = "xmlns" then .error ⟨.xmlnsPrefixUsed, left⟩
      else .ok (Partial.start.grown [] q left true) := rfl
  refine ⟨(q.text.toList ++ c :: rest).length, ?_⟩
  rw [items, prolog_of_startsName (QName.startsName_text hq _)]
  simp only [bind, Except.bind, hskip, htokens, Partial.takeAll, htake, Token.isStart,
    Bool.false_or, readOn]
  by_cases hx : q.qualifier = "xmlns"
  · rw [if_pos hx, if_pos hx]
    rfl
  · rw [if_neg hx, if_neg hx]
    dsimp only
    generalize Partial.takeAll _ _ true _ = taken
    generalize (tokens true 0 (c :: rest)).2 = stop
    cases taken with
    | error f => rfl
    | ok p =>
      cases stop with
      | error f => rfl
      | ok r =>
        dsimp only [Except.toOption, Option.bind_some, Option.map_some]
        cases skipAsides r with
        | error f => rfl
        | ok r =>
          dsimp only [Option.bind_some]
          cases r.isEmpty <;> cases p.openElements.isEmpty <;> rfl

theorem rereadAll_element (inherited : List Binding) (n : String) (as : List Attribute)
    (cs : List Node) :
    rereadAll inherited [] [.element n as cs] =
      (tagRead inherited (.ofText n) as).bind fun t =>
        (rereadAll t.bindings [] cs).map fun children =>
          [.element t.uri (QName.ofText n).localName t.bindings t.properties children] := by
  rw [rereadAll, textItems_nil, Option.bind_some, rereadAll, textItems_nil]
  cases tagRead inherited (.ofText n) as with
  | none => rfl
  | some t =>
    rw [Option.bind_some, Option.bind_some]
    cases rereadAll t.bindings [] cs <;> rfl

/-- **A written element is read as a document** with nothing around it. -/
theorem items_written {n : String} {as : List Attribute} {cs : List Node}
    (h : Writable (.element n as cs)) :
    (items (Node.element n as cs).written).toOption = rereadAll [] [] [.element n as cs] := by
  rw [Writable] at h
  obtain ⟨hn, has, hcs⟩ := h
  obtain ⟨c, more, htail, hc⟩ := behindName_eq_cons n as cs []
  obtain ⟨left, hitems⟩ := items_of_tag hn.1 hc more
  rw [hn.2, ← htail, ← written_element, List.append_nil] at hitems
  rw [hitems, rereadAll_element]
  by_cases hx : (QName.ofText n).qualifier = "xmlns"
  · rw [if_pos hx, tagRead, if_pos hx]
    rfl
  · obtain ⟨tag, tagLeft, apart, hread⟩ := readOn_tag [] 0 hn hx has (readOn_content [] cs hcs)
      [] (Partial.start.grown [] (.ofText n) left true) rfl rfl rfl
    have hb : Partial.start.bindings = [] := rfl
    have hend : skipAsides [] = .ok [] := by
      rw [skipAsides]
      rfl
    rw [if_neg hx, hread, Partial.bindings_grown, hb]
    cases tagRead [] (.ofText n) as with
    | none => rfl
    | some t =>
      rw [Option.bind_some, Option.bind_some]
      cases rereadAll t.bindings [] cs with
      | none => rfl
      | some children =>
        rw [Option.bind_some, readOn_outside, Option.bind_some]
        dsimp only
        rw [hend]
        rfl

/-- **What is read of a written element** is what `rereadAll` makes of it, with its names. -/
theorem parse_markup_eq_ok_iff {e e' : Element} (h : Writable e.node) :
    Element.parse e.markup = .ok e' ↔
      ∃ is, rereadAll [] [] [e.node] = some is ∧ Item.namedAll [] is = [e'.node] := by
  have hparse : Element.parse e.markup = .ok e' ↔
      ∃ is, (items e.node.written).toOption = some is ∧ rootOf is = .ok e' := by
    unfold Element.parse Element.markup
    rw [String.toList_ofList]
    cases items e.node.written with
    | error f => simp [Except.bind, Except.toOption]
    | ok is =>
      simp only [Except.bind, Except.toOption, Option.some.injEq, exists_eq_left']
      cases rootOf is <;> simp
  rw [hparse, Element.node, items_written h]
  refine exists_congr fun is => and_congr_right fun his => ?_
  rw [rereadAll_element] at his
  obtain ⟨t, -, his⟩ := Option.bind_eq_some_iff.mp his
  obtain ⟨children, -, rfl⟩ := Option.map_eq_some_iff.mp his
  rw [rootOf, Item.namedAll, Item.named, Item.namedAll, List.cons.injEq, Element.node,
    Node.element.injEq]
  obtain ⟨n, as, cs⟩ := e'
  simp [Node.element?]

end LivingDoc.Xml
