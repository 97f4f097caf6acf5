import LivingDoc.Proofs.Annotation.Content
import LivingDoc.Proofs.Annotation.Rendering
import LivingDoc.Proofs.Evaluation.Accounts

/-!
# Taking an annotation back

Rendering a failure moves the children of the element into a `del`, or throws its texts away and
writes the expected one in their place.  The document is still there: the outcomes can be taken back
one by one, the outer one before the inner, so that the path of the inner leads again to where its
element has come to stand.

* `Element.undoAt?_annotate`: taking the first outcome back leaves the other ones rendered, onto a
  document with the same content.
* `Element.undo?_annotate`: so taking all back leaves a document with the same content.
* `Element.annotation_loses_nothing`: the outcomes of an evaluation can all be taken back, because a
  command that fails has recorded the whole text of its element.
-/

namespace LivingDoc

variable {σ : Type}

/-! ## 1. Elements at a path -/

namespace Element

/-- The child with this index, if it is an element. -/
def child? (e : Element) (i : Nat) : Option Element := e.children[i]?.bind Node.element?

/-- The element that the child indices lead to. -/
def at? : List Nat → Element → Option Element
  | [], e => some e
  | i :: path, e => (e.child? i).bind (at? path)

/-- The tree with the element at a path changed. -/
def modifyAt (change : Element → Element) : List Nat → Element → Element
  | [], e => change e
  | i :: path, e =>
    match e.child? i with
    | some c => { e with children := e.children.set i (modifyAt change path c).node }
    | none => e

theorem child?_eq_some_iff {e c : Element} {i : Nat} :
    e.child? i = some c ↔ e.children[i]? = some c.node := by
  unfold child?
  rw [Option.bind_eq_some_iff]
  constructor
  · rintro ⟨n, hn, hc⟩
    rw [hn]
    cases n with
    | text s => exact absurd hc (by simp [Node.element?])
    | element m as cs =>
      obtain rfl : (⟨m, as, cs⟩ : Element) = c := Option.some.inj hc
      rfl
  · intro h
    exact ⟨c.node, h, rfl⟩

theorem at?_append (path rest : List Nat) (e : Element) :
    e.at? (path ++ rest) = (e.at? path).bind (at? rest) := by
  induction path generalizing e with
  | nil => rfl
  | cons i path ih =>
    rw [List.cons_append, at?, at?]
    cases e.child? i with
    | none => rfl
    | some c => exact ih c

theorem at?_of_leads {root : Element} {path : List Nat} {around : List Element} {e : Element}
    (h : root.Leads path around e) : root.at? path = some e := by
  induction h with
  | root => rfl
  | @child path around e c i _ here ih =>
    rw [at?_append, ih, Option.bind_some, at?, child?_eq_some_iff.mpr here, Option.bind_some, at?]

/-- A change keeps the content of the tree if it keeps that of the element it is made to.  By
induction on the path, since the content of children depends on that of each of them. -/
theorem content_modifyAt {change : Element → Element} {path : List Nat} {root e : Element}
    (he : root.at? path = some e) (h : (change e).content = e.content) :
    (root.modifyAt change path).content = root.content := by
  induction path generalizing root with
  | nil =>
    obtain rfl : root = e := Option.some.inj he
    exact h
  | cons i path ih =>
    rw [at?, Option.bind_eq_some_iff] at he
    obtain ⟨c, hc, he⟩ := he
    rw [modifyAt, hc]
    rw [child?_eq_some_iff] at hc
    rw [content, content, Node.contentAll_set hc (ih he)]

/-- A change at one path leaves the elements at other paths alone, but for those further in, which
it has to leave alone itself. -/
theorem at?_modifyAt {change : Element → Element}
    (hchange : ∀ e i rest d, e.at? (i :: rest) = some d → (change e).at? (i :: rest) = some d)
    {path other : List Nat} (hother : ¬ other <+: path) {root d : Element}
    (hd : root.at? other = some d) : (root.modifyAt change path).at? other = some d := by
  induction path generalizing root other with
  | nil =>
    cases other with
    | nil => exact absurd List.nil_prefix hother
    | cons j other => exact hchange root j other d hd
  | cons i path ih =>
    cases other with
    | nil => exact absurd List.nil_prefix hother
    | cons j other =>
      rw [modifyAt]
      cases hc : root.child? i with
      | none => exact hd
      | some c =>
        have hchild := child?_eq_some_iff.mp hc
        rw [at?, Option.bind_eq_some_iff] at hd ⊢
        obtain ⟨b, hb, hd⟩ := hd
        by_cases hij : i = j
        · subst hij
          obtain rfl : b = c := Option.some.inj (hb.symm.trans hc)
          have hlength := (List.getElem?_eq_some_iff.mp hchild).1
          refine ⟨b.modifyAt change path, ?_, ih ?_ hd⟩
          · rw [child?_eq_some_iff]
            exact List.getElem?_set_self hlength
          · intro hprefix
            exact hother (List.cons_prefix_cons.mpr ⟨rfl, hprefix⟩)
        · refine ⟨b, ?_, hd⟩
          rw [child?_eq_some_iff] at hb ⊢
          exact (List.getElem?_set_ne hij).trans hb

end Element

/-! ## 2. Taking one outcome back -/

/-- The children that an outcome was rendered into, out of those it shows.  What it has put in has
to be there as it was put in, and nothing else goes: of a failure the `del` around the children and
what stands behind it, of an exception its message and its lines behind the children. -/
def Outcome.takeBack? : Outcome → List Node → Option (List Node)
  | .success, cs => some cs
  | .failure _ actual, .element n as kept :: rest =>
    if n = "del" ∧ as = [⟨"class", "expected"⟩] ∧
        rest = [.text " ", Element.labelled "ins" "actual" actual] then some kept
    else none
  | .failure .., _ => none
  | .exception c, cs =>
    let front := cs.take (cs.length - (exceptionChildren c).length)
    if cs = front ++ exceptionChildren c then some front else none

/-- The children that are left when an outcome is rendered into children and taken back: a failure
has replaced texts by the expected one. -/
def Outcome.keptIn : Outcome → List Node → List Node
  | .failure expected _, cs => if cs.any Node.isElement then cs else [.text expected]
  | .success, cs | .exception _, cs => cs

/-- **An outcome that was rendered into children can be taken back.** -/
theorem Outcome.takeBack?_childrenIn (o : Outcome) (cs : List Node) :
    o.takeBack? (o.childrenIn cs) = some (o.keptIn cs) := by
  cases o with
  | success => rfl
  | failure expected actual =>
    rw [childrenIn, failureChildren, takeBack?, if_pos ⟨rfl, rfl, rfl⟩, keptIn]
  | exception c =>
    have hfront : (cs ++ exceptionChildren c).take
        ((cs ++ exceptionChildren c).length - (exceptionChildren c).length) = cs := by
      rw [List.length_append, Nat.add_sub_cancel, List.take_left]
    rw [childrenIn, takeBack?, hfront, if_pos rfl, keptIn]

namespace Element

/-- The tree with the outcome taken back at a path. -/
def undoAt? (o : Outcome) : List Nat → Element → Option Element
  | [], e => (o.takeBack? e.children).map fun cs => { e with children := cs }
  | i :: path, e =>
    (e.child? i).bind fun c =>
      (undoAt? o path c).map fun d => { e with children := e.children.set i d.node }

/-- What is left of an element when an outcome is rendered onto it and taken back: it has the class,
and a failure has replaced its texts. -/
def retain (o : Outcome) (e : Element) : Element :=
  { e.addClass o.status.name with children := o.keptIn e.children }

/-- The element has the text that the outcome says it expected. -/
def Expects (o : Outcome) (e : Element) : Prop :=
  ∀ expected actual, o = .failure expected actual → expected = e.textContent

/-- **What is left has the content of the element**, if the expected text is the one of the element.
Then the one text that a failure leaves has the content of those that it replaced. -/
theorem content_retain {o : Outcome} {e : Element} (h : e.Expects o) :
    (e.retain o).content = e.content := by
  have hclass := e.content_addClass o.status.name
  obtain ⟨hname, hattributes, -⟩ := Element.mk.inj hclass
  have hchildren : Node.contentAll (o.keptIn e.children) = Node.contentAll e.children := by
    cases o with
    | success => rfl
    | exception c => rfl
    | failure expected actual =>
      rw [Outcome.keptIn]
      split
      · rfl
      · rename_i hnone
        have hnone : e.children.any Node.isElement = false := Bool.not_eq_true _ ▸ hnone
        have htext : Node.contentAll [.text expected] = Node.prependText expected [] := rfl
        rw [Node.contentAll_of_texts hnone, htext, h expected actual rfl, textContent]
  rw [retain, content, content, hchildren]
  exact Element.mk.injEq .. ▸ ⟨hname, hattributes, rfl⟩

/-- What is left has the elements of the element inside it: where there are some, nothing was
replaced. -/
theorem at?_retain (o : Outcome) (e : Element) (i : Nat) (rest : List Nat) (d : Element)
    (h : e.at? (i :: rest) = some d) : (e.retain o).at? (i :: rest) = some d := by
  have hkept : o.keptIn e.children = e.children := by
    cases o with
    | success => rfl
    | exception c => rfl
    | failure expected actual =>
      rw [at?, Option.bind_eq_some_iff] at h
      obtain ⟨c, hc, -⟩ := h
      have hmem := List.mem_of_getElem? (child?_eq_some_iff.mp hc)
      have hany : e.children.any Node.isElement = true := List.any_eq_true.mpr ⟨c.node, hmem, rfl⟩
      rw [Outcome.keptIn, if_pos hany]
  have hchild : (e.retain o).child? i = e.child? i := by
    rw [retain, child?, hkept, child?]
  rw [at?, hchild]
  exact h

end Element

/-! ## 3. The first of several outcomes -/

/-- Where no later outcome has the path of the first one, that is the outcome there. -/
theorem outcomeAt?_cons_self {x : Recorded} {rest : List Recorded}
    (h : ∀ y ∈ rest, y.path ≠ x.path) : outcomeAt? (x :: rest) x.path = some x.outcome := by
  have hnone : rest.reverse.find? (·.path == x.path) = none := by
    rw [List.find?_eq_none]
    intro y hy hpath
    exact h y (List.mem_reverse.mp hy) (beq_iff_eq.mp hpath)
  have hself : [x].find? (·.path == x.path) = some x :=
    List.find?_cons_of_pos (beq_self_eq_true x.path)
  rw [outcomeAt?, List.reverse_cons, List.find?_append, hnone, Option.none_or, hself,
    Option.map_some]

theorem outcomeAt?_cons_of_ne {x : Recorded} {path : List Nat} (h : x.path ≠ path)
    (rest : List Recorded) : outcomeAt? (x :: rest) path = outcomeAt? rest path := by
  have hother : [x].find? (·.path == path) = none :=
    List.find?_singleton .. ▸ if_neg fun hpath => h (beq_iff_eq.mp hpath)
  rw [outcomeAt?, outcomeAt?, List.reverse_cons, List.find?_append, hother, Option.or_none]

theorem outcomeAt?_eq_none {outcomes : List Recorded} {path : List Nat}
    (h : ∀ y ∈ outcomes, y.path ≠ path) : outcomeAt? outcomes path = none := by
  rw [outcomeAt?, Option.map_eq_none_iff, List.find?_eq_none]
  intro y hy hpath
  exact h y (List.mem_reverse.mp hy) (beq_iff_eq.mp hpath)

namespace Element

/-- An element without an outcome is annotated inside only. -/
theorem annotateAt_of_none {outcomes : List Recorded} {path : List Nat}
    (h : outcomeAt? outcomes path = none) (e : Element) :
    e.annotateAt outcomes path =
      { e with children := Node.annotateAll outcomes path 0 e.children } := by
  rw [annotateAt, renderAt, h]

theorem child?_annotateAll {e c : Element} {i : Nat} (hc : e.child? i = some c)
    (outcomes : List Recorded) (path : List Nat) :
    ({ e with children := Node.annotateAll outcomes path 0 e.children } : Element).child? i =
      some (c.annotateAt outcomes (path ++ [i])) := by
  rw [child?_eq_some_iff] at hc ⊢
  rw [Node.getElem?_annotateAll, hc, Option.map_some, Node.annotate_node, Nat.zero_add]

/-- **Taking the first outcome back leaves the others rendered onto what is left.**  By induction on
the path to it.  None of the others may stand at that path or further out: then it would have to be
taken back before. -/
theorem undoAt?_annotateAt {x : Recorded} {rest : List Recorded} {base path : List Nat}
    (hx : x.path = base ++ path) (hrest : ∀ y ∈ rest, ¬ y.path <+: x.path) {e d : Element}
    (hd : e.at? path = some d) :
    (e.annotateAt (x :: rest) base).undoAt? x.outcome path =
      some ((e.modifyAt (retain x.outcome) path).annotateAt rest base) := by
  have hbase : ∀ y ∈ rest, y.path ≠ base := by
    intro y hy hpath
    refine hrest y hy ?_
    rw [hpath, hx]
    exact List.prefix_append base path
  have hnone : outcomeAt? rest base = none := outcomeAt?_eq_none hbase
  induction path generalizing base e with
  | nil =>
    -- the outcome is that of the element itself, and those inside are not touched
    rw [List.append_nil] at hx
    have hsome : outcomeAt? (x :: rest) base = some x.outcome := by
      rw [← hx]
      refine outcomeAt?_cons_self ?_
      intro y hy
      rw [hx]
      exact hbase y hy
    have hinside : ∀ ns, Node.annotateAll (x :: rest) base 0 ns = Node.annotateAll rest base 0 ns := by
      intro ns
      refine Node.annotateAll_congr ns ?_
      intro j tail _
      refine outcomeAt?_cons_of_ne ?_ rest
      rw [hx]
      exact Std.ne_of_lt (path_lt_append base j tail)
    have hkept : x.outcome.keptIn (Node.annotateAll rest base 0 e.children) =
        Node.annotateAll rest base 0 (x.outcome.keptIn e.children) := by
      cases x.outcome with
      | success => rfl
      | exception c => rfl
      | failure expected actual =>
        rw [Outcome.keptIn, Outcome.keptIn, Node.any_isElement_annotateAll]
        split
        · rfl
        · exact (Node.annotateAll_of_texts rest base 0 rfl).symm
    rw [modifyAt, annotateAt_of_none hnone, annotateAt, renderAt, hsome, undoAt?]
    dsimp only
    rw [render_eq, Outcome.takeBack?_childrenIn, Option.map_some, hinside, addClass_of_children,
      hkept, retain]
  | cons i path ih =>
    rw [at?, Option.bind_eq_some_iff] at hd
    obtain ⟨c, hc, hd⟩ := hd
    have hxne : x.path ≠ base := by
      rw [hx]
      exact (Std.ne_of_lt (path_lt_append base i path)).symm
    have hxnone : outcomeAt? (x :: rest) base = none := by
      rw [outcomeAt?_cons_of_ne hxne]
      exact hnone
    have hxi : x.path = (base ++ [i]) ++ path := by
      rw [hx, List.append_assoc, List.singleton_append]
    have hbasei : ∀ y ∈ rest, y.path ≠ base ++ [i] := by
      intro y hy hpath
      refine hrest y hy ?_
      rw [hpath, hxi]
      exact List.prefix_append (base ++ [i]) path
    have hinner := ih hxi hd hbasei (outcomeAt?_eq_none hbasei)
    rw [modifyAt, hc, annotateAt_of_none hxnone, annotateAt_of_none hnone, undoAt?,
      child?_annotateAll hc, Option.bind_some, hinner, Option.map_some]
    -- every other child is off the path, so that the first outcome is not read in it
    congr 2
    refine List.ext_getElem? ?_
    intro j
    rw [Node.getElem?_annotateAll, Nat.zero_add]
    by_cases hij : i = j
    · subst hij
      have hlength := (List.getElem?_eq_some_iff.mp (child?_eq_some_iff.mp hc)).1
      have hlength' : i < (Node.annotateAll (x :: rest) base 0 e.children).length := by
        have hsome := Node.getElem?_annotateAll (x :: rest) base 0 e.children i
        rw [child?_eq_some_iff.mp hc, Option.map_some] at hsome
        exact (List.getElem?_eq_some_iff.mp hsome).1
      rw [List.getElem?_set_self hlength', List.getElem?_set_self hlength, Option.map_some,
        Node.annotate_node]
    · rw [List.getElem?_set_ne hij, List.getElem?_set_ne hij, Node.getElem?_annotateAll, Nat.zero_add]
      congr 1
      funext n
      refine Node.annotate_congr n ?_
      intro tail
      refine outcomeAt?_cons_of_ne ?_ rest
      rw [hx, List.append_assoc, List.singleton_append]
      intro hpath
      exact hij (List.cons.inj (List.append_cancel_left hpath)).1

/-! ## 4. All outcomes -/

/-- The tree with outcomes taken back one after the other. -/
def undo? (e : Element) (outcomes : List Recorded) : Option Element :=
  outcomes.foldlM (fun t x => t.undoAt? x.outcome x.path) e

/-- Outcomes that can be taken back from a document in this order.  Document order is one such
order. -/
structure Undoable (root : Element) (outcomes : List Recorded) : Prop where
  /-- What comes later stands neither at the same path nor further out. -/
  inwards : outcomes.Pairwise fun x y => ¬ y.path <+: x.path
  /-- Every outcome has an element, and a failure expects the text of its element. -/
  expected : ∀ x ∈ outcomes, ∃ e, root.at? x.path = some e ∧ e.Expects x.outcome

/-- Behind the first outcome the others can be taken back from what it leaves. -/
theorem Undoable.tail {root : Element} {x : Recorded} {rest : List Recorded}
    (h : root.Undoable (x :: rest)) : (root.modifyAt (retain x.outcome) x.path).Undoable rest := by
  obtain ⟨hfirst, hrest⟩ := List.pairwise_cons.mp h.inwards
  refine ⟨hrest, ?_⟩
  intro y hy
  obtain ⟨d, hd, htext⟩ := h.expected y (List.mem_cons_of_mem x hy)
  exact ⟨d, at?_modifyAt (at?_retain x.outcome) (hfirst y hy) hd, htext⟩

/-- **Taking the first outcome back from an annotated document** leaves a document with the same
content, with the other outcomes rendered onto it. -/
theorem undoAt?_annotate {root : Element} {x : Recorded} {rest : List Recorded}
    (h : root.Undoable (x :: rest)) :
    (root.annotate (x :: rest)).undoAt? x.outcome x.path =
        some ((root.modifyAt (retain x.outcome) x.path).annotate rest) ∧
      (root.modifyAt (retain x.outcome) x.path).content = root.content := by
  obtain ⟨hfirst, -⟩ := List.pairwise_cons.mp h.inwards
  obtain ⟨e, he, htext⟩ := h.expected x List.mem_cons_self
  exact ⟨undoAt?_annotateAt (List.nil_append x.path).symm hfirst he,
    content_modifyAt he (content_retain htext)⟩

end Element

theorem Node.annotateAll_nil (path : List Nat) (i : Nat) (ns : List Node) :
    annotateAll [] path i ns = ns := by
  induction ns using Node.induction generalizing path i with
  | nil => rw [annotateAll]
  | text s rest ih => rw [annotateAll, annotate, ih]
  | element n as cs rest ihc ihr =>
    have hown : outcomeAt? [] (path ++ [i]) = none := rfl
    rw [annotateAll, annotate, ihc, ihr, Element.renderAt, hown]
    rfl

namespace Element

theorem annotate_nil (root : Element) : root.annotate [] = root := by
  have hown : outcomeAt? [] [] = none := rfl
  rw [annotate, Node.annotateAll_nil, renderAt, hown]

/-- **Taking all outcomes back from an annotated document leaves a document with the same content.**
By induction on the outcomes: behind the first the others can be taken back from what it leaves. -/
theorem undo?_annotate {root : Element} {outcomes : List Recorded} (h : root.Undoable outcomes) :
    ∃ t, (root.annotate outcomes).undo? outcomes = some t ∧ t.content = root.content := by
  induction outcomes generalizing root with
  | nil => exact ⟨root, by rw [annotate_nil]; rfl, rfl⟩
  | cons x rest ih =>
    obtain ⟨hfirst, hcontent⟩ := undoAt?_annotate h
    obtain ⟨t, ht, hsame⟩ := ih h.tail
    refine ⟨t, ?_, hsame.trans hcontent⟩
    rw [undo?, List.foldlM_cons, hfirst]
    exact ht

end Element

/-! ## 5. The outcomes of an evaluation -/

/-- A command that fails expects the text of its element, since that is what it has compared. -/
theorem Command.expects_of_run (f : Subject σ) {c : Command} {e : Element} {x : String} {s : State σ}
    {o : Outcome} (h : (c.run f e x s).1 = some o) : e.Expects o := by
  rintro expected actual rfl
  cases hc : c.asserts with
  | false =>
    have hstatus := c.status_run_of_not_asserts f hc h
    exact absurd hstatus (by simp [Outcome.status])
  | true =>
    cases c with
    | set => exact absurd hc Bool.false_ne_true
    | execute => exact absurd hc Bool.false_ne_true
    | link => exact absurd hc Bool.false_ne_true
    | assertEquals matches? =>
      simp only [run] at h
      split at h
      · rw [Option.some.injEq] at h
        split at h
        · cases h
        · cases h
          rfl
      · cases h
    | assertBoolean b =>
      simp only [run] at h
      split at h
      · rw [Option.some.injEq, booleanOutcome] at h
        split at h
        · split at h
          · cases h
          · cases h
            rfl
        · cases h
      · cases h

theorem Place.Records.expects {r : Registry} {f : Subject σ} {p : Place} {own : List Recorded}
    (h : p.Records r f own) {x : Recorded} (hx : x ∈ own) : p.element.Expects x.outcome := by
  cases h with
  | idle hnone => exact absurd hx List.not_mem_nil
  | @ran q s hq =>
    obtain ⟨o, ho, rfl⟩ := Request.mem_recorded.mp hx
    exact q.command.expects_of_run f ho

theorem not_prefix_of_lt {a b : List Nat} (h : a < b) : ¬ b <+: a := by
  rintro ⟨tail, rfl⟩
  cases tail with
  | nil =>
    rw [List.append_nil] at h
    exact List.lt_irrefl _ h
  | cons j tail => exact List.lt_asymm h (path_lt_append b j tail)

namespace Element

/-- Every outcome of an evaluation was recorded at a place, and a failure expects the text there. -/
theorem exists_expects {r : Registry} {f : Subject σ} {root : Element} {s : σ} {x : Recorded}
    (hx : x ∈ (root.evaluate r f s).outcomes) :
    ∃ p ∈ root.places, p.path = x.path ∧ p.element.Expects x.outcome := by
  obtain ⟨parts, hparts, hall⟩ := root.records_evaluate r f s
  rw [hall] at hx
  obtain ⟨p, hp, own, hown, hx⟩ := Place.exists_records hparts hx
  exact ⟨p, hp, (hown.path_eq hx).symm, hown.expects hx⟩

theorem undoable_evaluate (r : Registry) (f : Subject σ) (root : Element) (s : σ) :
    root.Undoable (root.evaluate r f s).outcomes := by
  constructor
  case inwards => exact (root.outcomes_sorted r f s).imp fun h => not_prefix_of_lt h
  case expected =>
    intro x hx
    obtain ⟨p, hp, hpath, htext⟩ := exists_expects hx
    refine ⟨p.element, ?_, htext⟩
    rw [← hpath]
    exact at?_of_leads (mem_places_iff.mp hp)

/-- **Annotation loses nothing of a document.**  What the outcomes of its evaluation have put in can
be taken back, one outcome after the other, and what is left has the content of the document; and in
the `del` of a failure stands the whole text of its element. -/
theorem annotation_loses_nothing (r : Registry) (f : Subject σ) (root : Element) (s : σ) :
    (∃ t, (root.annotate (root.evaluate r f s).outcomes).undo? (root.evaluate r f s).outcomes =
        some t ∧ t.content = root.content) ∧
    ∀ x ∈ (root.evaluate r f s).outcomes, ∀ p ∈ root.places, p.path = x.path →
      ∀ expected actual, x.outcome = .failure expected actual →
        ∃ kept, (p.element.render x.outcome).children =
            [.element "del" [⟨"class", "expected"⟩] kept, .text " ",
              Element.labelled "ins" "actual" actual] ∧
          (Node.element "del" [⟨"class", "expected"⟩] kept).textContent = p.element.textContent := by
  refine ⟨undo?_annotate (root.undoable_evaluate r f s), ?_⟩
  intro x hx p hp hpath expected actual ho
  obtain ⟨q, hq, hqpath, htext⟩ := exists_expects hx
  obtain rfl : q = p := List.inj_on_of_nodup_map root.places_path_nodup hq hp (hqpath.trans hpath.symm)
  have hexpected := htext expected actual ho
  refine ⟨x.outcome.keptIn q.element.children, ?_, ?_⟩
  · rw [render_eq, ho, Outcome.childrenIn, failureChildren, Outcome.keptIn]
  · rw [Node.textContent, Node.textChars, ho, Outcome.keptIn, textContent]
    split
    · rfl
    · rw [hexpected, textContent, Node.textCharsAll, Node.textCharsAll, Node.textChars,
        String.toList_ofList, List.append_nil]

end Element

namespace Threefold

/-- A fixture with one operation, which returns `z`. -/
def fixture : Fixture Unit :=
  ⟨"a", fun _ o => if o = "f" then some ⟨"f", []⟩ else none, fun s _ _ => (.returned (.text "z"), s)⟩

/-- An assertion that fails, around one that fails on several texts and one that cannot complete. -/
def document : Element :=
  ⟨"p", [⟨"xmlns:c", "urn:c"⟩, ⟨"c:assertEquals", "f()"⟩],
    [.text "a", .element "b" [⟨"class", "note"⟩, ⟨"c:assertEquals", "f()"⟩]
      [.text "x", .text "", .text "y"], .element "i" [⟨"c:assertTrue", "g()"⟩] []]⟩

/-- All three outcomes are taken back. -/
theorem annotation_loses_nothing_threefold :
    ((document.evaluate (.standard "urn:c" .exact) ⟨fixture, .ofPath "a"⟩ ()).outcomes.map
        fun x => (x.path, x.outcome.status)) =
      [([], .failure), ([1], .failure), ([2], .exception)] ∧
    ∃ t, (document.annotate (document.evaluate (.standard "urn:c" .exact)
        ⟨fixture, .ofPath "a"⟩ ()).outcomes).undo? (document.evaluate (.standard "urn:c" .exact)
          ⟨fixture, .ofPath "a"⟩ ()).outcomes = some t ∧ t.content = document.content :=
  ⟨by decide +kernel, (document.annotation_loses_nothing _ _ ()).1⟩

end Threefold

end LivingDoc
