import LivingDoc.Proofs.Run.Rendered

/-!
# The characters of an annotated document

What is rendered onto a document is shown as it is: the value that was found instead of the expected
one, the message of an exception and the lines in support of it.  The markup escapes what would be
markup, but a character that no document may hold stays one.

* `Outcome.Allowed`: what an outcome shows at an element has allowed characters.
* `Element.allowed_annotate`: a document with allowed characters keeps them if and only if every
  outcome shows allowed characters at its place.
-/

namespace LivingDoc

/-- What the outcome shows at the element has allowed characters.  The expected text of a failure is
shown where the element has no elements inside; else its children stay and it is not shown. -/
def Outcome.Allowed (e : Element) : Outcome → Prop
  | .success => True
  | .failure expected actual => (∀ c ∈ actual.toList, Xml.isAllowed c = true) ∧
      (e.children.any Node.isElement = false → ∀ c ∈ expected.toList, Xml.isAllowed c = true)
  | .exception c => (∀ x ∈ c.message.toList, Xml.isAllowed x = true) ∧
      ∀ line ∈ c.context, ∀ x ∈ line.toList, Xml.isAllowed x = true

namespace Xml

/-! ## 1. Elements that are put in -/

theorem allowedAll_append (cs ds : List Node) :
    AllowedAll (cs ++ ds) ↔ AllowedAll cs ∧ AllowedAll ds := by
  induction cs with
  | nil => simp [AllowedAll]
  | cons c cs ih => rw [List.cons_append, AllowedAll, AllowedAll, ih, and_assoc]

theorem allowed_plain {n : String} {a : Attribute} (ha : hasAllowedValue a = true)
    (cs : List Node) : Allowed (.element n [a] cs) ↔ AllowedAll cs := by
  rw [Allowed, List.forall_mem_singleton]
  exact and_iff_right ha

theorem allowed_labelled {cls : String} (ha : hasAllowedValue ⟨"class", cls⟩ = true)
    (n s : String) :
    Allowed (Element.labelled n cls s) ↔ ∀ c ∈ s.toList, isAllowed c = true := by
  rw [Element.labelled, allowed_plain ha, AllowedAll, AllowedAll, Allowed, and_true]

/-- Lines on their own have the characters that they have one below the other. -/
theorem allowed_lines (lines : List String) :
    (∀ c ∈ (String.intercalate "\n" lines).toList, isAllowed c = true) ↔
      ∀ line ∈ lines, ∀ c ∈ line.toList, isAllowed c = true := by
  have hbreak : ∀ c ∈ "\n".toList, isAllowed c = true := List.all_eq_true.mp (by decide)
  rw [String.toList_intercalate]
  induction lines with
  | nil => simp
  | cons line lines ih =>
    cases lines with
    | nil => simp
    | cons next lines =>
      refine Iff.trans ?_ ((and_congr_right' ih).trans List.forall_mem_cons.symm)
      rw [List.map_cons, List.map_cons, List.intercalate_cons_cons, List.forall_mem_append,
        List.forall_mem_append]
      exact and_congr_left fun _ => and_iff_left hbreak

/-- **What is rendered in place of children has allowed characters if and only if they have and so
has what the outcome shows.**  Texts that may be left out must have them anyway. -/
theorem allowedAll_childrenIn {e : Element}
    (htexts : e.children.any Node.isElement = false → AllowedAll e.children) (o : Outcome) :
    AllowedAll (o.childrenIn e.children) ↔ o.Allowed e ∧ AllowedAll e.children := by
  cases o with
  | success => rw [Outcome.childrenIn, Outcome.Allowed, true_and]
  | failure expected actual =>
    have hblank : ∀ c ∈ " ".toList, isAllowed c = true := List.all_eq_true.mp (by decide)
    have hexpected : hasAllowedValue ⟨"class", "expected"⟩ = true := by decide
    have hactual : hasAllowedValue ⟨"class", "actual"⟩ = true := by decide
    rw [Outcome.childrenIn, Outcome.Allowed, failureChildren, AllowedAll, AllowedAll, AllowedAll,
      AllowedAll, allowed_plain hexpected, allowed_labelled hactual, Allowed, and_true]
    split
    · rename_i hsome
      simp only [hsome, Bool.true_eq_false, false_imp_iff, and_true]
      exact ⟨fun h => ⟨h.2.2, h.1⟩, fun h => ⟨h.2, hblank, h.1⟩⟩
    · rename_i hnone
      have hnone : e.children.any Node.isElement = false := Bool.not_eq_true _ ▸ hnone
      rw [AllowedAll, AllowedAll, Allowed, and_true]
      exact ⟨fun h => ⟨⟨h.2.2, fun _ => h.1⟩, htexts hnone⟩,
        fun h => ⟨h.1.2 hnone, hblank, h.1.1⟩⟩
  | exception c =>
    have hmessage : hasAllowedValue ⟨"class", "exceptionMessage"⟩ = true := by decide
    have htrace : hasAllowedValue ⟨"class", "stackTrace"⟩ = true := by decide
    rw [Outcome.childrenIn, Outcome.Allowed, allowedAll_append, and_comm, exceptionChildren,
      AllowedAll, allowed_labelled hmessage]
    refine and_congr_left fun _ => and_congr_right fun _ => ?_
    split
    · rename_i hnone
      rw [List.isEmpty_iff.mp hnone]
      simp [AllowedAll]
    · rw [AllowedAll, AllowedAll, allowed_labelled htrace, allowed_lines, and_true]

theorem mem_of_mem_trimmed {s : String} {c : Char} (h : c ∈ (Text.trimmed s).toList) :
    c ∈ s.toList := by
  rw [Text.trimmed, String.toList_ofList, Text.trim, Text.trimEnd, List.mem_reverse] at h
  have hend := List.mem_reverse.mp ((List.dropWhile_sublist _).subset h)
  exact (List.dropWhile_sublist _).subset hend

end Xml

/-! ## 2. One outcome -/

theorem Status.allowed_name (s : Status) : ∀ c ∈ s.name.toList, Xml.isAllowed c = true := by
  cases s <;> exact List.all_eq_true.mp (by decide)

namespace Element

/-- A class with allowed characters keeps the values of the attributes allowed. -/
theorem allowed_addClass {e : Element} {c : String}
    (hc : ∀ x ∈ c.toList, Xml.isAllowed x = true)
    (h : ∀ a ∈ e.attributes, Xml.hasAllowedValue a = true) :
    ∀ a ∈ (e.addClass c).attributes, Xml.hasAllowedValue a = true := by
  have hpresent : ∀ x ∈ (Text.trimmed ((e.attribute? "class").getD "")).toList,
      Xml.isAllowed x = true := by
    intro x hx
    have hx := Xml.mem_of_mem_trimmed hx
    unfold attribute? at hx
    cases hfound : e.attributes.find? (·.name == "class") with
    | none =>
      rw [hfound, Option.map_none, Option.getD_none] at hx
      exact absurd hx (by simp)
    | some a =>
      rw [hfound, Option.map_some, Option.getD_some] at hx
      exact Xml.hasAllowedValue_iff.mp (h a (List.mem_of_find?_eq_some hfound)) x hx
  unfold addClass
  split
  · exact h
  · intro a ha
    rcases eq_or_mem_of_mem_setIn ha with rfl | ha
    · rw [Xml.hasAllowedValue_iff]
      dsimp only
      split
      · exact hc
      · have hblank : ∀ x ∈ " ".toList, Xml.isAllowed x = true :=
          List.all_eq_true.mp (by decide)
        simp only [String.toList_append, List.mem_append, or_imp, forall_and]
        exact ⟨⟨hpresent, hblank⟩, hc⟩
    · exact h a ha

/-- An element with its outcome rendered has allowed characters if and only if its children and what
the outcome shows have. -/
theorem allowed_render {e : Element} (h : ∀ a ∈ e.attributes, Xml.hasAllowedValue a = true)
    (htexts : e.children.any Node.isElement = false → Xml.AllowedAll e.children) (o : Outcome) :
    Xml.Allowed (e.render o).node ↔ o.Allowed e ∧ Xml.AllowedAll e.children := by
  have hmarked := allowed_addClass o.status.allowed_name h
  rw [node_render, Xml.Allowed, and_iff_right hmarked]
  exact Xml.allowedAll_childrenIn htexts o

theorem allowed_renderAt {e : Element} (h : ∀ a ∈ e.attributes, Xml.hasAllowedValue a = true)
    (htexts : e.children.any Node.isElement = false → Xml.AllowedAll e.children)
    (outcomes : List Recorded) (path : List Nat) :
    Xml.Allowed (e.renderAt outcomes path).node ↔
      (∀ o, outcomeAt? outcomes path = some o → o.Allowed e) ∧ Xml.AllowedAll e.children := by
  unfold renderAt
  split
  · rename_i o ho
    rw [allowed_render h htexts]
    simp [ho]
  · rename_i hnone
    rw [node, Xml.Allowed]
    simp only [hnone, reduceCtorEq, false_imp_iff, implies_true, true_and]
    exact and_iff_right h

end Element

/-! ## 3. All outcomes of a document -/

theorem Outcome.allowed_congr {e f : Element}
    (h : e.children.any Node.isElement = f.children.any Node.isElement) (o : Outcome) :
    o.Allowed e ↔ o.Allowed f := by
  cases o <;> simp only [Outcome.Allowed, h]

/-- An element with the outcomes inside it rendered: what is at its path adds to the characters what
it shows.  Rendering inside does not change whether it has elements in it, on which that depends. -/
theorem Element.allowed_annotated (e : Element) (outcomes : List Recorded) (path : List Nat)
    (h : Xml.Allowed e.node) :
    Xml.Allowed (Element.renderAt outcomes path
        { e with children := Node.annotateAll outcomes path 0 e.children }).node ↔
      (∀ o, outcomeAt? outcomes path = some o → o.Allowed e) ∧
        Xml.AllowedAll (Node.annotateAll outcomes path 0 e.children) := by
  rw [node, Xml.Allowed] at h
  have hsame := Node.any_isElement_annotateAll outcomes path 0 e.children
  rw [allowed_renderAt]
  · refine and_congr_left fun _ => forall₂_congr fun o _ => ?_
    exact Outcome.allowed_congr hsame o
  · exact h.1
  · intro hnone
    rw [hsame] at hnone
    have htexts := Node.annotateAll_of_texts outcomes path 0 hnone
    rw [htexts]
    exact h.2

/-- **Children with allowed characters keep them if and only if every outcome shows allowed
characters at its place.**  By induction on the children, for all paths to them. -/
theorem Node.allowed_annotateAll (outcomes : List Recorded) {ns : List Node}
    (h : Xml.AllowedAll ns) (path : List Nat) (around : List Element) (i : Nat) :
    Xml.AllowedAll (Node.annotateAll outcomes path i ns) ↔
      ∀ p ∈ Node.placesAll path around i ns, ∀ o, outcomeAt? outcomes p.path = some o →
        o.Allowed p.element := by
  induction ns using Node.induction generalizing path around i with
  | nil => simp [annotateAll, placesAll, Xml.AllowedAll]
  | text s rest ih =>
    rw [Xml.AllowedAll] at h
    rw [annotateAll, annotate, Xml.AllowedAll, ih h.2 path around (i + 1), placesAll, places,
      List.nil_append]
    exact and_iff_right h.1
  | element n as cs rest ihc ihr =>
    rw [Xml.AllowedAll] at h
    have hcs := h.1
    rw [Xml.Allowed] at hcs
    have hone := Element.allowed_annotated ⟨n, as, cs⟩ outcomes (path ++ [i]) h.1
    rw [annotateAll, annotate, Xml.AllowedAll, hone, ihr h.2 path around (i + 1),
      ihc hcs.2 (path ++ [i]) (around ++ [⟨n, as, cs⟩]) 0, placesAll, places,
      List.forall_mem_append, List.forall_mem_cons]

namespace Element

/-- **A document with allowed characters keeps them if and only if every outcome shows allowed
characters at its place.** -/
theorem allowed_annotate {root : Element} (h : root.Allowed) (outcomes : List Recorded) :
    (root.annotate outcomes).Allowed ↔
      ∀ p ∈ root.places, ∀ o, outcomeAt? outcomes p.path = some o → o.Allowed p.element := by
  have hchildren : Xml.AllowedAll root.children := by
    rw [Allowed, node, Xml.Allowed] at h
    exact h.2
  have hall := Node.allowed_annotateAll outcomes hchildren [] [root] 0
  rw [places_eq, List.forall_mem_cons, Place.below, List.nil_append, ← hall]
  exact allowed_annotated root outcomes [] h

end Element

/-! ## 4. The stylesheet -/

theorem allowed_styleNode : Xml.Allowed styleNode := by
  have htype : Xml.hasAllowedValue ⟨"type", "text/css"⟩ = true := by decide
  have hstyle : stylesheet.toList.all Xml.isAllowed = true := by
    rw [stylesheet, String.toList_join, List.all_flatMap]
    decide +kernel
  rw [styleNode, Xml.allowed_plain htype, Xml.AllowedAll, Xml.AllowedAll, Xml.Allowed, and_true]
  exact List.all_eq_true.mp hstyle

theorem allowed_styleHead (ns : List Node) : Xml.AllowedAll (styleHead ns) ↔ Xml.AllowedAll ns := by
  induction ns with
  | nil => rfl
  | cons n rest ih =>
    cases n with
    | text s => rw [styleHead, Xml.AllowedAll, Xml.AllowedAll, ih]
    | element n as cs =>
      rw [styleHead]
      split
      · rw [Xml.AllowedAll, Xml.AllowedAll, Xml.Allowed, Xml.Allowed, Xml.allowedAll_append]
        simp only [Xml.AllowedAll, allowed_styleNode, and_true]
      · rw [Xml.AllowedAll, Xml.AllowedAll, ih]

/-- **The stylesheet has allowed characters only.** -/
theorem Element.allowed_withStylesheet (root : Element) :
    root.withStylesheet.Allowed ↔ root.Allowed := by
  rw [Element.Allowed, Element.Allowed, node, node, Xml.Allowed, Xml.Allowed]
  exact and_congr_right fun _ => allowed_styleHead root.children

end LivingDoc
