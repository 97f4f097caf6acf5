import LivingDoc.Proofs.Annotation.Rendering
import LivingDoc.Proofs.Evaluation.Outcomes
import LivingDoc.Proofs.Markup.Classes
import LivingDoc.Proofs.Markup.Preorder

/-!
# The classes of an annotated document

A reader of an annotated document sees the outcomes as classes, and a reader of the summary sees
them as numbers.  Rendering moves children about and puts elements in, but an element keeps its
classes, and what is put in has none that an outcome gives.  So the classes can be counted, and the
count is that of the summary.

* `Node.countP_hasClass_annotateAll`: an element has the class of a kind behind the annotation if it
  had it before or has an outcome of that kind.
* `Element.annotate_agrees_with_tallies`: the classes of an annotated document add up to its
  outcomes, and for a document without such classes to the tallies of its summary.
-/

namespace LivingDoc

variable {σ : Type}

/-! ## 1. One outcome -/

theorem Status.words_name (st : Status) : Text.words st.name = [st.name] := by
  cases st <;> decide

theorem Status.name_inj {st tt : Status} : st.name = tt.name ↔ st = tt := by
  cases st <;> cases tt <;> decide

theorem Element.hasClass_of_children (n : String) (as : List Attribute) (cs ds : List Node)
    (c : String) : (⟨n, as, cs⟩ : Element).hasClass c = (⟨n, as, ds⟩ : Element).hasClass c := rfl

/-- The elements that are put in have no class of a kind of outcome. -/
theorem Status.not_hasClass (st : Status) {cls : String}
    (h : cls ∈ ["expected", "actual", "exceptionMessage", "stackTrace"]) (n : String)
    (cs : List Node) : (⟨n, [⟨"class", cls⟩], cs⟩ : Element).hasClass st.name = false := by
  have hwords : Text.words cls = [cls] ∧ cls ≠ st.name := by
    simp only [List.mem_cons, List.not_mem_nil, or_false] at h
    rcases h with rfl | rfl | rfl | rfl <;> cases st <;> decide
  have hclasses : (⟨n, [⟨"class", cls⟩], cs⟩ : Element).classes = [cls] := hwords.1
  rw [Element.hasClass, hclasses, List.contains_cons, List.contains_nil, Bool.or_false]
  exact beq_eq_false_iff_ne.mpr hwords.2.symm

/-- The outcome at a path is one of the kind. -/
def shows (outcomes : List Recorded) (path : List Nat) (st : Status) : Bool :=
  (outcomeAt? outcomes path).any (·.status == st)

namespace Element

theorem hasClass_render (e : Element) (o : Outcome) (st : Status) :
    (e.render o).hasClass st.name = (e.hasClass st.name || o.status == st) := by
  have hkind : (st.name == o.status.name) = (o.status == st) := by
    rw [Bool.eq_iff_iff, beq_iff_eq, beq_iff_eq, Status.name_inj]
    exact eq_comm
  rw [render_eq, ← hkind, ← hasClass_addClass o.status.words_name]
  exact hasClass_of_children ..

/-- **Behind the annotation an element has its classes, and that of its own outcome.** -/
theorem hasClass_annotateAt (outcomes : List Recorded) (path : List Nat) (e : Element)
    (st : Status) : (e.annotateAt outcomes path).hasClass st.name =
      (e.hasClass st.name || shows outcomes path st) := by
  unfold annotateAt renderAt shows
  cases outcomeAt? outcomes path with
  | none =>
    rw [Option.any_none, Bool.or_false]
    exact hasClass_of_children ..
  | some o =>
    rw [Option.any_some]
    exact hasClass_render _ o st

end Element

namespace Node

theorem elementsAll_of_texts {ns : List Node} (h : ns.any Node.isElement = false) :
    elementsAll ns = [] := by
  induction ns with
  | nil => rw [elementsAll]
  | cons n rest ih =>
    rw [List.any_cons, Bool.or_eq_false_iff] at h
    cases n with
    | text s => rw [elementsAll, elements, ih h.2, List.nil_append]
    | element n as cs => exact absurd h.1 Bool.noConfusion

theorem countP_elements_plain (st : Status) {cls : String}
    (h : cls ∈ ["expected", "actual", "exceptionMessage", "stackTrace"]) (n : String)
    (cs : List Node) :
    (elements (.element n [⟨"class", cls⟩] cs)).countP (·.hasClass st.name) =
      (elementsAll cs).countP (·.hasClass st.name) := by
  rw [elements, List.countP_cons, st.not_hasClass h n cs, if_neg Bool.false_ne_true, Nat.add_zero]

theorem countP_elements_labelled (st : Status) {cls : String}
    (h : cls ∈ ["expected", "actual", "exceptionMessage", "stackTrace"]) (n s : String) :
    (elements (Element.labelled n cls s)).countP (·.hasClass st.name) = 0 := by
  rw [Element.labelled, countP_elements_plain st h, elementsAll, elements, elementsAll,
    List.nil_append, List.countP_nil]

/-- **What an outcome shows in place of children has the classes of the children.**  A failure keeps
children with elements in them, and texts have no classes to be lost. -/
theorem countP_childrenIn (o : Outcome) (cs : List Node) (st : Status) :
    (elementsAll (o.childrenIn cs)).countP (·.hasClass st.name) =
      (elementsAll cs).countP (·.hasClass st.name) := by
  cases o with
  | success => rfl
  | failure expected actual =>
    rw [Outcome.childrenIn, failureChildren, elementsAll, elementsAll, elementsAll, elementsAll,
      elements, List.nil_append, List.append_nil, List.countP_append,
      countP_elements_plain st (by simp), countP_elements_labelled st (by simp), Nat.add_zero]
    split
    · rfl
    · -- texts are replaced by a text, and neither has elements
      rename_i hnone
      have hnone : cs.any Node.isElement = false := Bool.not_eq_true _ ▸ hnone
      have htext : elementsAll [.text expected] = [] := elementsAll_of_texts rfl
      rw [elementsAll_of_texts hnone, htext]
  | exception c =>
    have hshown : (elementsAll (exceptionChildren c)).countP (·.hasClass st.name) = 0 := by
      rw [exceptionChildren, elementsAll, List.countP_append,
        countP_elements_labelled st (by simp), Nat.zero_add]
      split
      · rw [elementsAll, List.countP_nil]
      · rw [elementsAll, elementsAll, List.append_nil, countP_elements_labelled st (by simp)]
    rw [Outcome.childrenIn, elementsAll_append, List.countP_append, hshown, Nat.add_zero]

/-! ## 2. All outcomes of a document -/

theorem countP_annotateAt (outcomes : List Recorded) (path : List Nat) (e : Element)
    (st : Status) :
    (elementsAll (e.annotateAt outcomes path).children).countP (·.hasClass st.name) =
      (elementsAll (annotateAll outcomes path 0 e.children)).countP (·.hasClass st.name) := by
  unfold Element.annotateAt Element.renderAt
  split
  · rename_i o _
    rw [Element.render_eq]
    exact countP_childrenIn o _ st
  · rfl

/-- **Behind the annotation an element has the class of a kind if it had it before, or has an
outcome of that kind**, and no other element has it.  By induction on the children: what is put in
is not counted, and each element is annotated at its path. -/
theorem countP_hasClass_annotateAll (outcomes : List Recorded) (st : Status) (ns : List Node)
    (path : List Nat) (around : List Element) (i : Nat) :
    (elementsAll (annotateAll outcomes path i ns)).countP (·.hasClass st.name) =
      (placesAll path around i ns).countP fun p =>
        p.element.hasClass st.name || shows outcomes p.path st := by
  induction ns using Node.induction generalizing path around i with
  | nil => rw [annotateAll, placesAll, elementsAll, List.countP_nil, List.countP_nil]
  | text s rest ih =>
    rw [annotateAll, annotate, elementsAll, elements, placesAll, places, List.nil_append,
      List.nil_append]
    exact ih path around (i + 1)
  | element n as cs rest ihc ihr =>
    have hnode := annotate_node outcomes (path ++ [i]) ⟨n, as, cs⟩
    rw [Element.node] at hnode
    rw [annotateAll, hnode, elementsAll, Element.node, elements, placesAll, places,
      List.countP_append, List.countP_append, List.countP_cons, List.countP_cons,
      ihr path around (i + 1), countP_annotateAt, ihc (path ++ [i]) (around ++ [⟨n, as, cs⟩]) 0,
      Element.hasClass_annotateAt]

end Node

namespace Element

/-- The elements of an annotated document with the class of a kind are those that had it, and those
with an outcome of that kind. -/
theorem countP_hasClass_annotate (root : Element) (outcomes : List Recorded) (st : Status) :
    (root.annotate outcomes).descendants.countP (·.hasClass st.name) =
      root.places.countP fun p => p.element.hasClass st.name || shows outcomes p.path st := by
  rw [annotate_eq, descendants_eq, List.countP_cons, hasClass_annotateAt, Node.countP_annotateAt,
    Node.countP_hasClass_annotateAll outcomes st root.children [] [root] 0, places_eq,
    List.countP_cons]
  rfl

end Element

/-! ## 3. Counting outcomes -/

/-- Where no path has two outcomes, a path shows a kind if an outcome of it was recorded there. -/
theorem shows_iff {outcomes : List Recorded} (h : (outcomes.map (·.path)).Nodup)
    {path : List Nat} {st : Status} :
    shows outcomes path st = true ↔ ∃ x ∈ outcomes, x.path = path ∧ x.outcome.status = st := by
  unfold shows
  rw [Option.any_eq_true]
  constructor
  · rintro ⟨o, ho, hst⟩
    obtain ⟨x, hx, hpath, rfl⟩ := (outcomeAt?_eq_some_iff h).mp ho
    exact ⟨x, hx, hpath, beq_iff_eq.mp hst⟩
  · rintro ⟨x, hx, hpath, hst⟩
    exact ⟨x.outcome, (outcomeAt?_eq_some_iff h).mpr ⟨x, hx, hpath, rfl⟩, beq_iff_eq.mpr hst⟩

/-- Where every outcome has a place of its own, the places that show a kind are as many as the
outcomes of that kind.  Both lists of paths are free of repetitions and have the same members. -/
theorem countP_shows {root : Element} {outcomes : List Recorded}
    (h : (outcomes.map (·.path)).Nodup) (hplaces : ∀ x ∈ outcomes, ∃ p ∈ root.places, p.path = x.path)
    (st : Status) : (root.places.countP fun p => shows outcomes p.path st) =
      outcomes.countP (·.outcome.status == st) := by
  have hshown : ((root.places.map (·.path)).filter (shows outcomes · st)).Nodup :=
    root.places_path_nodup.filter _
  have hkind : ((outcomes.filter (·.outcome.status == st)).map (·.path)).Nodup :=
    h.sublist (List.filter_sublist.map _)
  have hperm : ((root.places.map (·.path)).filter (shows outcomes · st)).Perm
      ((outcomes.filter (·.outcome.status == st)).map (·.path)) := by
    rw [List.perm_ext_iff_of_nodup hshown hkind]
    intro path
    rw [List.mem_filter, List.mem_map, List.mem_map, shows_iff h]
    constructor
    · rintro ⟨-, x, hx, hpath, hst⟩
      exact ⟨x, List.mem_filter.mpr ⟨hx, beq_iff_eq.mpr hst⟩, hpath⟩
    · rintro ⟨x, hx, rfl⟩
      obtain ⟨hx, hst⟩ := List.mem_filter.mp hx
      exact ⟨hplaces x hx, x, hx, rfl, beq_iff_eq.mp hst⟩
  have hlength := hperm.length_eq
  rw [← List.countP_eq_length_filter, List.countP_map, List.length_map,
    ← List.countP_eq_length_filter] at hlength
  exact hlength

/-- How many elements of a document have the class of each kind of outcome. -/
def Element.classTallies (root : Element) : Counts :=
  ⟨root.descendants.countP (·.hasClass Status.success.name),
    root.descendants.countP (·.hasClass Status.failure.name),
    root.descendants.countP (·.hasClass Status.exception.name)⟩

theorem Element.exists_place_of_mem_outcomes {r : Registry} {f : Subject σ} {root : Element} {s : σ}
    {x : Recorded} (hx : x ∈ (root.evaluate r f s).outcomes) : ∃ p ∈ root.places, p.path = x.path :=
  List.mem_map.mp ((root.outcomes_sublist r f s).subset (List.mem_map_of_mem hx))

/-- For a document without classes of its own, the classes of a kind behind the annotation are as
many as the outcomes of that kind. -/
theorem Element.countP_hasClass_evaluate {r : Registry} {f : Subject σ} {root : Element} {s : σ}
    {st : Status} (h : ∀ e ∈ root.descendants, e.hasClass st.name = false) :
    (root.annotate (root.evaluate r f s).outcomes).descendants.countP (·.hasClass st.name) =
      (root.evaluate r f s).outcomes.countP (·.outcome.status == st) := by
  rw [countP_hasClass_annotate, ← countP_shows (root.outcomes_nodup r f s)
    (fun _ hx => exists_place_of_mem_outcomes hx)]
  refine List.countP_congr ?_
  intro p hp
  have hmem : p.element ∈ root.descendants := by
    rw [← places_element]
    exact List.mem_map_of_mem hp
  rw [h p.element hmem, Bool.false_or]

/-- **The classes of an annotated document agree with its outcomes.**  As many elements have the
class of a kind as had it before or have an outcome of that kind at their path; and if the document
has no such classes of its own, they are the tallies of its summary. -/
theorem Element.annotate_agrees_with_tallies (root : Element) :
    (∀ outcomes : List Recorded, (outcomes.map (·.path)).Nodup → ∀ st : Status,
      (root.annotate outcomes).descendants.countP (·.hasClass st.name) =
        root.places.countP fun p => p.element.hasClass st.name ||
          outcomes.any fun x => x.path == p.path && x.outcome.status == st) ∧
    ∀ (σ : Type) (r : Registry) (f : Subject σ) (s : σ),
      (∀ e ∈ root.descendants, ∀ st : Status, e.hasClass st.name = false) →
      (root.annotate (root.evaluate r f s).outcomes).classTallies =
        (root.evaluate r f s).summary.own := by
  constructor
  · intro outcomes hnodup st
    have hany : ∀ path : List Nat, shows outcomes path st =
        outcomes.any fun x => x.path == path && x.outcome.status == st := by
      intro path
      rw [Bool.eq_iff_iff, shows_iff hnodup, List.any_eq_true]
      simp only [Bool.and_eq_true, beq_iff_eq]
    rw [countP_hasClass_annotate]
    refine List.countP_congr ?_
    intro p _
    rw [hany p.path]
  · intro σ r f s hnone
    rw [Evaluation.summary_own, classTallies,
      countP_hasClass_evaluate fun e he => hnone e he .success,
      countP_hasClass_evaluate fun e he => hnone e he .failure,
      countP_hasClass_evaluate fun e he => hnone e he .exception]

namespace Nested

/-- A fixture with one operation, which returns `y`. -/
def fixture : Fixture Unit :=
  ⟨"a", fun _ o => if o = "f" then some ⟨"f", []⟩ else none, fun s _ _ => (.returned (.text "y"), s)⟩

/-- An assertion that fails around one that cannot complete. -/
def document : Element :=
  ⟨"p", [⟨"xmlns:c", "urn:c"⟩, ⟨"c:assertEquals", "f()"⟩, ⟨"class", "note"⟩],
    [.text "a", .element "b" [⟨"c:assertTrue", "g()"⟩] [.text "x"]]⟩

/-- A document that has the class of a failure, with a failure further inside. -/
def marked : Element := ⟨"p", [⟨"class", "note failure"⟩], [.text "a", .element "b" [] [.text "x"]]⟩

def outcomes : List Recorded :=
  [⟨[], "execute", "g()", .exception ⟨"g()", "m", ["l"]⟩⟩,
    ⟨[1], "assertEquals", "f()", .failure "x" "y"⟩]

/-- Both failures of the marked document are counted, and the classes of the other one are its
tallies. -/
theorem agrees_with_tallies :
    (outcomes.map (·.path)).Nodup ∧
    (marked.annotate outcomes).descendants.countP (·.hasClass "failure") =
      (marked.places.countP fun p => p.element.hasClass "failure" ||
        outcomes.any fun x => x.path == p.path && x.outcome.status == .failure) ∧
    (marked.places.countP fun p => p.element.hasClass "failure" ||
        outcomes.any fun x => x.path == p.path && x.outcome.status == .failure) = 2 ∧
    (∀ e ∈ document.descendants, ∀ st : Status, e.hasClass st.name = false) ∧
    (document.annotate (document.evaluate (.standard "urn:c" .exact)
        ⟨fixture, .ofPath "a"⟩ ()).outcomes).classTallies =
      (document.evaluate (.standard "urn:c" .exact) ⟨fixture, .ofPath "a"⟩ ()).summary.own ∧
    (document.evaluate (.standard "urn:c" .exact) ⟨fixture, .ofPath "a"⟩ ()).summary.own =
      ⟨0, 1, 1⟩ := by
  have hnodup : (outcomes.map (·.path)).Nodup := by decide
  have hnone : ∀ e ∈ document.descendants, ∀ st : Status, e.hasClass st.name = false := by
    rw [Element.descendants_eq]
    intro e he st
    cases st <;> revert e <;> decide
  exact ⟨hnodup, (Element.annotate_agrees_with_tallies marked).1 outcomes hnodup .failure, by decide,
    hnone, (Element.annotate_agrees_with_tallies document).2 Unit _ _ () hnone, by decide +kernel⟩

end Nested

end LivingDoc
