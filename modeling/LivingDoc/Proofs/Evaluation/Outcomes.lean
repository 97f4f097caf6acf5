import LivingDoc.Annotation
import LivingDoc.Proofs.Evaluation.Fold
import Mathlib.Data.List.Forall2
import Mathlib.Data.List.Nodup

/-!
# Where outcomes are recorded

A step of the fold records an outcome under the path of its place, or none.  So the outcomes come in
parts, one for each place and in the same order: their paths are some of the paths of the places,
and no element has two outcomes.  What is rendered at an element is the one that was recorded for
it.

* `Place.records_foldl`: the outcomes of places are their parts one after the other.
* `Element.outcomes_sublist`: outcomes are recorded in document order, at most one for an element.
* `Element.outcomeAt?_evaluate`: the outcome at a path is the one that was recorded there.
-/

namespace LivingDoc

variable {σ : Type}

/-! ## 1. What is recorded at a place -/

/-- The list is what going on to the place records in some state.  The state is left open: where
outcomes stand and how many there are does not depend on it. -/
inductive Place.Records (r : Registry) (f : Subject σ) (p : Place) : List Recorded → Prop
  /-- At an element without a command nothing is recorded. -/
  | idle (none : p.request r = none) : Records r f p []
  /-- A command that runs has its outcome recorded, if it has one. -/
  | ran {q : Request} (s : State σ) (some : p.request r = some q) :
      Records r f p (q.recorded p.path (q.command.run f p.element q.expression s).1)

theorem Request.mem_recorded {q : Request} {path : List Nat} {o : Option Outcome} {x : Recorded} :
    x ∈ q.recorded path o ↔ ∃ y, o = some y ∧ x = ⟨path, q.command.name, q.expression, y⟩ := by
  cases o with
  | none => simp [recorded]
  | some y => simp [recorded]

namespace Place

/-- A step records what its place records. -/
theorem records_step (r : Registry) (f : Subject σ) (t : Stage σ) (p : Place) :
    ∃ own, p.Records r f own ∧ (p.step r f t).outcomes = t.outcomes ++ own := by
  unfold step
  split
  · rename_i q hq
    exact ⟨_, .ran (p.ready r t.state) hq, rfl⟩
  · rename_i hnone
    exact ⟨[], .idle hnone, (List.append_nil _).symm⟩

/-- **Going through places records what each of them records, one after the other.**  By induction
on the places, with the stage they begin in left open. -/
theorem records_foldl (r : Registry) (f : Subject σ) (ps : List Place) (t : Stage σ) :
    ∃ parts, List.Forall₂ (Records r f) ps parts ∧
      (ps.foldl (step r f) t).outcomes = t.outcomes ++ parts.flatten := by
  induction ps generalizing t with
  | nil => exact ⟨[], .nil, (List.append_nil _).symm⟩
  | cons p ps ih =>
    obtain ⟨own, hown, hfirst⟩ := p.records_step r f t
    obtain ⟨parts, hparts, hmore⟩ := ih (p.step r f t)
    refine ⟨own :: parts, .cons hown hparts, ?_⟩
    rw [List.foldl_cons, hmore, hfirst, List.append_assoc, List.flatten_cons]

variable {r : Registry} {f : Subject σ}

theorem Records.sublist {p : Place} {own : List Recorded} (h : p.Records r f own) :
    (own.map (·.path)).Sublist [p.path] := by
  cases h with
  | idle hnone => exact List.nil_sublist _
  | @ran q s hq =>
    cases (q.command.run f p.element q.expression s).1 with
    | none => exact List.nil_sublist _
    | some o => exact List.Sublist.refl _

theorem Records.path_eq {p : Place} {own : List Recorded} (h : p.Records r f own) {x : Recorded}
    (hx : x ∈ own) : x.path = p.path :=
  List.mem_singleton.mp (h.sublist.subset (List.mem_map_of_mem hx))

/-- The outcomes of places stand under some of their paths, in order.  So whatever holds of the
paths of a tree, that they go up and none occurs twice, holds of the outcomes as well. -/
theorem sublist_of_records {ps : List Place} {parts : List (List Recorded)}
    (h : List.Forall₂ (Records r f) ps parts) :
    (parts.flatten.map (·.path)).Sublist (ps.map (·.path)) := by
  induction h with
  | nil => exact List.nil_sublist _
  | cons hown _ ih =>
    rw [List.flatten_cons, List.map_append, List.map_cons]
    exact hown.sublist.append ih

theorem exists_records {ps : List Place} {parts : List (List Recorded)}
    (h : List.Forall₂ (Records r f) ps parts) {x : Recorded} (hx : x ∈ parts.flatten) :
    ∃ p ∈ ps, ∃ own, p.Records r f own ∧ x ∈ own := by
  induction h with
  | nil => exact absurd hx List.not_mem_nil
  | @cons p own ps parts hown _ ih =>
    rw [List.flatten_cons, List.mem_append] at hx
    rcases hx with hx | hx
    · exact ⟨p, List.mem_cons_self, own, hown, hx⟩
    · obtain ⟨q, hq, hthere⟩ := ih hx
      exact ⟨q, List.mem_cons_of_mem p hq, hthere⟩

/-- Where no two places have one path, the outcomes under the path of a place are those recorded
there.  By induction on the places: either this is the place, and nothing of the others is under its
path, or nothing of this one is. -/
theorem records_filter {ps : List Place} {parts : List (List Recorded)}
    (h : List.Forall₂ (Records r f) ps parts) (hpaths : (ps.map (·.path)).Nodup) {p : Place}
    (hp : p ∈ ps) : p.Records r f (parts.flatten.filter (·.path == p.path)) := by
  induction h with
  | nil => exact absurd hp List.not_mem_nil
  | @cons first own ps parts hown hparts ih =>
    rw [List.map_cons, List.nodup_cons] at hpaths
    rw [List.flatten_cons, List.filter_append]
    rcases List.mem_cons.mp hp with rfl | hp
    · -- all of the first part stands under the path, and nothing of the others does
      have hall : own.filter (·.path == p.path) = own := by
        rw [List.filter_eq_self]
        intro x hx
        exact beq_iff_eq.mpr (hown.path_eq hx)
      have hnone : parts.flatten.filter (·.path == p.path) = [] := by
        rw [List.filter_eq_nil_iff]
        intro x hx hpath
        have hmem := (sublist_of_records hparts).subset (List.mem_map_of_mem hx)
        rw [beq_iff_eq.mp hpath] at hmem
        exact hpaths.1 hmem
      rw [hall, hnone, List.append_nil]
      exact hown
    · have hnone : own.filter (·.path == p.path) = [] := by
        rw [List.filter_eq_nil_iff]
        intro x hx hpath
        have hsame : first.path = p.path := (hown.path_eq hx).symm.trans (beq_iff_eq.mp hpath)
        exact hpaths.1 (hsame ▸ List.mem_map_of_mem hp)
      rw [hnone, List.nil_append]
      exact ih hpaths.2 hp

end Place

/-! ## 2. The outcomes of a document -/

/-- The outcomes of a document are those recorded at its places. -/
theorem Element.records_evaluate (r : Registry) (f : Subject σ) (root : Element) (s : σ) :
    ∃ parts, List.Forall₂ (Place.Records r f) root.places parts ∧
      (root.evaluate r f s).outcomes = parts.flatten := by
  obtain ⟨parts, hparts, hall⟩ := Place.records_foldl r f root.places ⟨[], .start s⟩
  refine ⟨parts, hparts, ?_⟩
  rw [evaluate_eq_fold, fold, hall, List.nil_append]

/-- **Outcomes are recorded in document order, at most one for an element.** -/
theorem Element.outcomes_sublist (r : Registry) (f : Subject σ) (root : Element) (s : σ) :
    ((root.evaluate r f s).outcomes.map (·.path)).Sublist (root.places.map (·.path)) := by
  obtain ⟨parts, hparts, hall⟩ := root.records_evaluate r f s
  rw [hall]
  exact Place.sublist_of_records hparts

theorem Element.outcomes_sorted (r : Registry) (f : Subject σ) (root : Element) (s : σ) :
    (root.evaluate r f s).outcomes.Pairwise (·.path < ·.path) := by
  have hplaces : (root.places.map (·.path)).Pairwise (· < ·) :=
    List.pairwise_map.mpr root.places_sorted
  exact List.pairwise_map.mp (hplaces.sublist (root.outcomes_sublist r f s))

theorem Element.outcomes_nodup (r : Registry) (f : Subject σ) (root : Element) (s : σ) :
    ((root.evaluate r f s).outcomes.map (·.path)).Nodup :=
  (root.outcomes_sublist r f s).nodup root.places_path_nodup

/-- The outcome at a path is one that was recorded there; where no path has two, it is the one.
Without that condition it is the last one recorded. -/
theorem outcomeAt?_eq_some_iff {outcomes : List Recorded}
    (h : (outcomes.map (·.path)).Nodup) {path : List Nat} {o : Outcome} :
    outcomeAt? outcomes path = some o ↔ ∃ x ∈ outcomes, x.path = path ∧ x.outcome = o := by
  unfold outcomeAt?
  rw [Option.map_eq_some_iff]
  constructor
  · rintro ⟨x, hx, rfl⟩
    have hpath := List.find?_some hx
    exact ⟨x, List.mem_reverse.mp (List.mem_of_find?_eq_some hx), beq_iff_eq.mp hpath, rfl⟩
  · rintro ⟨x, hx, hpath, rfl⟩
    cases hfound : outcomes.reverse.find? (·.path == path) with
    | none =>
      have hnone := List.find?_eq_none.mp hfound x (List.mem_reverse.mpr hx)
      exact absurd (beq_iff_eq.mpr hpath) hnone
    | some y =>
      have hy := List.mem_reverse.mp (List.mem_of_find?_eq_some hfound)
      have hthere := List.find?_some hfound
      have hsame : y.path = x.path := (beq_iff_eq.mp hthere).trans hpath.symm
      exact ⟨y, rfl, congrArg Recorded.outcome (List.inj_on_of_nodup_map h hy hx hsame)⟩

/-- **The outcome at a path is the one that the evaluation recorded there.** -/
theorem Element.outcomeAt?_evaluate (r : Registry) (f : Subject σ) (root : Element) (s : σ)
    (path : List Nat) (o : Outcome) :
    outcomeAt? (root.evaluate r f s).outcomes path = some o ↔
      ∃ x ∈ (root.evaluate r f s).outcomes, x.path = path ∧ x.outcome = o :=
  outcomeAt?_eq_some_iff (root.outcomes_nodup r f s)

end LivingDoc
