import LivingDoc.Proofs.Evaluation.Outcomes

/-!
# What an evaluation accounts for

Behind an evaluation stand its outcomes, and everything else that is reported is read off them: the
annotation looks an outcome up by its path, and the tallies count.  Both are right only if the
outcomes are those of the commands of the document, each under the path to its element and none
twice.

* `Place.Records.length_of_asserts`, `Place.Records.status_of_not_asserts`: an assertion has one
  outcome, and any other command has one only if it could not complete.
* `Element.evaluate_accounts`: the outcomes of an evaluation go up in document order, stand where
  child indices lead to the command that they are recorded for, and are counted by the tallies.
-/

namespace LivingDoc

variable {σ : Type}

/-! ## 1. Commands that always have an outcome -/

namespace Command

/-- The command states something about the document, which holds or does not. -/
def asserts : Command → Bool
  | .assertEquals _ | .assertBoolean _ => true
  | .set | .execute | .link => false

/-- The commands that assert are those of the three names that begin with `assert` in a document. -/
theorem asserts_iff {c : Command} :
    c.asserts = true ↔ c.name ∈ ["assertEquals", "assertTrue", "assertFalse"] := by
  rcases c with _ | _ | _ | b | _
  · simp [asserts, name]
  · simp [asserts, name]
  · simp [asserts, name]
  · cases b <;> simp [asserts, name]
  · simp [asserts, name]

/-- An assertion has an outcome, whatever comes of its expression. -/
theorem isSome_run_of_asserts (f : Subject σ) {c : Command} (h : c.asserts = true) (e : Element)
    (x : String) (s : State σ) : (c.run f e x s).1.isSome = true := by
  cases c with
  | set => exact absurd h Bool.false_ne_true
  | execute => exact absurd h Bool.false_ne_true
  | link => exact absurd h Bool.false_ne_true
  | assertEquals matches? =>
    simp only [run]
    split <;> rfl
  | assertBoolean expected =>
    simp only [run]
    split <;> rfl

/-- The other commands have an outcome only if they could not complete. -/
theorem status_run_of_not_asserts (f : Subject σ) {c : Command} (h : c.asserts = false)
    {e : Element} {x : String} {s : State σ} {o : Outcome} (ho : (c.run f e x s).1 = some o) :
    o.status = .exception := by
  cases c with
  | assertEquals matches? => exact absurd h.symm Bool.false_ne_true
  | assertBoolean expected => exact absurd h.symm Bool.false_ne_true
  | set =>
    simp only [run] at ho
    split at ho
    · cases ho
    · cases ho
      rfl
  | execute =>
    simp only [run] at ho
    split at ho
    · cases ho
    · cases ho
      rfl
  | link =>
    simp only [run] at ho
    split at ho
    · cases ho
    · cases ho
      rfl

end Command

namespace Place.Records

variable {r : Registry} {f : Subject σ} {p : Place} {own : List Recorded}

theorem request_of_mem (h : p.Records r f own) {x : Recorded} (hx : x ∈ own) :
    ∃ q, p.request r = some q ∧ x.command = q.command.name ∧ x.expression = q.expression := by
  cases h with
  | idle hnone => exact absurd hx List.not_mem_nil
  | @ran q s hq =>
    obtain ⟨o, -, rfl⟩ := Request.mem_recorded.mp hx
    exact ⟨q, hq, rfl, rfl⟩

/-- **An assertion has one outcome**, also where its expression is no expression or its operation
fails. -/
theorem length_of_asserts (h : p.Records r f own) {q : Request} (hq : p.request r = some q)
    (hc : q.command.asserts = true) : own.length = 1 := by
  cases h with
  | idle hnone => exact absurd (hnone.symm.trans hq) (Option.some_ne_none q).symm
  | @ran q' s hq' =>
    obtain rfl : q' = q := Option.some.inj (hq'.symm.trans hq)
    obtain ⟨o, ho⟩ := Option.isSome_iff_exists.mp
      (q'.command.isSome_run_of_asserts f hc p.element q'.expression s)
    rw [ho]
    rfl

/-- **Any other command has an outcome only if it could not complete.** -/
theorem status_of_not_asserts (h : p.Records r f own) {q : Request} (hq : p.request r = some q)
    (hc : q.command.asserts = false) {x : Recorded} (hx : x ∈ own) :
    x.outcome.status = .exception := by
  cases h with
  | idle hnone => exact absurd hx List.not_mem_nil
  | @ran q' s hq' =>
    obtain rfl : q' = q := Option.some.inj (hq'.symm.trans hq)
    obtain ⟨o, ho, rfl⟩ := Request.mem_recorded.mp hx
    exact q'.command.status_run_of_not_asserts f hc ho

theorem length_le (h : p.Records r f own) : own.length ≤ 1 := by
  have hlength := h.sublist.length_le
  rwa [List.length_map] at hlength

theorem eq_nil_of_idle (h : p.Records r f own) (hnone : p.request r = none) : own = [] := by
  cases h with
  | idle _ => rfl
  | ran s hq => exact absurd (hnone.symm.trans hq) (Option.some_ne_none _).symm

end Place.Records

/-! ## 2. The whole document -/

/-- The outcomes of an evaluation are those of the commands of the tree, and its tallies are those
of the outcomes. -/
structure Evaluation.Accounts (r : Registry) (root : Element) (v : Evaluation σ) : Prop where
  /-- The paths go up in lexicographic order, a path before those that go on from it. -/
  ordered : v.outcomes.Pairwise (·.path < ·.path)
  /-- So no path has two outcomes. -/
  distinct : (v.outcomes.map (·.path)).Nodup
  /-- The path leads to an element with the command and the expression that are recorded. -/
  located : ∀ x ∈ v.outcomes, ∃ p : Place, p.path = x.path ∧
    root.Leads p.path p.around p.element ∧
    ∃ q, p.request r = some q ∧ x.command = q.command.name ∧ x.expression = q.expression
  /-- An assertion has one outcome. -/
  asserted : ∀ p ∈ root.places, ∀ q, p.request r = some q → q.command.asserts = true →
    v.outcomes.countP (·.path == p.path) = 1
  /-- Any other command has one only if it could not complete. -/
  reported : ∀ p ∈ root.places, ∀ q, p.request r = some q → q.command.asserts = false →
    v.outcomes.countP (·.path == p.path) ≤ 1 ∧
      ∀ x ∈ v.outcomes, x.path = p.path → x.outcome.status = .exception
  /-- An element without a command has none. -/
  silent : ∀ p ∈ root.places, p.request r = none → ∀ x ∈ v.outcomes, x.path ≠ p.path
  /-- The tallies count the outcomes, kind by kind. -/
  tallied : v.summary.own = ⟨v.outcomes.countP (·.outcome.status == .success),
    v.outcomes.countP (·.outcome.status == .failure),
    v.outcomes.countP (·.outcome.status == .exception)⟩
  /-- So they count all of them. -/
  total : v.summary.own.total = v.outcomes.length

theorem length_eq_of_status (outcomes : List Recorded) :
    outcomes.countP (·.outcome.status == .success) +
      outcomes.countP (·.outcome.status == .failure) +
      outcomes.countP (·.outcome.status == .exception) = outcomes.length := by
  induction outcomes with
  | nil => rfl
  | cons x xs ih =>
    simp only [List.countP_cons, List.length_cons]
    cases x.outcome.status <;> simp <;> omega

/-- **An evaluation accounts for the commands of its document**: its outcomes are theirs, in
document order and under the paths to their elements, and its tallies count them.  Everything
follows from the parts that the places record (`Element.records_evaluate`), since the outcomes under
the path of a place are those recorded there. -/
theorem Element.evaluate_accounts (r : Registry) (f : Subject σ) (root : Element) (s : σ) :
    (root.evaluate r f s).Accounts r root := by
  obtain ⟨parts, hparts, hall⟩ := root.records_evaluate r f s
  have hown : ∀ p ∈ root.places,
      p.Records r f ((root.evaluate r f s).outcomes.filter (·.path == p.path)) := by
    intro p hp
    rw [hall]
    exact Place.records_filter hparts root.places_path_nodup hp
  have hmem : ∀ (p : Place) (x : Recorded), x ∈ (root.evaluate r f s).outcomes →
      x.path = p.path → x ∈ (root.evaluate r f s).outcomes.filter (·.path == p.path) := by
    intro p x hx hpath
    exact List.mem_filter.mpr ⟨hx, beq_iff_eq.mpr hpath⟩
  have htallies := Evaluation.summary_own r f root s
  constructor
  case ordered => exact root.outcomes_sorted r f s
  case distinct => exact root.outcomes_nodup r f s
  case located =>
    intro x hx
    rw [hall] at hx
    obtain ⟨p, hp, own, hrecords, hx⟩ := Place.exists_records hparts hx
    exact ⟨p, (hrecords.path_eq hx).symm, mem_places_iff.mp hp, hrecords.request_of_mem hx⟩
  case asserted =>
    intro p hp q hq hc
    rw [List.countP_eq_length_filter]
    exact (hown p hp).length_of_asserts hq hc
  case reported =>
    intro p hp q hq hc
    rw [List.countP_eq_length_filter]
    refine ⟨(hown p hp).length_le, ?_⟩
    intro x hx hpath
    exact (hown p hp).status_of_not_asserts hq hc (hmem p x hx hpath)
  case silent =>
    intro p hp hnone x hx hpath
    have hx := hmem p x hx hpath
    rw [(hown p hp).eq_nil_of_idle hnone] at hx
    exact List.not_mem_nil hx
  case tallied => exact htallies
  case total =>
    rw [htallies]
    exact length_eq_of_status _

end LivingDoc
