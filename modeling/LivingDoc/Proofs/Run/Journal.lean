import LivingDoc.Proofs.Run.Nesting

/-!
# What a run reads and stores

A run leaves three records behind: the requests its source saw, the texts its target was given, and
the summary.  The first two are in the order of time and the third is a tree, and they agree: the
journal of a run is its summary read in pre-order.

* `Runner.run_journal`: what was stored is the documents that were processed, and what was asked for
  is those and the ones that failed, each before everything that it links to.
-/

namespace LivingDoc

/-! ## 1. Summaries in pre-order -/

mutual
/-- The resources of the processed documents of an entry, each before those it links to; those of
failed documents as well if `failed` holds. -/
def Child.documents (failed : Bool) : Child → List Resource
  | .processed _ r _ cs => r :: Child.documentsAll failed cs
  | .failed t _ => if failed then [t] else []
  | .revisited _ => []
  | .unresolved _ => []
/-- The resources of the documents of entries from left to right. -/
def Child.documentsAll (failed : Bool) : List Child → List Resource
  | [] => []
  | c :: rest => c.documents failed ++ Child.documentsAll failed rest
end

/-- The resource of a document and those of all documents processed from it. -/
def Summary.documents (failed : Bool) (s : Summary) : List Resource :=
  s.resource :: Child.documentsAll failed s.children

theorem Child.documentsAll_eq_flatMap (failed : Bool) (cs : List Child) :
    Child.documentsAll failed cs = cs.flatMap (Child.documents failed) := by
  induction cs with
  | nil => rfl
  | cons c rest ih => rw [Child.documentsAll, ih, List.flatMap_cons]

/-! ## 2. The journal of events -/

namespace Event

/-- The resource that an event asks for or stores, by the record that is read: requests are those
that failed documents have as well. -/
def entry (failed : Bool) : Event → Option Resource
  | .requested r => if failed then some r else none
  | .stored r _ => if failed then none else some r
  | _ => none

/-- The resources of a record, in order. -/
def journal (failed : Bool) (es : List Event) : List Resource := es.filterMap (entry failed)

@[simp] theorem journal_append (failed : Bool) (es ds : List Event) :
    journal failed (es ++ ds) = journal failed es ++ journal failed ds :=
  List.filterMap_append

@[simp] theorem journal_called (failed : Bool) (cs : List Call) :
    journal failed (cs.map Event.called) = [] := by
  induction cs with
  | nil => rfl
  | cons c rest ih => exact ih

theorem journal_flatMap {α : Type} (failed : Bool) (l : List α) (g : α → List Event) :
    journal failed (l.flatMap g) = l.flatMap fun a => journal failed (g a) := by
  induction l with
  | nil => rfl
  | cons a rest ih => rw [List.flatMap_cons, journal_append, ih, List.flatMap_cons]

theorem requests_eq_journal (es : List Event) : requests es = journal true es := by
  refine List.filterMap_congr fun e _ => ?_
  cases e <;> rfl

theorem stores_eq_journal (es : List Event) : (stores es).map (·.1) = journal false es := by
  unfold stores journal
  rw [List.map_filterMap]
  refine List.filterMap_congr fun e _ => ?_
  cases e <;> rfl

/-- A source in memory after everything that was asked for. -/
def source (d : Documents) (es : List Event) : MemorySource :=
  (requests es).foldl (fun m r => (m.fetch r).2) (.ofDocuments d)

theorem requested_source (d : Documents) (es : List Event) :
    (source d es).requested = requests es := by
  have fold : ∀ (rs : List Resource) (m : MemorySource),
      (rs.foldl (fun m r => (m.fetch r).2) m).requested = m.requested ++ rs := by
    intro rs
    induction rs with
    | nil => intro m; exact (List.append_nil _).symm
    | cons r rs ih =>
      intro m
      rw [List.foldl_cons, ih]
      exact List.append_assoc ..
  exact fold (requests es) (.ofDocuments d)

theorem stored_target (es : List Event) : (target es).stored = (stores es).map (·.1) := by
  have fold : ∀ (ss : List (Resource × String)) (t : MemoryTarget),
      (ss.foldl (fun t e => t.store e.1 e.2) t).stored = t.stored ++ ss.map (·.1) := by
    intro ss
    induction ss with
    | nil => intro t; exact (List.append_nil _).symm
    | cons e ss ih =>
      intro t
      rw [List.foldl_cons, ih, List.map_cons]
      exact List.append_assoc ..
  exact fold (stores es) .empty

end Event

namespace Runner

variable {σ : Type}

/-! ## 3. The journal is the summary -/

/-- What a visit should have written into the journal, by its result. -/
def outcomeDocuments (failed : Bool) (r : Resource) : Except RunError Summary → List Resource
  | .ok doc => doc.documents failed
  | .error _ => if failed then [r] else []

/-- A link writes what its entry says, if the visit to its target does. -/
theorem journal_follow {u : Runner σ} {failed : Bool} {path : List Resource}
    (hv : ∀ r f s h, Event.journal failed (u.visit path r f s h).events
      = outcomeDocuments failed r (u.visit path r f s h).result) (l : Link) :
    Event.journal failed (u.follow path l).2 = (u.follow path l).1.documents failed := by
  unfold follow
  split
  · rfl
  · rename_i hl
    split
    · rfl
    · rename_i g t _
      dsimp only
      rw [hv l.target g t hl]
      unfold Run.child
      split <;> rename_i hres <;> rw [hres]
      · rfl
      · rfl

/-- **A visit writes its summary into the journal,** and a visit that fails only its request.  By
induction on the visit, where each link writes what its entry says. -/
theorem journal_visit (u : Runner σ) (failed : Bool) (path : List Resource) (r : Resource)
    (f : Fixture σ) (s : σ) (h : r ∉ path) :
    Event.journal failed (u.visit path r f s h).events
      = outcomeDocuments failed r (u.visit path r f s h).result := by
  induction path, r, f, s, h using visit_induction (u := u) with
  | step path r f s h ih =>
    rw [visit_eq]
    cases hload : u.load r with
    | error e => cases failed <;> rfl
    | ok root =>
      dsimp only
      set v := root.evaluate u.registry ⟨f, r⟩ s with hv
      have hbefore : Event.journal failed
          (.entered r :: .requested r :: v.state.calls.map Event.called)
            = if failed then [r] else [] := by
        have hcalls := Event.journal_called failed v.state.calls
        cases failed
        · exact hcalls
        · exact congrArg (r :: ·) hcalls
      cases u.target.unwritable.lookup r with
      | some m =>
        rw [Event.journal_append, hbefore]
        exact List.append_nil _
      | none =>
        have hlinks : Event.journal failed ((u.followAll (r :: path) v.links).flatMap (·.2))
            = Child.documentsAll failed ((u.followAll (r :: path) v.links).map (·.1)) := by
          unfold followAll
          split
          · rw [Event.journal_flatMap, Child.documentsAll_eq_flatMap, List.flatMap_map,
              List.flatMap_map, List.flatMap_map]
            exact List.flatMap_congr fun l _ => journal_follow (ih root hload) l
          · rfl
        have hleft : Event.journal failed [.left r] = [] := rfl
        have hstored : ∀ text es, Event.journal failed (.stored r text :: es)
            = (if failed then [] else [r]) ++ Event.journal failed es := by
          intro text es
          cases failed <;> rfl
        rw [Event.journal_append, hbefore, hstored, Event.journal_append, hlinks, hleft,
          List.append_nil]
        have hres : v.summary.resource = r := Element.resource_evaluate ..
        simp only [outcomeDocuments, Summary.documents, hres]
        cases failed <;> rfl

/-- **The journal of a run is its summary.**  When a run from a source and a target in memory that
were not used before succeeds, the target was given exactly the documents that the summary has as
processed, in pre-order, and the source was asked for exactly these and the failed ones. -/
theorem run_journal {u : Runner σ} {resource : Option Resource} {f : Fixture σ} {s : σ}
    {top : Summary} (hok : (u.run resource (some (f, s))).1 = .ok top) :
    (Event.target (u.run resource (some (f, s))).2).stored = top.documents false ∧
      (Event.source u.source.documents (u.run resource (some (f, s))).2).requested
        = top.documents true := by
  have hjournal : ∀ failed, Event.journal failed (u.run resource (some (f, s))).2
      = top.documents failed := by
    intro failed
    have hvisit := journal_visit u failed [] (resource.getD (u.resourceFor f)) f s
      List.not_mem_nil
    have hresult : (u.visit [] (resource.getD (u.resourceFor f)) f s List.not_mem_nil).result
        = .ok top := hok
    rw [hresult] at hvisit
    exact hvisit
  rw [Event.stored_target, Event.stores_eq_journal, Event.requested_source,
    Event.requests_eq_journal]
  exact ⟨hjournal false, hjournal true⟩

end Runner

/-- The ring stores its two documents, and asks for the missing one behind them. -/
theorem Ring.ring_journal : ∃ top, (runner.run none (some (fixture, ()))).1 = .ok top ∧
    (Event.target (runner.run none (some (fixture, ()))).2).stored = [.ofPath "a", .ofPath "b"] ∧
    (Event.source runner.source.documents (runner.run none (some (fixture, ()))).2).requested
      = [.ofPath "a", .ofPath "b", .ofPath "x"] := by
  obtain ⟨own, own', m, hrun⟩ := run_eq
  obtain ⟨hstored, hrequested⟩ := Runner.run_journal (u := runner) hrun
  exact ⟨_, hrun, hstored, hrequested⟩

end LivingDoc
