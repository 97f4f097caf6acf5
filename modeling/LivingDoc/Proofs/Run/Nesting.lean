import LivingDoc.Run.Process
import Mathlib.Data.List.Nodup
import Mathlib.Tactic.Set

/-!
# The documents a summary holds

A summary holds the summaries of the documents that were processed from it, so it is a tree whose
branches are chains of documents, each linked from the one around it.  A run keeps the documents it
is inside of on a path, and the claim of this module is that the path is in the result: what a run
did at a document can be read off the chain that leads to it.

* `Runner.visited_of_chain`: every summary in the tree is what came of visiting its document with
  the documents around it as the path.
* `Runner.chain_recounts`: so no chain repeats a resource, and the entries of every document are its
  links, each revisited, unresolved or processed for the reason it should be.
-/

namespace LivingDoc

/-! ## 1. Chains -/

/-- The summaries lead from one in the tree of `top` out to `top`, the innermost first, each the
entry for a link of the next. -/
inductive Summary.Chain (top : Summary) : List Summary → Prop
  | top : Chain top [top]
  | nested {doc : Summary} {outer : List Summary} {target resource : Resource} {own : Counts}
      {children : List Child} (chain : Chain top (doc :: outer))
      (entry : Child.processed target resource own children ∈ doc.children) :
      Chain top (⟨resource, own, children⟩ :: doc :: outer)

namespace Runner

variable {σ : Type}

/-! ## 2. What a visit and a link come to -/

/-- A visit that succeeds loaded its document and stored it, and gave an entry for every link that
was followed. -/
theorem visit_eq_ok {u : Runner σ} {path : List Resource} {r : Resource} {f : Fixture σ} {s : σ}
    {h : r ∉ path} {doc : Summary} (hok : (u.visit path r f s h).result = .ok doc) :
    ∃ root, u.load r = .ok root ∧ u.target.unwritable.lookup r = none ∧
      doc = { (root.evaluate u.registry ⟨f, r⟩ s).summary with
        children := (u.followAll (r :: path) (root.evaluate u.registry ⟨f, r⟩ s).links).map
          (·.1) } := by
  rw [visit_eq] at hok
  split at hok
  · simp at hok
  · rename_i root hload
    dsimp only at hok
    split at hok
    · simp at hok
    · rename_i hw
      simp only [Except.ok.injEq] at hok
      exact ⟨root, hload, hw, hok.symm⟩

theorem visit_resource {u : Runner σ} {path : List Resource} {r : Resource} {f : Fixture σ} {s : σ}
    {h : r ∉ path} {doc : Summary} (hok : (u.visit path r f s h).result = .ok doc) :
    doc.resource = r := by
  obtain ⟨root, -, -, rfl⟩ := visit_eq_ok hok
  exact Element.resource_evaluate ..

theorem follow_target (u : Runner σ) (path : List Resource) (l : Link) :
    (u.follow path l).1.target = l.target := by
  unfold follow
  split
  · rfl
  · split
    · rfl
    · dsimp only [Run.child]
      split <;> rfl

/-- A link is revisited exactly when its target is on the path. -/
theorem follow_revisited_iff (u : Runner σ) (path : List Resource) (l : Link) :
    (u.follow path l).1 = .revisited l.target ↔ l.target ∈ path := by
  unfold follow
  split
  · rename_i hl
    exact ⟨fun _ => hl, fun _ => rfl⟩
  · rename_i hl
    refine ⟨fun h => absurd h ?_, fun h => absurd h hl⟩
    split
    · simp
    · dsimp only [Run.child]
      split <;> simp [Summary.child]

/-- A link off the path is unresolved exactly when there is no fixture for its target. -/
theorem follow_unresolved_iff (u : Runner σ) {path : List Resource} {l : Link}
    (hl : l.target ∉ path) :
    (u.follow path l).1 = .unresolved l.target ↔ u.provider l.target = none := by
  unfold follow
  rw [dif_neg hl]
  split
  · rename_i hp
    exact ⟨fun _ => hp, fun _ => rfl⟩
  · rename_i g t hp
    refine ⟨fun h => absurd h ?_, fun h => absurd (hp.symm.trans h) (by simp)⟩
    dsimp only [Run.child]
    split <;> simp [Summary.child]

/-- A processed link is off the path, and its entry holds the summary of a visit to its target with
the fixture that the provider has for it. -/
theorem follow_processed {u : Runner σ} {path : List Resource} {l : Link} {t r : Resource}
    {own : Counts} {cs : List Child} (h : (u.follow path l).1 = .processed t r own cs) :
    t = l.target ∧ ∃ g a, ∃ hl : l.target ∉ path, u.provider l.target = some (g, a) ∧
      (u.visit path l.target g a hl).result = .ok ⟨r, own, cs⟩ := by
  unfold follow at h
  split at h
  · simp at h
  · rename_i hl
    split at h
    · simp at h
    · rename_i g a hp
      dsimp only [Run.child] at h
      split at h
      · rename_i doc hok
        simp only [Summary.child, Child.processed.injEq] at h
        obtain ⟨rfl, rfl, rfl, rfl⟩ := h
        exact ⟨rfl, g, a, hl, hp, hok⟩
      · simp at h

/-! ## 3. The path is in the result -/

/-- The fixture a document was evaluated against, by the documents around it: the one that was given
at the top, and that of the provider below. -/
def fixtureAt (u : Runner σ) (f : Fixture σ) (s : σ) (outer : List Summary) (r : Resource) :
    Option (Fixture σ × σ) :=
  match outer with
  | [] => some (f, s)
  | _ :: _ => u.provider r

/-- The innermost summary is what came of visiting its document with the others as the path. -/
def Visited (u : Runner σ) (f : Fixture σ) (s : σ) : List Summary → Prop
  | [] => False
  | doc :: outer => ∃ g a, ∃ h : doc.resource ∉ outer.map (·.resource),
      u.fixtureAt f s outer doc.resource = some (g, a) ∧
        (u.visit (outer.map (·.resource)) doc.resource g a h).result = .ok doc

/-- **The path is the chain.**  Down every chain from the result of a run the visits nest with
exactly the documents of the chain on the path, so the chain repeats no resource.  By induction on
the chain, from the result inwards. -/
theorem visited_of_chain {u : Runner σ} {r : Resource} {f : Fixture σ} {s : σ} {top : Summary}
    (hok : (u.visit [] r f s List.not_mem_nil).result = .ok top) {docs : List Summary}
    (hc : top.Chain docs) : u.Visited f s docs ∧ (docs.map (·.resource)).Nodup := by
  induction hc with
  | top =>
    obtain rfl := visit_resource hok
    exact ⟨⟨f, s, List.not_mem_nil, rfl, hok⟩, List.nodup_singleton _⟩
  | @nested doc outer t r' own cs _ entry ih =>
    obtain ⟨⟨g, a, hout, -, hdoc⟩, hnd⟩ := ih
    obtain ⟨root, -, -, hcs⟩ := visit_eq_ok hdoc
    -- The entry is one of those that following the document's links gave.
    rw [hcs] at entry
    simp only [followAll] at entry
    split at entry
    · rw [List.map_map, List.mem_map] at entry
      obtain ⟨l, -, hl⟩ := entry
      obtain ⟨-, g', a', hoff, hp, hin⟩ := follow_processed hl
      obtain rfl : r' = l.target := visit_resource hin
      exact ⟨⟨g', a', hoff, hp, hin⟩, List.nodup_cons.mpr ⟨hoff, hnd⟩⟩
    · simp at entry

/-! ## 4. What the entries say -/

/-- The entries of `doc`, whose document is the first of the resources `enclosing`, recount its
links when it is evaluated against the fixture. -/
structure Recounts (u : Runner σ) (f : Fixture σ) (s : σ) (enclosing : List Resource)
    (doc : Summary) : Prop where
  /-- A link is revisited exactly when it leads back to an enclosing document. -/
  revisited : ∀ c ∈ doc.children, c = .revisited c.target ↔ c.target ∈ enclosing
  /-- Any other link is unresolved exactly when there is no fixture for its document. -/
  unresolved : ∀ c ∈ doc.children, c.target ∉ enclosing →
    (c = .unresolved c.target ↔ u.provider c.target = none)
  /-- A processed link has the summary of its own target. -/
  processed : ∀ t r own cs, Child.processed t r own cs ∈ doc.children → r = t
  /-- There is one entry for each link that evaluating the document found, in order. -/
  links : ∃ root, u.load doc.resource = .ok root ∧
    doc.children.map (·.target) = (root.evaluate u.registry ⟨f, doc.resource⟩ s).links.map (·.target)

/-- Following all links of a document leaves entries that recount them. -/
theorem recounts_of_visit {u : Runner σ} (hfollow : u.configuration.followLinks = true)
    {path : List Resource} {r : Resource} {f : Fixture σ} {s : σ} {h : r ∉ path} {doc : Summary}
    (hok : (u.visit path r f s h).result = .ok doc) : u.Recounts f s (r :: path) doc := by
  obtain ⟨root, hload, -, rfl⟩ := visit_eq_ok hok
  set links := (root.evaluate u.registry ⟨f, r⟩ s).links with hlinks
  have hall : (u.followAll (r :: path) links).map (·.1)
      = links.map fun l => (u.follow (r :: path) l).1 := by
    simp [followAll, hfollow, Function.comp_def]
  refine ⟨?_, ?_, ?_, ⟨root, ?_, ?_⟩⟩
  · intro c hc
    rw [hall] at hc
    obtain ⟨l, -, rfl⟩ := List.mem_map.mp hc
    rw [follow_target]
    exact follow_revisited_iff u _ l
  · intro c hc hoff
    rw [hall] at hc
    obtain ⟨l, -, rfl⟩ := List.mem_map.mp hc
    rw [follow_target] at hoff ⊢
    exact follow_unresolved_iff u hoff
  · intro t r' own cs hc
    rw [hall] at hc
    obtain ⟨l, -, hl⟩ := List.mem_map.mp hc
    obtain ⟨rfl, g, a, hoff, -, hin⟩ := follow_processed hl
    exact visit_resource hin
  · rw [Element.resource_evaluate]
    exact hload
  · rw [Element.resource_evaluate, hall, List.map_map]
    exact List.map_congr_left fun l _ => follow_target u _ l

/-- **A run recounts what it did.**  When links are followed and a run succeeds with a summary,
then down every chain in it no resource is repeated, and the innermost document has one entry for
each link that its evaluation found, revisited for the documents of the chain, unresolved for want
of a fixture, and else processed or failed. -/
theorem chain_recounts {u : Runner σ} (hfollow : u.configuration.followLinks = true)
    {resource : Option Resource} {f : Fixture σ} {s : σ} {top : Summary}
    (hok : (u.run resource (some (f, s))).1 = .ok top) {doc : Summary} {outer : List Summary}
    (hc : top.Chain (doc :: outer)) :
    top.resource = resource.getD (u.resourceFor f) ∧
      ((doc :: outer).map (·.resource)).Nodup ∧
        ∃ g a, u.fixtureAt f s outer doc.resource = some (g, a) ∧
          u.Recounts g a ((doc :: outer).map (·.resource)) doc := by
  have hvisit : (u.visit [] (resource.getD (u.resourceFor f)) f s List.not_mem_nil).result
      = .ok top := hok
  obtain ⟨⟨g, a, _, hfix, hin⟩, hnd⟩ := visited_of_chain hvisit hc
  exact ⟨visit_resource hvisit, hnd, g, a, hfix, recounts_of_visit hfollow hin⟩

end Runner

/-! ### Two documents in a ring

A document links to a second one, which links back, and to a third one, which is missing. -/

namespace Ring

def fixture : Fixture Unit := ⟨"a", fun _ _ => none, fun s _ _ => (.raised "" [], s)⟩

/-- The two documents, and fixtures for them and for the missing one. -/
def runner : Runner Unit where
  configuration := ⟨"urn:c", "", false, true⟩
  custom := []
  comparator := .exact
  source := ⟨.ofList [(.ofPath "a", "<a xmlns:c='urn:c'><p c:link='b'/><p c:link='x'/></a>"),
    (.ofPath "b", "<a xmlns:c='urn:c' c:link='a'/>")], []⟩
  target := ⟨[]⟩
  provider := .catalog [(.ofPath "a", fixture, ()), (.ofPath "b", fixture, ()),
    (.ofPath "x", fixture, ())]

/-- The first document was run, the second one in it, which led back; the third one was missing. -/
def isRing : Except RunError Summary → Bool
  | .ok ⟨a, _, [.processed b b' _ [.revisited a'], .failed x _]⟩ =>
    decide (a = .ofPath "a" ∧ b = .ofPath "b" ∧ b' = b ∧ a' = a ∧ x = .ofPath "x")
  | _ => false

/-- The entries of a run from the first document. -/
theorem run_eq : ∃ own own' m, (runner.run none (some (fixture, ()))).1 = .ok ⟨.ofPath "a", own,
    [.processed (.ofPath "b") (.ofPath "b") own' [.revisited (.ofPath "a")],
      .failed (.ofPath "x") m]⟩ := by
  have h : isRing (runner.run none (some (fixture, ()))).1 = true := by decide +kernel
  unfold isRing at h
  split at h
  · rename_i hrun
    obtain ⟨rfl, rfl, rfl, rfl, rfl⟩ := of_decide_eq_true h
    exact ⟨_, _, _, hrun⟩
  · exact absurd h (by simp)

/-- The chain to the second document holds both, and its link back is revisited. -/
theorem ring_recounts : ∃ top doc outer, (runner.run none (some (fixture, ()))).1 = .ok top ∧
    top.Chain (doc :: outer) ∧
    (doc :: outer).map (·.resource) = [.ofPath "b", .ofPath "a"] ∧
    ((doc :: outer).map (·.resource)).Nodup ∧
    ∃ g a, runner.fixtureAt fixture () outer doc.resource = some (g, a) ∧
      runner.Recounts g a ((doc :: outer).map (·.resource)) doc := by
  obtain ⟨own, own', m, hrun⟩ := run_eq
  have hc : Summary.Chain ⟨.ofPath "a", own,
      [.processed (.ofPath "b") (.ofPath "b") own' [.revisited (.ofPath "a")],
        .failed (.ofPath "x") m]⟩ [⟨.ofPath "b", own', [.revisited (.ofPath "a")]⟩, _] :=
    .nested .top List.mem_cons_self
  obtain ⟨-, hnd, hrec⟩ := Runner.chain_recounts (u := runner) rfl hrun hc
  exact ⟨_, _, _, hrun, hc, rfl, hnd, hrec⟩

end Ring

end LivingDoc
