import LivingDoc.Proofs.Run.Nesting
import Mathlib.Data.Finset.Card

/-!
# Processing with one set of active documents

`Runner.visit` is given the path of the documents it is inside of.  Here the same processing is
written with one set that is changed on the way: a document is put in when it is entered and taken
out when it is left, and each link sees the set as the link before it left it.  Nothing says that
the set is back to what it was when a linked document fails half way, and nothing says that the
calls end, so they are counted: `processWithin depth` gives up where more than `depth` of them nest.

* `Runner.processWithin_eq`: with more calls allowed than there are documents off the path, nothing
  is given up; the result is that of `visit`, and the set is what it was.
* `Runner.processWithin_restores`: so a run never nests deeper than one call for each document of
  its source and one more, and every call leaves the set of active documents as it found it.
-/

namespace LivingDoc

/-- The resources that a collection has a text for. -/
def Documents.resources (d : Documents) : Finset Resource := (d.entries.map (·.1)).toFinset

theorem Runner.mem_resources_of_load {σ : Type} {u : Runner σ} {r : Resource} {root : Element}
    (h : u.load r = .ok root) : r ∈ u.source.documents.resources := by
  obtain ⟨e, he, rfl⟩ := mem_of_load h
  exact List.mem_toFinset.mpr (List.mem_map_of_mem he)

namespace Runner

variable {σ : Type}

/-! ## 1. Processing that changes a set -/

/-- Process a document while those of the set are active: what it leaves behind and the set then, or
nothing where calls nested too deep. -/
abbrev Processing (σ : Type) :=
  Resource → Fixture σ → σ → Finset Resource → Option (Run σ × Finset Resource)

/-- Follow a link (`follow_link`): what comes of it, what happens, and the active documents then. -/
def followWith (u : Runner σ) (process : Processing σ) (l : Link) (active : Finset Resource) :
    Option ((Child × List Event) × Finset Resource) :=
  if l.target ∈ active then some ((.revisited l.target, []), active)
  else match u.provider l.target with
    | none => some ((.unresolved l.target, []), active)
    | some (g, t) => do
      let (run, active) ← process l.target g t active
      some ((run.child l.target, run.events), active)

/-- Follow links one after another, each with the active documents that the one before left. -/
def followEachWith (u : Runner σ) (process : Processing σ) :
    List Link → Finset Resource → Option (List (Child × List Event) × Finset Resource)
  | [], active => some ([], active)
  | l :: rest, active => do
    let (first, active) ← u.followWith process l active
    let (others, active) ← followEachWith u process rest active
    some (first :: others, active)

/-- Process a document that was entered (`process_entered`). -/
def processEntered (u : Runner σ) (process : Processing σ) : Processing σ := fun r f s active =>
  match u.load r with
  | .error e => some (⟨.error e, s, [.requested r]⟩, active)
  | .ok root =>
    let v := root.evaluate u.registry ⟨f, r⟩ s
    let before := .requested r :: v.state.calls.map Event.called
    match u.target.unwritable.lookup r with
    | some m => some (⟨.error (.unwritable r m), v.state.fixture, before⟩, active)
    | none => do
      let (followed, active) ←
        if u.configuration.followLinks then u.followEachWith process v.links active
        else some ([], active)
      some (⟨.ok { v.summary with children := followed.map (·.1) }, v.state.fixture,
        before ++ .stored r (u.rendered root v.outcomes) :: followed.flatMap (·.2)⟩, active)

/-- Enter a document, process it and leave it (`process_document`), whatever came of it; at most so
many calls nest. -/
def processWithin (u : Runner σ) : (depth : Nat) → Processing σ
  | 0 => fun _ _ _ _ => none
  | depth + 1 => fun r f s active => do
    let (run, active) ← u.processEntered (u.processWithin depth) r f s (insert r active)
    some ({ run with events := .entered r :: run.events ++ [.left r] }, active.erase r)

/-! ## 2. The set is the path -/

/-- Whether processing one document from `path` is a visit that leaves the set alone. -/
def VisitsFrom (u : Runner σ) (process : Processing σ) (path : List Resource) : Prop :=
  ∀ r f s (h : r ∉ path),
    process r f s path.toFinset = some (u.visit path r f s h, path.toFinset)

theorem followWith_eq {u : Runner σ} {process : Processing σ} {path : List Resource}
    (hp : u.VisitsFrom process path) (l : Link) :
    u.followWith process l path.toFinset = some (u.follow path l, path.toFinset) := by
  unfold followWith follow
  by_cases hl : l.target ∈ path
  · rw [if_pos (List.mem_toFinset.mpr hl), dif_pos hl]
  · rw [if_neg (fun h => hl (List.mem_toFinset.mp h)), dif_neg hl]
    cases u.provider l.target with
    | none => rfl
    | some gt =>
      obtain ⟨g, t⟩ := gt
      simp only [hp l.target g t hl, Option.bind_eq_bind, Option.bind_some]

/-- Links are followed independently of each other, since none leaves a trace in the set.  By
induction on the links. -/
theorem followEachWith_eq {u : Runner σ} {process : Processing σ} {path : List Resource}
    (hp : u.VisitsFrom process path) (links : List Link) :
    u.followEachWith process links path.toFinset
      = some (links.map (u.follow path), path.toFinset) := by
  induction links with
  | nil => rfl
  | cons l rest ih =>
    simp only [followEachWith, followWith_eq hp l, ih, Option.bind_eq_bind, Option.bind_some,
      List.map_cons]

theorem processEntered_eq {u : Runner σ} {process : Processing σ} {path : List Resource}
    {r : Resource} {f : Fixture σ} {s : σ} (h : r ∉ path)
    (hp : ∀ root, u.load r = .ok root → u.VisitsFrom process (r :: path)) :
    ∃ run, u.processEntered process r f s (r :: path).toFinset = some (run, (r :: path).toFinset) ∧
      u.visit path r f s h = { run with events := .entered r :: run.events ++ [.left r] } := by
  rw [visit_eq]
  unfold processEntered
  cases hload : u.load r with
  | error e => exact ⟨_, rfl, rfl⟩
  | ok root =>
    dsimp only
    cases u.target.unwritable.lookup r with
    | some m => exact ⟨_, rfl, rfl⟩
    | none =>
      unfold followAll
      by_cases hfollow : u.configuration.followLinks = true
      · simp only [if_pos hfollow, followEachWith_eq (hp root hload), Option.bind_eq_bind,
          Option.bind_some]
        exact ⟨_, rfl, by simp⟩
      · simp only [if_neg hfollow, Option.bind_eq_bind, Option.bind_some]
        exact ⟨_, rfl, by simp⟩

/-- **The set of active documents is the path.**  As long as more calls may nest than there are
documents off the path, processing with the set is a visit, and the set is restored.  By induction
on the depth: a document that was loaded is one of the source, so inside it there is one fewer off
the path. -/
theorem processWithin_eq (u : Runner σ) (depth : Nat) :
    ∀ path : List Resource, (u.source.documents.resources \ path.toFinset).card < depth →
      u.VisitsFrom (u.processWithin depth) path := by
  induction depth with
  | zero => intro path hd; exact absurd hd (Nat.not_lt_zero _)
  | succ depth ih =>
    intro path hd r f s h
    have hp : ∀ root, u.load r = .ok root → u.VisitsFrom (u.processWithin depth) (r :: path) := by
      intro root hload
      -- The document that was loaded is off the path, and on it for the calls below.
      refine ih (r :: path) (Nat.lt_of_lt_of_le (Finset.card_lt_card ?_) (Nat.lt_succ_iff.mp hd))
      have hmem : r ∈ u.source.documents.resources \ path.toFinset :=
        Finset.mem_sdiff.mpr ⟨mem_resources_of_load hload, fun hm => h (List.mem_toFinset.mp hm)⟩
      rw [List.toFinset_cons]
      refine Finset.ssubset_iff_subset_ne.mpr ⟨?_, fun heq => ?_⟩
      · exact Finset.sdiff_subset_sdiff (Finset.Subset.refl _) (Finset.subset_insert _ _)
      · rw [← heq] at hmem
        exact (Finset.mem_sdiff.mp hmem).2 (Finset.mem_insert_self _ _)
    obtain ⟨run, hrun, hvisit⟩ := processEntered_eq (f := f) (s := s) h hp
    rw [List.toFinset_cons] at hrun
    have hoff : r ∉ path.toFinset := fun hm => h (List.mem_toFinset.mp hm)
    simp only [processWithin, hrun, hvisit, Option.bind_eq_bind, Option.bind_some,
      Finset.erase_insert hoff]

/-! ## 3. Runs end, and calls balance -/

/-- **Processing ends and restores the set of active documents.**  For any links between documents,
any fixtures and any configuration, a run never nests more calls than there are documents in the
source, and one for a document that is missing; and a call on a document that is not active gives
the set of active documents back, whether it succeeds or fails. -/
theorem processWithin_restores (u : Runner σ) :
    (∀ (resource : Option Resource) (f : Fixture σ) (s : σ),
      u.processWithin (u.source.documents.resources.card + 1)
        (resource.getD (u.resourceFor f)) f s ∅ = some (u.process resource f s, ∅)) ∧
    ∀ (active : Finset Resource) (r : Resource), r ∉ active → ∀ (f : Fixture σ) (s : σ)
      (depth : Nat), (u.source.documents.resources \ active).card < depth →
        ∃ h, u.processWithin depth r f s active = some (u.visit active.toList r f s h, active) := by
  constructor
  · intro resource f s
    refine processWithin_eq u _ [] ?_ _ f s List.not_mem_nil
    rw [List.toFinset_nil, Finset.sdiff_empty]
    exact Nat.lt_succ_self _
  · intro active r hr f s depth hd
    have hlist : active.toList.toFinset = active := Finset.toList_toFinset active
    have hr' : r ∉ active.toList := fun hm => hr (Finset.mem_toList.mp hm)
    have heq := processWithin_eq u depth active.toList (by rw [hlist]; exact hd) r f s hr'
    rw [hlist] at heq
    exact ⟨hr', heq⟩

end Runner

/-- In the ring three nested calls are enough from any document that is not active. -/
theorem Ring.ring_restores : (∀ depth, 1 < depth → ∃ h,
      runner.processWithin depth (.ofPath "b") fixture () {.ofPath "a"}
        = some (runner.visit ({.ofPath "a"} : Finset Resource).toList (.ofPath "b") fixture () h,
          {.ofPath "a"})) ∧
    runner.processWithin 3 (.ofPath "a") fixture () ∅
      = some (runner.process none fixture (), ∅) := by
  have hcard : (runner.source.documents.resources \ {.ofPath "a"}).card = 1 := by decide +kernel
  constructor
  · intro depth hd
    exact (Runner.processWithin_restores runner).2 {.ofPath "a"} (.ofPath "b") (by decide +kernel)
      fixture () depth (by rw [hcard]; exact hd)
  · exact (Runner.processWithin_restores runner).1 none fixture ()

end LivingDoc
