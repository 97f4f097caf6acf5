import LivingDoc.Proofs.Run.Stored
import LivingDoc.Proofs.Run.Nesting

/-!
# What a linked document cannot do

A run processes the document it was asked for and everything that is linked from there, and whoever
writes a linked document should not be able to spoil the one that links to it.  A linked document
may be missing or malformed, and it may link back; but by the time it is read the document around it
has been evaluated and stored, and that one is on the path until all its links are followed.

* `Runner.not_mem_path_of_stored`: nothing that is on the path is stored inside it.
* `Runner.lists_of_failing_link`: where a link fails, the links behind it are followed as well.
* `Runner.undisturbed_by_links`: two runs from sources that agree on the document come to the same
  for it, whatever the sources say of all others.
-/

namespace LivingDoc

namespace Runner

variable {σ : Type}

/-! ## 1. Loading -/

/-- A document is loaded if the source has it and it can be parsed. -/
theorem load_eq_ok_iff {u : Runner σ} {r : Resource} {root : Element} :
    u.load r = .ok root ↔ ∃ text, u.source.fetch r = .ok text ∧ Element.parse text = .ok root := by
  unfold load
  constructor
  · intro h
    split at h
    · contradiction
    · contradiction
    · rename_i text hfetch
      split at h
      · contradiction
      · rename_i hparse
        cases h
        exact ⟨text, hfetch, hparse⟩
  · rintro ⟨text, hfetch, hparse⟩
    simp only [hfetch, hparse]

theorem load_congr {u : Runner σ} {other : Source} {r : Resource}
    (h : other.fetch r = u.source.fetch r) : { u with source := other }.load r = u.load r := by
  unfold load
  rw [h]

theorem registry_other (u : Runner σ) (other : Source) :
    { u with source := other }.registry = u.registry := rfl

theorem rendered_other (u : Runner σ) (other : Source) (root : Element) (outcomes : List Recorded) :
    { u with source := other }.rendered root outcomes = u.rendered root outcomes := rfl

/-! ## 2. What is stored inside a path -/

/-- **What is on the path is not stored again**, at any depth.  By induction on the visit: it stores
its own document, which is off the path, and the visits inside it have a longer path. -/
theorem not_mem_path_of_stored {u : Runner σ} (path : List Resource) (r : Resource) (f : Fixture σ)
    (s : σ) (h : r ∉ path) {q : Resource} {text : String}
    (hstored : Event.stored q text ∈ (u.visit path r f s h).events) : q ∉ path := by
  induction path, r, f, s, h using visit_induction (u := u) with
  | step path r f s h ih =>
    obtain ⟨root, hload, ⟨rfl, -⟩ | ⟨r', g, t, h', hinside⟩⟩ := stored_of_visit hstored
    · exact h
    · exact fun hq => ih root hload r' g t h' hinside (List.mem_cons_of_mem _ hq)

/-- What the links of a document store is not the document. -/
theorem stores_followAll (u : Runner σ) (path : List Resource) (r : Resource) (links : List Link) :
    (Event.stores ((u.followAll (r :: path) links).flatMap (·.2))).filter (·.1 = r) = [] := by
  refine List.filter_eq_nil_iff.mpr ?_
  rintro ⟨q, text⟩ hmem hq
  rw [Event.mem_stores_iff] at hmem
  obtain ⟨x, hx, hstored⟩ := List.mem_flatMap.mp hmem
  unfold followAll at hx
  split at hx
  · obtain ⟨l, -, rfl⟩ := List.mem_map.mp hx
    obtain ⟨r', g, t, h', hinside⟩ := visit_of_stored_follow hstored
    have hr : q = r := of_decide_eq_true hq
    exact not_mem_path_of_stored (r :: path) r' g t h' hinside (hr ▸ List.mem_cons_self)
  · exact absurd hx List.not_mem_nil

/-! ## 3. One document -/

/-- Every text can be stored. -/
def Writes (u : Runner σ) : Prop := ∀ q, u.target.unwritable.lookup q = none

/-- A document that cannot be loaded is asked for, and nothing else happens. -/
theorem visit_of_load_error {u : Runner σ} {path : List Resource} {r : Resource} {e : RunError}
    (hload : u.load r = .error e) (f : Fixture σ) (s : σ) (h : r ∉ path) :
    u.visit path r f s h = ⟨.error e, s, [.entered r, .requested r, .left r]⟩ := by
  rw [visit_eq, hload]

/-- A document that is loaded is evaluated, stored, and its links are followed. -/
theorem visit_of_load {u : Runner σ} (hw : u.Writes) {path : List Resource} {r : Resource}
    {root : Element} (hload : u.load r = .ok root) (f : Fixture σ) (s : σ) (h : r ∉ path) :
    u.visit path r f s h =
      ⟨.ok { (root.evaluate u.registry ⟨f, r⟩ s).summary with
          children := (u.followAll (r :: path) (root.evaluate u.registry ⟨f, r⟩ s).links).map (·.1) },
        (root.evaluate u.registry ⟨f, r⟩ s).state.fixture,
        .entered r :: .requested r ::
            (root.evaluate u.registry ⟨f, r⟩ s).state.calls.map Event.called ++
          .stored r (u.rendered root (root.evaluate u.registry ⟨f, r⟩ s).outcomes) ::
          ((u.followAll (r :: path) (root.evaluate u.registry ⟨f, r⟩ s).links).flatMap (·.2) ++
            [.left r])⟩ := by
  rw [visit_eq, hload]
  simp only [hw r]

/-- The entries of a document are for the links that its evaluation found, if links are followed. -/
theorem target_followAll (u : Runner σ) (path : List Resource) (links : List Link) :
    ((u.followAll path links).map (·.1)).map Child.target =
      if u.configuration.followLinks then links.map (·.target) else [] := by
  unfold followAll
  split
  · rw [List.map_map, List.map_map]
    exact List.map_congr_left fun l _ => follow_target u path l
  · rfl

/-- The run succeeded with one entry for each link, and what happened for the links happened in
their order before the document was left. -/
def Lists (r : Resource) (run : Run σ) (followed : List (Child × List Event)) : Prop :=
  ∃ doc start, run.result = .ok doc ∧ doc.children = followed.map (·.1) ∧
    run.events = start ++ followed.flatMap (·.2) ++ [.left r]

/-- A document that is loaded lists all its links. -/
theorem lists_visit {u : Runner σ} (hw : u.Writes) {path : List Resource} {r : Resource}
    {root : Element} (hload : u.load r = .ok root) (f : Fixture σ) (s : σ) (h : r ∉ path) :
    Lists r (u.visit path r f s h)
      (u.followAll (r :: path) (root.evaluate u.registry ⟨f, r⟩ s).links) := by
  rw [visit_of_load hw hload]
  refine ⟨_, .entered r :: .requested r ::
    (root.evaluate u.registry ⟨f, r⟩ s).state.calls.map Event.called ++
      [.stored r (u.rendered root (root.evaluate u.registry ⟨f, r⟩ s).outcomes)], rfl, rfl, ?_⟩
  simp only [List.append_assoc, List.cons_append, List.nil_append]

/-- A link fails if the visit to its target does. -/
theorem follow_of_error {u : Runner σ} {path : List Resource} {l : Link} {hl : l.target ∉ path}
    {g : Fixture σ} {t : σ} (hfixture : u.provider l.target = some (g, t)) {e : RunError}
    (hfails : (u.visit path l.target g t hl).result = .error e) :
    u.follow path l = (.failed l.target e.message, (u.visit path l.target g t hl).events) := by
  unfold follow
  rw [dif_neg hl, hfixture]
  dsimp only [Run.child]
  rw [hfails]

/-- **Where a link fails, the links behind it are followed as well.**  Its entry says that it
failed, and the others are followed as they would be without it. -/
theorem lists_of_failing_link {u : Runner σ} (hw : u.Writes)
    (hfollow : u.configuration.followLinks = true) {path : List Resource} {r : Resource}
    {root : Element} (hload : u.load r = .ok root) {f : Fixture σ} {s : σ} (h : r ∉ path)
    {before after : List Link} {l : Link}
    (hlinks : (root.evaluate u.registry ⟨f, r⟩ s).links = before ++ l :: after)
    {hl : l.target ∉ r :: path} {g : Fixture σ} {t : σ} (hfixture : u.provider l.target = some (g, t))
    {e : RunError} (hfails : (u.visit (r :: path) l.target g t hl).result = .error e) :
    Lists r (u.visit path r f s h) (before.map (u.follow (r :: path)) ++
      (.failed l.target e.message, (u.visit (r :: path) l.target g t hl).events) ::
        after.map (u.follow (r :: path))) := by
  have hall := lists_visit hw hload f s h
  rw [followAll, if_pos hfollow, hlinks, List.map_append, List.map_cons,
    follow_of_error hfixture hfails] at hall
  exact hall

/-- The document of a visit is stored in it once. -/
theorem stores_visit {u : Runner σ} (hw : u.Writes) {path : List Resource} {r : Resource}
    {root : Element} (hload : u.load r = .ok root) (f : Fixture σ) (s : σ) (h : r ∉ path) :
    (Event.stores (u.visit path r f s h).events).filter (·.1 = r) =
      [(r, u.rendered root (root.evaluate u.registry ⟨f, r⟩ s).outcomes)] := by
  have hcalled : ∀ calls : List Call, Event.stores (calls.map Event.called) = [] := by
    intro calls
    induction calls with
    | nil => rfl
    | cons c rest ih => exact ih
  have hlinks := u.stores_followAll path r (root.evaluate u.registry ⟨f, r⟩ s).links
  rw [visit_of_load hw hload]
  unfold Event.stores at hcalled hlinks ⊢
  simp only [List.filterMap_append, List.filterMap_cons, List.cons_append, hcalled, hlinks,
    List.filterMap_nil, List.nil_append, List.filter_cons, decide_true, if_true, List.append_nil]

/-! ## 4. Two sources -/

/-- What is to be said of two runs of a document that their sources agree on. -/
structure Undisturbed (document : Except ReadFault String) (r : Resource)
    (a b : Except RunError Summary × List Event) : Prop where
  /-- They succeed exactly when there is a document and it can be parsed. -/
  succeeds : (∃ top, a.1 = .ok top) ↔ ∃ text root, document = .ok text ∧
    Element.parse text = .ok root
  together : (∃ top, a.1 = .ok top) ↔ ∃ top, b.1 = .ok top
  /-- When they do, its own tallies and the documents that it links to are the same, and it is stored
  once in each, with the same text. -/
  same : ∀ top top', a.1 = .ok top → b.1 = .ok top' → top.own = top'.own ∧
    top.children.map Child.target = top'.children.map Child.target ∧
    ∃ text, (Event.stores a.2).filter (·.1 = r) = [(r, text)] ∧
      (Event.stores b.2).filter (·.1 = r) = [(r, text)]
  /-- When they fail, nothing is stored, and nothing else was asked for. -/
  nothing : ∀ e, a.1 = .error e → b.1 = .error e ∧
    Event.target a.2 = .empty ∧ Event.target b.2 = .empty ∧
    Event.requests a.2 = [r] ∧ Event.requests b.2 = [r]

/-- Two visits to a document that is loaded from both sources, or from none.  What they have in
common is decided before the first link is followed, and no link stores the document again. -/
theorem undisturbed_of_fetch_eq {u : Runner σ} {other : Source} (hw : u.Writes) {r : Resource}
    (hsame : other.fetch r = u.source.fetch r) (f : Fixture σ) (s : σ) :
    Undisturbed (u.source.fetch r) r (u.run (some r) (some (f, s)))
      ({ u with source := other }.run (some r) (some (f, s))) := by
  have hw' : { u with source := other }.Writes := hw
  have hload' := load_congr hsame
  have hrun : ∀ v : Runner σ, v.run (some r) (some (f, s)) =
      ((v.visit [] r f s List.not_mem_nil).result, (v.visit [] r f s List.not_mem_nil).events) :=
    fun _ => rfl
  have hdocument : (∃ root, u.load r = .ok root) ↔
      ∃ text root, u.source.fetch r = .ok text ∧ Element.parse text = .ok root := by
    simp only [load_eq_ok_iff]
    exact exists_comm
  rw [hrun, hrun]
  cases hload : u.load r with
  | error e =>
    rw [hload] at hload' hdocument
    rw [visit_of_load_error hload, visit_of_load_error hload']
    refine ⟨⟨?_, ?_⟩, Iff.rfl, ?_, ?_⟩
    · rintro ⟨_, htop⟩
      contradiction
    · intro h
      obtain ⟨_, hroot⟩ := hdocument.mpr h
      contradiction
    · intro _ _ htop
      contradiction
    · intro _ he
      cases he
      exact ⟨rfl, rfl, rfl, rfl, rfl⟩
  | ok root =>
    rw [hload] at hload' hdocument
    have hvisit := visit_of_load hw hload f s List.not_mem_nil
    have hvisit' := visit_of_load hw' hload' f s List.not_mem_nil
    have hstored := stores_visit hw hload f s List.not_mem_nil
    have hstored' := stores_visit hw' hload' f s List.not_mem_nil
    rw [registry_other] at hvisit' hstored'
    rw [rendered_other] at hstored'
    refine ⟨⟨fun _ => hdocument.mp ⟨root, rfl⟩, fun _ => ?_⟩, ⟨fun _ => ?_, fun _ => ?_⟩, ?_, ?_⟩
    · exact ⟨_, congrArg Run.result hvisit⟩
    · exact ⟨_, congrArg Run.result hvisit'⟩
    · exact ⟨_, congrArg Run.result hvisit⟩
    · intro top top' htop htop'
      rw [hvisit] at htop
      rw [hvisit'] at htop'
      cases htop
      cases htop'
      refine ⟨rfl, ?_, _, hstored, hstored'⟩
      rw [target_followAll, target_followAll]
    · intro e he
      rw [hvisit] at he
      contradiction

/-- **Linked documents cannot disturb the document that links to them.**  Where every text can be
stored, two runs from sources that agree on the document they start from succeed both or fail both.
When they succeed, they have the same tallies and the same links for it, and stored it once with the
same text; when they fail, they did nothing but ask for it.  And at any depth a link that fails
leaves an entry for itself and does not keep the links behind it from being followed. -/
theorem undisturbed_by_links {u : Runner σ} {other : Source} (hw : u.Writes)
    (resource : Option Resource) (f : Fixture σ)
    (hsame : other.fetch (resource.getD (u.resourceFor f)) =
      u.source.fetch (resource.getD (u.resourceFor f))) (s : σ) :
    Undisturbed (u.source.fetch (resource.getD (u.resourceFor f))) (resource.getD (u.resourceFor f))
      (u.run resource (some (f, s))) ({ u with source := other }.run resource (some (f, s))) ∧
    (u.configuration.followLinks = true → ∀ (path : List Resource) (r : Resource) (root : Element)
      (g : Fixture σ) (a : σ) (h : r ∉ path), u.load r = .ok root →
      ∀ (before after : List Link) (l : Link),
        (root.evaluate u.registry ⟨g, r⟩ a).links = before ++ l :: after →
      ∀ (hl : l.target ∉ r :: path) (k : Fixture σ) (t : σ), u.provider l.target = some (k, t) →
      ∀ e, (u.visit (r :: path) l.target k t hl).result = .error e →
        Lists r (u.visit path r g a h) (before.map (u.follow (r :: path)) ++
          (.failed l.target e.message, (u.visit (r :: path) l.target k t hl).events) ::
            after.map (u.follow (r :: path)))) := by
  refine ⟨?_, fun hfollow path r root g a h hload before after l hlinks hl k t hfixture e hfails =>
    lists_of_failing_link hw hfollow hload h hlinks hfixture hfails⟩
  exact undisturbed_of_fetch_eq hw hsame f s

end Runner

/-! ### The ring with a broken document

The second document of the ring is cut short, so that it cannot be parsed. -/

namespace Ring

/-- The ring from a source where the second document is cut short. -/
def broken : Runner Unit :=
  { runner with source := ⟨runner.source.documents.add (.ofPath "b") "<a xmlns:c='urn:c'", []⟩ }

/-- The first document does not come to anything else by that, and its second link is followed. -/
theorem broken_undisturbed : broken.Writes ∧
    runner.source.fetch (.ofPath "a") = broken.source.fetch (.ofPath "a") ∧
    Runner.Undisturbed (broken.source.fetch (.ofPath "a")) (.ofPath "a")
      (broken.run (some (.ofPath "a")) (some (fixture, ())))
      (runner.run (some (.ofPath "a")) (some (fixture, ()))) ∧
    ∃ m es, Runner.Lists (.ofPath "a") (broken.process (some (.ofPath "a")) fixture ())
      [(.failed (.ofPath "b") m, es),
        broken.follow [.ofPath "a"] ⟨.ofPath "x", .ofPath "a"⟩] := by
  have hw : broken.Writes := fun _ => rfl
  have hsame : runner.source.fetch (.ofPath "a") = broken.source.fetch (.ofPath "a") := by
    decide +kernel
  have hlinks : ((broken.load (.ofPath "a")).toOption.map fun root =>
      (root.evaluate broken.registry ⟨fixture, .ofPath "a"⟩ ()).links) =
        some [⟨.ofPath "b", .ofPath "a"⟩, ⟨.ofPath "x", .ofPath "a"⟩] := by decide +kernel
  have hoff : Resource.ofPath "b" ∉ [Resource.ofPath "a"] := by decide +kernel
  have hfails : ∀ h : Resource.ofPath "b" ∉ [Resource.ofPath "a"],
      (broken.visit [.ofPath "a"] (.ofPath "b") fixture () h).result.isOk = false := by
    decide +kernel
  have hfixture : broken.provider (.ofPath "b") = some (fixture, ()) := by
    have hne : (Resource.ofPath "b" == Resource.ofPath "x") = false := by decide +kernel
    show List.lookup (Resource.ofPath "b") [(.ofPath "x", fixture, ()), (.ofPath "b", fixture, ()),
      (.ofPath "a", fixture, ())] = some (fixture, ())
    rw [List.lookup_cons, hne, List.lookup_cons_self]
  obtain ⟨hundisturbed, hgoes⟩ :=
    Runner.undisturbed_by_links hw (some (.ofPath "a")) fixture hsame ()
  obtain ⟨root, hload, hlinks⟩ := Option.map_eq_some_iff.mp hlinks
  have hload : broken.load (.ofPath "a") = .ok root := by
    cases h : broken.load (.ofPath "a") with
    | error e =>
      rw [h] at hload
      contradiction
    | ok root' =>
      rw [h] at hload
      cases hload
      rfl
  cases hvisit : (broken.visit [.ofPath "a"] (.ofPath "b") fixture () hoff).result with
  | ok doc =>
    have := hfails hoff
    rw [hvisit] at this
    contradiction
  | error e =>
    exact ⟨hw, hsame, hundisturbed, _, _, hgoes rfl [] (.ofPath "a") root fixture ()
      List.not_mem_nil hload [] _ _ hlinks hoff fixture () hfixture e hvisit⟩

end Ring

end LivingDoc
