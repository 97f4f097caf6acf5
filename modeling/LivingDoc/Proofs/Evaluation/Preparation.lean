import LivingDoc.Proofs.Evaluation.Steps
import Mathlib.Data.List.Induction
import Mathlib.Data.List.Nodup

/-!
# What is set up before a command runs

Before the command of an element runs, all commands inside the element are set up, at any depth and
below other commands too.  Only a `set` command does something then: it stores the text of its
element.  So what a variable holds when the command runs is decided by the last place inside that
sets it, and if there is none the variable is as the walk found it.

* `Element.mem_below_iff`: what is set up at a place are the places of the tree that lie inside it.
* `Place.get?_foldl_setUp`: of the places that are set up, the last that sets a variable counts.
* `Element.delivers_nested_texts`: so every command of a document runs with the texts of the
  elements inside its own, and nothing else is done for it.
-/

namespace LivingDoc

variable {σ : Type}

/-! ## 1. Places that set a variable -/

theorem Command.targetVariable_eq_ok_iff {x v : String} :
    targetVariable x = .ok v ↔ Expression.read x = .ok (.var v) := by
  unfold targetVariable
  split <;> rename_i h <;> simp_all

namespace Place

/-- The command at a place is a `set` command for this variable, which its expression has to
name. -/
def Sets (r : Registry) (p : Place) (v : String) : Prop :=
  ∃ x, p.request r = some ⟨.set, x⟩ ∧ Expression.read x = .ok (.var v)

/-- A place lies inside another: child indices lead on to it. -/
def Inside (d p : Place) : Prop := ∃ i tail, d.path = p.path ++ i :: tail

/-- A place is the last, of those of a tree inside another, that sets a variable.  Last in document
order: its path comes behind those of all others. -/
structure LastSets (r : Registry) (root : Element) (d p : Place) (v : String) : Prop where
  mem : d ∈ root.places
  inside : d.Inside p
  sets : d.Sets r v
  last : ∀ d' ∈ root.places, d'.Inside p → d'.Sets r v → d' = d ∨ d'.path < d.path

/-! ## 2. Setting up one place after another -/

/-- A place that sets a variable leaves the text of its element in it. -/
theorem get?_setUp_of_sets {r : Registry} {p : Place} {v : String} (h : p.Sets r v) (s : State σ) :
    (setUp r s p).vars.get? v = some (.text (Text.normalized p.element.textContent)) := by
  obtain ⟨x, hq, hx⟩ := h
  have hv : Command.targetVariable x = .ok v := Command.targetVariable_eq_ok_iff.mpr hx
  simp only [setUp, hq, Command.setUp, hv, State.setVariable, Variables.get?_set, if_true,
    Element.textValue]

theorem get?_setUp_of_not_sets {r : Registry} {p : Place} {v : String} (h : ¬ p.Sets r v)
    (s : State σ) : (setUp r s p).vars.get? v = s.vars.get? v := by
  unfold setUp
  cases hq : p.request r with
  | none => rfl
  | some q =>
    obtain ⟨c, x⟩ := q
    cases c with
    | set =>
      cases hw : Command.targetVariable x with
      | error cause => simp only [Command.setUp, hw]
      | ok w =>
        have hne : v ≠ w := by
          rintro rfl
          exact h ⟨x, hq, Command.targetVariable_eq_ok_iff.mp hw⟩
        simp only [Command.setUp, hw, State.setVariable, Variables.get?_set, if_neg hne]
    | execute => rfl
    | assertEquals matches? => rfl
    | assertBoolean expected => rfl
    | link => rfl

/-- **The last place that sets a variable counts;** if none does, the variable is left alone.  By
induction on the places from the last one, which decides if it sets the variable and changes nothing
if it does not. -/
theorem get?_foldl_setUp (r : Registry) (v : String) (ps : List Place) (s : State σ) :
    (∃ before d after, ps = before ++ d :: after ∧ d.Sets r v ∧ (∀ d' ∈ after, ¬ d'.Sets r v) ∧
      (ps.foldl (setUp r) s).vars.get? v =
        some (.text (Text.normalized d.element.textContent))) ∨
    (∀ d ∈ ps, ¬ d.Sets r v) ∧ (ps.foldl (setUp r) s).vars.get? v = s.vars.get? v := by
  -- from the back, since the last place decides
  induction ps using List.reverseRecOn with
  | nil => exact .inr ⟨by simp, rfl⟩
  | append_singleton ps p ih =>
    rw [List.foldl_append, List.foldl_cons, List.foldl_nil]
    by_cases hp : p.Sets r v
    · exact .inl ⟨ps, p, [], rfl, hp, by simp, get?_setUp_of_sets hp _⟩
    · rw [get?_setUp_of_not_sets hp]
      rcases ih with ⟨before, d, after, rfl, hd, hafter, hget⟩ | ⟨hnone, hget⟩
      · refine .inl ⟨before, d, after ++ [p], by simp, hd, ?_, hget⟩
        simpa [or_imp, forall_and] using ⟨hafter, hp⟩
      · refine .inr ⟨?_, hget⟩
        simpa [or_imp, forall_and] using ⟨hnone, hp⟩

end Place

/-! ## 3. The places inside a place -/

theorem Element.place_unique {root : Element} {p q : Place} (hp : p ∈ root.places)
    (hq : q ∈ root.places) (h : p.path = q.path) : p = q :=
  List.inj_on_of_nodup_map root.places_path_nodup hp hq h

/-- **What is set up at a place of a tree are the places of the tree inside it.**  From left to
right by the paths of the places below; from right to left by induction on the way that leads to the
place from the root. -/
theorem Element.mem_below_iff {root : Element} {p d : Place} (hp : p ∈ root.places) :
    d ∈ p.below ↔ d ∈ root.places ∧ d.Inside p := by
  constructor
  · intro h
    obtain ⟨i, tail, -, hpath⟩ := Node.path_of_mem_placesAll _ h
    exact ⟨below_subset_places hp h, i, tail, hpath⟩
  · rintro ⟨hd, i, tail, hpath⟩
    suffices ∀ path around e, root.Leads path around e → ∀ i tail, path = p.path ++ i :: tail →
        (⟨path, around, e⟩ : Place) ∈ p.below from
      this d.path d.around d.element (mem_places_iff.mp hd) i tail hpath
    intro path around e h
    induction h with
    | root =>
      intro i tail hnil
      exact absurd hnil.symm (List.append_ne_nil_of_right_ne_nil _ (List.cons_ne_nil i tail))
    | @child path around e c j outer here ih =>
      intro i tail hpath
      have hchild : (⟨path ++ [j], around ++ [e], c⟩ : Place) ∈ Place.below ⟨path, around, e⟩ := by
        have := Node.mem_placesAll_of_get e.children path (around ++ [e]) 0 here
        rwa [Nat.zero_add] at this
      -- the parent is the place itself, or inside it too
      rcases List.eq_nil_or_concat tail with rfl | ⟨tail, k, rfl⟩
      · have hparent : path = p.path := (List.append_inj' hpath rfl).1
        have : (⟨path, around, e⟩ : Place) = p :=
          place_unique (mem_places_iff.mpr outer) hp hparent
        rwa [← this]
      · rw [List.concat_eq_append, ← List.cons_append, ← List.append_assoc] at hpath
        have hparent : path = p.path ++ i :: tail := (List.append_inj' hpath rfl).1
        exact Node.below_subset_placesAll _ (ih i tail hparent) hchild

/-- The last of the places below that sets a variable is the last in document order, since the
places of a tree go up. -/
theorem Place.lastSets_of_below {r : Registry} {root : Element} {p d : Place} {v : String}
    {before after : List Place} (hp : p ∈ root.places) (hbelow : p.below = before ++ d :: after)
    (hd : d.Sets r v) (hafter : ∀ d' ∈ after, ¬ d'.Sets r v) : d.LastSets r root p v := by
  have hsorted : (before ++ d :: after).Pairwise (·.path < ·.path) :=
    hbelow ▸ Node.placesAll_sorted ..
  have hmem : d ∈ p.below := by simp [hbelow]
  refine ⟨((Element.mem_below_iff hp).mp hmem).1, ((Element.mem_below_iff hp).mp hmem).2, hd, ?_⟩
  intro d' hd' hinside hsets
  have hmem' : d' ∈ before ++ d :: after := hbelow ▸ (Element.mem_below_iff hp).mpr ⟨hd', hinside⟩
  rcases List.mem_append.mp hmem' with h | h
  · exact .inr ((List.pairwise_append.mp hsorted).2.2 d' h d List.mem_cons_self)
  · rcases List.mem_cons.mp h with rfl | h
    · exact .inl rfl
    · exact absurd hsets (hafter d' h)

/-! ## 4. What a command runs with -/

/-- What is done at a place of a tree for its command, and how the command runs then. -/
structure Place.Delivers (r : Registry) (f : Subject σ) (root : Element) (p : Place)
    (before after : Stage σ) : Prop where
  /-- At an element without a command nothing is done. -/
  idle : p.request r = none → after = before
  /-- A variable holds the text of the last element inside that sets it; if there is none, it holds
  what it held when the walk got to the place. -/
  texts : ∀ v,
    (∃ d : Place, d.LastSets r root p v ∧
      (p.ready r before.state).vars.get? v =
        some (.text (Text.normalized d.element.textContent))) ∨
    (∀ d ∈ root.places, d.Inside p → ¬ d.Sets r v) ∧
      (p.ready r before.state).vars.get? v = before.state.vars.get? v
  /-- The fixture is not called and no link is added. -/
  untouched : p.ready r before.state =
    { before.state with vars := (p.ready r before.state).vars }
  /-- This is what the recursion through the children of the element comes to, -/
  recursion : Node.setUpAll r p.scope p.element.children before.state = p.ready r before.state
  /-- and a walk that has opened the element too: it records nothing, runs no command, and is back
  at the element in the end. -/
  walked : ∀ w : Walk σ, w.scope = p.scope → w.state = before.state →
    w.setUpAll r p.element.children = { w with state := p.ready r before.state }
  /-- The command runs in the state that is set up, and what comes of it is all that is recorded. -/
  run : ∀ q, p.request r = some q → after =
    ⟨before.outcomes ++ q.recorded p.path
        (q.command.run f p.element q.expression (p.ready r before.state)).1,
      (q.command.run f p.element q.expression (p.ready r before.state)).2⟩

/-- A step of the fold sets up the places inside and runs the command. -/
theorem Place.delivers_step (r : Registry) (f : Subject σ) {root : Element} {p : Place}
    (hp : p ∈ root.places) (t : Stage σ) : p.Delivers r f root t (p.step r f t) where
  idle hnone := by simp only [step, hnone]
  texts v := by
    rcases get?_foldl_setUp r v p.below t.state with
      ⟨before, d, after, hbelow, hd, hafter, hget⟩ | ⟨hnone, hget⟩
    · exact .inl ⟨d, lastSets_of_below hp hbelow hd hafter, hget⟩
    · refine .inr ⟨fun d hd hinside => ?_, hget⟩
      exact hnone d ((Element.mem_below_iff hp).mpr ⟨hd, hinside⟩)
  untouched := foldl_setUp r p.below t.state
  recursion := ready_eq r p t.state
  walked w hscope hstate := by
    rw [Walk.setUpAll_eq, hscope, hstate, ready_eq]
  run q hq := by simp only [step, hq]

/-- **Every command runs with the texts of the elements inside its own.**  With the standard
registry as with any other, an evaluation is taken step by step from the first place of the document
to the last.  For the command at each place the places inside are set up, at any depth and whatever
their commands are: each variable then holds the text of the last element in document order that
sets it, or else what it held before, and nothing but variables has changed. -/
theorem Element.delivers_nested_texts (r : Registry) (f : Subject σ) (root : Element) (s : σ) :
    root.stage r f s 0 = ⟨[], .start s⟩ ∧
    (∀ i : Fin root.places.length,
      (root.places.get i).Delivers r f root (root.stage r f s i) (root.stage r f s (i + 1))) ∧
    root.evaluate r f s = ⟨(root.stage r f s root.places.length).outcomes,
      .ofOutcomes f.resource (root.stage r f s root.places.length).outcomes,
      (root.stage r f s root.places.length).state⟩ := by
  refine ⟨rfl, fun i => ?_, ?_⟩
  · rw [stage_succ]
    exact Place.delivers_step r f (root.places.get_mem i) _
  · rw [evaluate_eq_fold, stage_length]

/-- A variable that is set by an element and inside it again has the inner text, though that element
stands below an assertion; a `set` command without a variable does nothing. -/
example :
    (Place.ready (.standard Registry.standardUri .normalized) ⟨[], [],
      ⟨"p", [⟨"xmlns:s", Registry.standardUri⟩, ⟨"s:execute", "greet(#name)"⟩],
        [.element "b" [⟨"s:set", "#name"⟩] [.text "Bob",
            .element "q" [⟨"s:assertTrue", "known(#name)"⟩]
              [.element "t:i" [⟨"xmlns:t", Registry.standardUri⟩, ⟨"t:set", "#name"⟩]
                [.text " Robert  "]]],
          .element "b" [⟨"s:set", "name()"⟩] [.text "Alice"]]⟩⟩
      (.start ())).vars.get? "name" = some (.text "Robert") := by decide +kernel

end LivingDoc
