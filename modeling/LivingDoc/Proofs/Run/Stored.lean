import LivingDoc.Proofs.Evaluation.Outcomes
import LivingDoc.Proofs.Markup.WellNamed
import LivingDoc.Proofs.Run.Shown
import LivingDoc.Run.Process

/-!
# What a run stores

Every text that a run stores is the markup of a document that was read, with the outcomes of
evaluating it.  Whether it can be read again is decided by two things that a run does not look at:
the names of the document, which stay as they are, and the characters that its values have and its
outcomes show.

* `Runner.mem_stores_run`: where a stored text comes from.
* `Runner.stored_isDocument_iff`: when it is a document.
* `Bell.not_forall_stored_isDocument`: it is not always one.
-/

namespace LivingDoc

theorem Event.mem_stores_iff {es : List Event} {r : Resource} {text : String} :
    (r, text) ∈ Event.stores es ↔ Event.stored r text ∈ es := by
  unfold stores
  rw [List.mem_filterMap]
  constructor
  · rintro ⟨e, he, h⟩
    cases e <;> cases h
    exact he
  · intro h
    exact ⟨_, h, rfl⟩

namespace Runner

variable {σ : Type}

/-! ## 1. Where stored texts come from -/

/-- The text is the document at the resource, evaluated against a fixture. -/
def Renders (u : Runner σ) (r : Resource) (text : String) : Prop :=
  ∃ (root : Element) (g : Fixture σ) (a : σ), u.load r = .ok root ∧
    text = u.rendered root (root.evaluate u.registry ⟨g, r⟩ a).outcomes

/-- What a link stores is stored by the visit to its target. -/
theorem visit_of_stored_follow {u : Runner σ} {path : List Resource} {l : Link} {q : Resource}
    {text : String} (h : Event.stored q text ∈ (u.follow path l).2) :
    ∃ r g t h', Event.stored q text ∈ (u.visit path r g t h').events := by
  unfold follow at h
  split at h
  · exact absurd h List.not_mem_nil
  · rename_i hl
    split at h
    · exact absurd h List.not_mem_nil
    · rename_i g t _
      exact ⟨l.target, g, t, hl, h⟩

/-- What a visit stores is its own document, or is stored by a visit inside it. -/
theorem stored_of_visit {u : Runner σ} {path : List Resource} {r : Resource} {f : Fixture σ} {s : σ}
    {h : r ∉ path} {q : Resource} {text : String}
    (hstored : Event.stored q text ∈ (u.visit path r f s h).events) :
    ∃ root, u.load r = .ok root ∧
      (q = r ∧ text = u.rendered root (root.evaluate u.registry ⟨f, r⟩ s).outcomes ∨
        ∃ r' g t h', Event.stored q text ∈ (u.visit (r :: path) r' g t h').events) := by
  rw [visit_eq] at hstored
  cases hload : u.load r with
  | error e =>
    rw [hload] at hstored
    simp at hstored
  | ok root =>
    rw [hload] at hstored
    dsimp only at hstored
    refine ⟨root, rfl, ?_⟩
    split at hstored
    · simp at hstored
    · simp only [List.mem_append, List.mem_cons, List.mem_map, Event.stored.injEq, reduceCtorEq,
        and_false, exists_false, false_or, List.mem_flatMap, List.not_mem_nil, or_false] at hstored
      rcases hstored with ⟨rfl, rfl⟩ | ⟨x, hx, hstored⟩
      · exact .inl ⟨rfl, rfl⟩
      · unfold followAll at hx
        split at hx
        · obtain ⟨l, -, rfl⟩ := List.mem_map.mp hx
          exact .inr (visit_of_stored_follow hstored)
        · exact absurd hx List.not_mem_nil

/-- **Every text that a visit stores, at any depth, is a document with its outcomes.**  By induction
on the visit: a text is stored by it or by a visit inside it. -/
theorem renders_of_visit {u : Runner σ} (path : List Resource) (r : Resource) (f : Fixture σ)
    (s : σ) (h : r ∉ path) {r' : Resource} {text : String}
    (hstored : Event.stored r' text ∈ (u.visit path r f s h).events) : u.Renders r' text := by
  induction path, r, f, s, h using visit_induction (u := u) with
  | step path r f s h ih =>
    obtain ⟨root, hload, ⟨rfl, rfl⟩ | ⟨q, g, t, h', hinside⟩⟩ := stored_of_visit hstored
    · exact ⟨root, f, s, hload, rfl⟩
    · exact ih root hload q g t h' hinside

/-- **Every text that a run stores is a document with its outcomes.** -/
theorem mem_stores_run {u : Runner σ} {resource : Option Resource}
    {fixture : Option (Fixture σ × σ)} {r : Resource} {text : String}
    (h : (r, text) ∈ Event.stores (u.run resource fixture).2) : u.Renders r text := by
  rw [Event.mem_stores_iff] at h
  unfold run at h
  split at h
  · exact absurd h List.not_mem_nil
  · exact renders_of_visit _ _ _ _ _ h

/-! ## 2. When they are documents -/

theorem writable_of_load {u : Runner σ} {r : Resource} {root : Element} (h : u.load r = .ok root) :
    Xml.Writable root.node := by
  unfold load at h
  split at h
  · contradiction
  · contradiction
  · split at h
    · contradiction
    · rename_i hparse
      cases h
      exact Xml.writable_of_parse hparse

/-- The text of a document with its outcomes is a document if and only if the names of the document
resolve and all characters are allowed.  Names do not change by outcomes and stylesheet, so they are
asked of the document itself. -/
theorem rendered_isDocument_iff (u : Runner σ) {root : Element} (h : Xml.Writable root.node)
    (outcomes : List Recorded) :
    (∃ e, Element.parse (u.rendered root outcomes) = .ok e) ↔
      root.Resolves ∧ ∀ c ∈ (u.rendered root outcomes).toList, Xml.isAllowed c = true := by
  have hwritable := Element.writable_annotate h outcomes
  have hresolves := Element.resolves_annotate h outcomes
  unfold rendered
  dsimp only
  split
  · have hstyled := Element.writable_withStylesheet hwritable
    rw [Element.parse_markup_isOk_iff hstyled, Element.allowed_markup_iff hstyled,
      Element.resolves_withStylesheet, hresolves]
  · rw [Element.parse_markup_isOk_iff hwritable, Element.allowed_markup_iff hwritable, hresolves]

/-- Where the document has allowed characters only, they are all allowed if and only if every
outcome shows allowed characters at its place. -/
theorem allowed_rendered_iff (u : Runner σ) {root : Element} (h : Xml.Writable root.node)
    (hroot : root.Allowed) (outcomes : List Recorded) :
    (∀ c ∈ (u.rendered root outcomes).toList, Xml.isAllowed c = true) ↔
      ∀ p ∈ root.places, ∀ o, outcomeAt? outcomes p.path = some o → o.Allowed p.element := by
  have hwritable := Element.writable_annotate h outcomes
  have hallowed := Element.allowed_annotate hroot outcomes
  unfold rendered
  dsimp only
  split
  · have hstyled := Element.writable_withStylesheet hwritable
    rw [Element.allowed_markup_iff hstyled, Element.allowed_withStylesheet, hallowed]
  · rw [Element.allowed_markup_iff hwritable, hallowed]

/-- **When a stored text is a document.**  Every text that a run stores is the markup of a loaded
document with its outcomes.  It can be read if and only if the names of the document still resolve
when its declarations are read from markup, and all its characters are allowed; for a document whose
own characters are, this is for what its outcomes show to decide. -/
theorem stored_isDocument_iff {u : Runner σ} {resource : Option Resource}
    {fixture : Option (Fixture σ × σ)} {r : Resource} {text : String}
    (h : (r, text) ∈ Event.stores (u.run resource fixture).2) :
    ∃ root, ∃ g : Fixture σ, ∃ a : σ, ∃ outcomes, u.load r = .ok root ∧
      (root.evaluate u.registry ⟨g, r⟩ a).outcomes = outcomes ∧ text = u.rendered root outcomes ∧
      ((∃ e, Element.parse text = .ok e) ↔
        root.Resolves ∧ ∀ c ∈ text.toList, Xml.isAllowed c = true) ∧
      (root.Allowed → ((∀ c ∈ text.toList, Xml.isAllowed c = true) ↔
        ∀ x ∈ outcomes, ∀ p ∈ root.places, p.path = x.path → x.outcome.Allowed p.element)) := by
  obtain ⟨root, g, a, hload, rfl⟩ := mem_stores_run h
  have hwritable := writable_of_load hload
  refine ⟨root, g, a, _, hload, rfl, rfl, u.rendered_isDocument_iff hwritable _, ?_⟩
  intro hroot
  rw [u.allowed_rendered_iff hwritable hroot]
  constructor
  · intro h x hx p hp hpath
    exact h p hp _ ((root.outcomeAt?_evaluate _ _ _ _ _).mpr ⟨x, hx, hpath.symm, rfl⟩)
  · intro h p hp o ho
    obtain ⟨x, hx, hpath, rfl⟩ := (root.outcomeAt?_evaluate _ _ _ _ _).mp ho
    exact h x hx p hp hpath.symm

end Runner

/-! ### A value that is shown as it is

The operation of a fixture returns a control character where a document expects a word. -/

namespace Bell

/-- A fixture that returns a bell. -/
def fixture : Fixture Unit :=
  ⟨"a", fun _ _ => some ⟨"f", []⟩, fun s _ _ => (.returned (.text "\x07"), s)⟩

/-- A document that expects a word of it. -/
def runner : Runner Unit where
  configuration := ⟨"urn:c", "", false, true⟩
  custom := []
  comparator := .exact
  source := ⟨.ofList [(.ofPath "a", "<p xmlns:c='urn:c' c:assertEquals='f()'>x</p>")], []⟩
  target := ⟨[]⟩
  provider := .catalog []

def text : String :=
  "<p xmlns:c=\"urn:c\" c:assertEquals=\"f()\" class=\"failure\">" ++
    "<del class=\"expected\">x</del> <ins class=\"actual\">\x07</ins></p>"

theorem text_stored : (.ofPath "a", text) ∈ Event.stores (runner.run none (some (fixture, ()))).2 := by
  decide +kernel

theorem stored_isDocument_iff_bell :
    (.ofPath "a", text) ∈ Event.stores (runner.run none (some (fixture, ()))).2 ∧
    ∃ (root : Element) (g : Fixture Unit) (a : Unit) (outcomes : List Recorded),
      runner.load (.ofPath "a") = .ok root ∧
      (root.evaluate runner.registry ⟨g, .ofPath "a"⟩ a).outcomes = outcomes ∧
      text = runner.rendered root outcomes ∧
      ((∃ e, Element.parse text = .ok e) ↔
        root.Resolves ∧ ∀ c ∈ text.toList, Xml.isAllowed c = true) ∧
      (root.Allowed → ((∀ c ∈ text.toList, Xml.isAllowed c = true) ↔
        ∀ x ∈ outcomes, ∀ p ∈ root.places, p.path = x.path → x.outcome.Allowed p.element)) := by
  exact ⟨text_stored, Runner.stored_isDocument_iff text_stored⟩

/-- **A stored text need not be a document**, since the value that a fixture returns is written as
it is: the escapes are for the marks of the markup, and a character that is not allowed has none. -/
theorem not_forall_stored_isDocument : ¬ ∀ (u : Runner Unit) (resource : Option Resource)
    (fixture : Option (Fixture Unit × Unit)) (r : Resource) (text : String),
    (r, text) ∈ Event.stores (u.run resource fixture).2 → ∃ e, Element.parse text = .ok e := by
  intro hall
  obtain ⟨e, he⟩ := hall runner none (some (fixture, ())) (.ofPath "a") text text_stored
  have hrejected : (Element.parse text).isOk = false := by decide +kernel
  have haccepted : (Element.parse text).isOk = true := by rw [he, Except.isOk, Except.toBool]
  exact Bool.false_ne_true (hrejected.symm.trans haccepted)

end Bell

end LivingDoc
