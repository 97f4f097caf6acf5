import LivingDoc.Evaluation.Walk
import LivingDoc.Proofs.Evaluation.Assignments
import LivingDoc.Proofs.Text.Normalized

/-!
# Comparing texts

A `set` command stores the text of its element normalised, and an `assertEquals` command normalises
both what its element says and what it is compared with.  Normalising twice is normalising once, so
what counts is the words: an element succeeds against a variable if it is made of the words of the
element that was stored in it, whatever its markup is and wherever its blank space stands.

* `Comparator.normalized_iff`: normalised comparison is by words.
* `State.Keeps.compared`: what comes of comparing an element with one that was stored.
* `Command.compares_by_words`: normalising, comparing and storing, by words.
-/

namespace LivingDoc

variable {σ : Type}

/-! ## 1. The comparator -/

/-- **Normalised comparison compares words**, those of the text with those of the displayed
value. -/
theorem Comparator.normalized_iff {expected : String} {v : Value} :
    Comparator.normalized expected v = true ↔ Text.SameWords expected v.display := by
  rw [Comparator.normalized, beq_iff_eq, Text.normalized_eq_normalized_iff]

theorem Element.sameWords_textValue {d e : Element} :
    Text.SameWords d.textContent e.textValue.display ↔
      Text.SameWords d.textContent e.textContent := by
  rw [Text.sameWords_iff, Text.sameWords_iff, textValue, Value.display, Text.wordsOf_normalized]

/-! ## 2. What a `set` command stores -/

/-- A `set` command stores the text of its element, whether it is set up or runs. -/
theorem Command.set_stores (f : Subject σ) (e : Element) {x name : String}
    (h : Expression.read x = .ok (.var name)) (s : State σ) :
    Command.set.setUp e x s = s.setVariable name e.textValue ∧
      Command.set.run f e x s = (none, s.setVariable name e.textValue) := by
  have htarget : Command.targetVariable x = .ok name := by rw [Command.targetVariable, h]
  constructor
  · rw [Command.setUp, htarget]
  · rw [Command.run, htarget]

namespace State

/-- A `set` command has stored the text of the element in the variable, when it was set up or when
it ran, and nothing else has been stored there since.  It is said of the state that is left, so
whatever ran in between may have changed anything else. -/
def Keeps (f : Subject σ) (e : Element) (name : String) (t : State σ) : Prop :=
  ∃ x s, Expression.read x = .ok (.var name) ∧
    (t.vars.get? name = (Command.set.setUp e x s).vars.get? name ∨
      t.vars.get? name = (Command.set.run f e x s).2.vars.get? name)

theorem Keeps.get? {f : Subject σ} {e : Element} {name : String} {t : State σ}
    (h : Keeps f e name t) : t.vars.get? name = some e.textValue := by
  obtain ⟨x, s, hread, hget⟩ := h
  obtain ⟨hsetUp, hrun⟩ := Command.set_stores f e hread s
  have hstored : (s.setVariable name e.textValue).vars.get? name = some e.textValue := by
    rw [setVariable, Variables.get?_set, if_pos rfl]
  rw [hsetUp, hrun, or_self] at hget
  exact hget.trans hstored

/-- **An element is compared with one that was stored by their words.**  The variable for the text
of the element is no place to keep a text: an element always equals its own. -/
theorem Keeps.compared {f : Subject σ} {e : Element} {name : String} {t : State σ}
    (h : Keeps f e name t) (d : Element) {y : String} (hread : Expression.read y = .ok (.var name)) :
    (Command.assertEquals .normalized).run f d y t =
      (some (if name = textVariable ∨ Text.SameWords d.textContent e.textContent then .success
        else .failure d.textContent e.textValue.display), t) := by
  have hvalue : t.evaluateText f.fixture d y =
      (.ok (if name = textVariable then d.textValue else e.textValue), t) := by
    rw [evaluateText_of_read f.fixture d t hread, evaluate, Variables.read, h.get?, Value.ofOption]
  rw [Command.run, hvalue]
  by_cases hname : name = textVariable
  · have hself : Comparator.normalized d.textContent d.textValue = true :=
      Comparator.normalized_iff.mpr (Element.sameWords_textValue.mpr (Text.sameWords_iff.mpr rfl))
    rw [if_pos hname, if_pos (.inl hname)]
    simp only [hself, if_true]
  · rw [if_neg hname]
    simp only [hname, false_or, Comparator.normalized_iff, Element.sameWords_textValue]

end State

/-! ## 3. All of it -/

/-- **Normalised comparison is equality of words.**  Two texts have one normalised form if and only
if they are made of the same words; a normalised text stays as it is, and has no blank space but
single spaces between words; a text equals a value if what is displayed has its words.  So once a
`set` command has stored the text of an element in a variable, every element with the same words is
a success against it, and no other element is, unless the variable is the one for the text of the
element. -/
theorem Command.compares_by_words (f : Subject σ) :
    (∀ a b : String, Text.normalized a = Text.normalized b ↔ Text.SameWords a b) ∧
    (∀ a : String, Text.normalized (Text.normalized a) = Text.normalized a ∧
      Text.IsNormal (Text.normalized a).toList) ∧
    (∀ (expected : String) (v : Value),
      Comparator.normalized expected v = true ↔ Text.SameWords expected v.display) ∧
    ∀ (e : Element) (name : String) (t : State σ), State.Keeps f e name t →
      ∀ (d : Element) (y : String), Expression.read y = .ok (.var name) →
        (Text.SameWords d.textContent e.textContent →
          (Command.assertEquals .normalized).run f d y t = (some .success, t)) ∧
        (name ≠ textVariable →
          ((Command.assertEquals .normalized).run f d y t).1 = some .success →
          Text.SameWords d.textContent e.textContent) := by
  refine ⟨fun a b => Text.normalized_eq_normalized_iff, fun a =>
    ⟨Text.normalized_normalized a, Text.isNormal_normalized a⟩, fun _ _ =>
    Comparator.normalized_iff, ?_⟩
  intro e name t hkeeps d y hread
  rw [hkeeps.compared d hread]
  constructor
  · intro hwords
    rw [if_pos (.inr hwords)]
  · intro hname hsuccess
    by_contra hwords
    rw [if_neg (not_or.mpr ⟨hname, hwords⟩)] at hsuccess
    exact absurd (Option.some.inj hsuccess) (by simp)

/-! ### A name spaced differently

The name is stored from one element, and stands in another with markup and a no-break space in
it. -/

namespace Respaced

/-- The element that the name is stored from. -/
def stored : Element := ⟨"b", [], [.text " Bob\n Dylan"]⟩

/-- The same two words, parted by the end of an element and a no-break space. -/
def shown : Element := ⟨"p", [], [.element "i" [] [.text "Bob"], .text "\u00a0Dylan\t"]⟩

def subject : Subject Unit := ⟨⟨"a", fun _ _ => none, fun s _ _ => (.panicked none, s)⟩, .ofPath "a"⟩

/-- The second element is a success against the first. -/
theorem shown_compared :
    State.Keeps subject stored "name" ((State.start ()).setVariable "name" stored.textValue) ∧
    Expression.read "#name" = .ok (.var "name") ∧
    Text.SameWords shown.textContent stored.textContent ∧
    (Command.assertEquals .normalized).run subject shown "#name"
        ((State.start ()).setVariable "name" stored.textValue) =
      (some .success, (State.start ()).setVariable "name" stored.textValue) := by
  have hread : Expression.read "#name" = .ok (.var "name") := by rfl
  have hkeeps : State.Keeps subject stored "name"
      ((State.start ()).setVariable "name" stored.textValue) :=
    ⟨"#name", .start (), hread, .inl rfl⟩
  have hwords : Text.SameWords shown.textContent stored.textContent := by decide
  obtain ⟨-, -, -, hcompared⟩ := Command.compares_by_words subject
  exact ⟨hkeeps, hread, hwords, (hcompared stored "name" _ hkeeps shown "#name" hread).1 hwords⟩

end Respaced

end LivingDoc
