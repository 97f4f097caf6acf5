import LivingDoc.Markup.Element
import LivingDoc.Proofs.Text.Normalized

/-!
# Adding a class

The classes of an element are the words of its first attribute `class`.  Adding one puts it behind
them, with one space in between whatever blank space there was, so the element has the classes that
it had and the new one.  Of the attributes only the one that was read is touched, and it stays where
it is; a second attribute `class` is one like any other.

* `Element.setIn_eq_iff`: what setting an attribute does to a list of them.
* `Element.classes_addClass`: the classes behind an addition.
* `Element.hasClass_addClass`: an addition adds that class and takes none away.
* `Element.gains_one_class`: and all else is as it was.
-/

namespace LivingDoc

namespace Element

/-! ## 1. Setting an attribute -/

/-- An attribute is set: the first of the name gets the value at its place, or without one a new
attribute stands behind the others. -/
inductive Sets (name value : String) : List Attribute → List Attribute → Prop
  | inPlace {before after : List Attribute} {old : String} (first : ∀ a ∈ before, a.name ≠ name) :
      Sets name value (before ++ ⟨name, old⟩ :: after) (before ++ ⟨name, value⟩ :: after)
  | behind {as : List Attribute} (missing : ∀ a ∈ as, a.name ≠ name) :
      Sets name value as (as ++ [⟨name, value⟩])

variable {name value : String} {as bs : List Attribute}

theorem setIn_append {before : List Attribute} (h : ∀ a ∈ before, a.name ≠ name) (value : String)
    (as : List Attribute) : setIn name value (before ++ as) = before ++ setIn name value as := by
  induction before with
  | nil => rfl
  | cons a before ih =>
    rw [List.forall_mem_cons] at h
    rw [List.cons_append, setIn, if_neg (by simpa using h.1), ih h.2, List.cons_append]

theorem Sets.setIn_eq (h : Sets name value as bs) : setIn name value as = bs := by
  cases h with
  | inPlace first => rw [setIn_append first, setIn, if_pos (beq_self_eq_true name)]
  | behind missing =>
    have hend := setIn_append missing value []
    rwa [List.append_nil, setIn] at hend

theorem exists_sets (name value : String) (as : List Attribute) : ∃ bs, Sets name value as bs := by
  cases hfound : as.find? (·.name == name) with
  | none =>
    refine ⟨_, .behind ?_⟩
    intro a ha
    simpa using List.find?_eq_none.mp hfound a ha
  | some a =>
    obtain ⟨hname, before, after, rfl, hbefore⟩ := List.find?_eq_some_iff_append.mp hfound
    obtain ⟨n, old⟩ := a
    obtain rfl : n = name := beq_iff_eq.mp hname
    refine ⟨_, .inPlace ?_⟩
    intro b hb
    simpa using hbefore b hb

/-- **Setting an attribute sets it** at the place of the first of its name, or behind the others. -/
theorem setIn_eq_iff : setIn name value as = bs ↔ Sets name value as bs := by
  constructor
  · rintro rfl
    obtain ⟨bs, h⟩ := exists_sets name value as
    rwa [h.setIn_eq]
  · exact Sets.setIn_eq

theorem filter_setIn (name value : String) (as : List Attribute) :
    (setIn name value as).filter (·.name != name) = as.filter (·.name != name) := by
  have hnone : ∀ (w : String) (rest : List Attribute),
      (⟨name, w⟩ :: rest : List Attribute).filter (·.name != name) =
        rest.filter (·.name != name) := by
    intro w rest
    exact List.filter_cons_of_neg (by simp)
  obtain ⟨bs, h⟩ := exists_sets name value as
  rw [h.setIn_eq]
  cases h with
  | inPlace => rw [List.filter_append, List.filter_append, hnone, hnone]
  | behind => rw [List.filter_append, hnone, List.filter_nil, List.append_nil]

theorem eq_or_mem_of_mem_setIn {a : Attribute} (h : a ∈ setIn name value as) :
    a = ⟨name, value⟩ ∨ a ∈ as := by
  obtain ⟨bs, hsets⟩ := exists_sets name value as
  rw [hsets.setIn_eq] at h
  cases hsets with
  | inPlace =>
    rw [List.mem_append, List.mem_cons] at h
    rw [List.mem_append, List.mem_cons]
    tauto
  | behind => exact (List.mem_append.mp h).symm.imp_left List.mem_singleton.mp

/-! ## 2. The words of the attribute -/

/-- The value that `addClass` gives to the attribute has the words of the old one, and the class
behind them.  The blank space around the old value is trimmed away, so the one space that is put in
parts two words. -/
theorem words_present {c : String} (hc : Text.words c = [c]) (value : String) :
    Text.words (if (Text.trimmed value).isEmpty then c else Text.trimmed value ++ " " ++ c) =
      Text.words value ++ [c] := by
  have hchars : (Text.wordsOf c.toList).map String.ofList = [c] := hc
  split
  · rename_i hempty
    have hnone : Text.wordsOf value.toList = [] := by
      rw [← Text.trim_eq_nil_iff, ← String.toList_ofList (l := Text.trim value.toList)]
      exact String.toList_eq_nil_iff.mpr (String.isEmpty_iff.mp hempty)
    rw [hc, Text.words, hnone]
    rfl
  · have hspace : Text.isBlank ' ' = true := by decide
    have htext : (Text.trimmed value ++ " " ++ c).toList =
        Text.trim value.toList ++ ' ' :: c.toList := by
      simp [Text.trimmed]
    rw [Text.words, htext, Text.wordsOf_append_blank hspace, Text.wordsOf_trim, List.map_append,
      hchars]
    rfl

/-- The first attribute `class` is made of these words; without one there are none. -/
def ClassWords (e : Element) (ws : List String) : Prop :=
  Text.Spaced ((e.attribute? "class").getD "").toList (ws.map String.toList)

theorem classWords_iff {e : Element} {ws : List String} : e.ClassWords ws ↔ e.classes = ws := by
  rw [ClassWords, ← Text.wordsOf_eq_iff, classes, Text.words]
  constructor
  · intro h
    simp [h, Function.comp_def]
  · rintro rfl
    simp [Function.comp_def]

/-! ## 3. Adding a class -/

theorem addClass_of_hasClass {e : Element} {c : String} (h : e.hasClass c = true) :
    e.addClass c = e := by
  rw [addClass, if_pos h]

theorem children_addClass (e : Element) (c : String) : (e.addClass c).children = e.children := by
  unfold addClass
  split <;> rfl

theorem name_addClass (e : Element) (c : String) : (e.addClass c).name = e.name := by
  unfold addClass
  split <;> rfl

/-- **The classes of an element with a class added are those it had, and that one behind them if it
is new.** -/
theorem classes_addClass {c : String} (hc : Text.words c = [c]) (e : Element) :
    (e.addClass c).classes = if e.hasClass c then e.classes else e.classes ++ [c] := by
  unfold addClass
  split
  · rfl
  · rw [classes, attribute?_setAttribute, Option.getD_some, words_present hc]
    rfl

/-- **Adding a class adds that one and takes none away.** -/
theorem hasClass_addClass {c : String} (hc : Text.words c = [c]) (e : Element) (d : String) :
    (e.addClass c).hasClass d = (e.hasClass d || d == c) := by
  rw [hasClass, classes_addClass hc]
  split
  · rename_i hthere
    by_cases hd : d = c
    · rw [hd, beq_self_eq_true, Bool.or_true]
      exact hthere
    · rw [beq_eq_false_iff_ne.mpr hd, Bool.or_false]
      rfl
  · rw [List.contains_append, hasClass, List.contains_cons, List.contains_nil, Bool.or_false]

theorem addClass_addClass {c : String} (hc : Text.words c = [c]) (e : Element) :
    (e.addClass c).addClass c = e.addClass c := by
  refine addClass_of_hasClass ?_
  rw [hasClass_addClass hc, beq_self_eq_true, Bool.or_true]

/-- No attribute but the class is touched. -/
theorem filter_attributes_addClass (e : Element) (c : String) :
    (e.addClass c).attributes.filter (·.name != "class") =
      e.attributes.filter (·.name != "class") := by
  unfold addClass
  split
  · rfl
  · exact filter_setIn "class" _ e.attributes

/-! ## 4. What is gained -/

/-- What is to be said of an element and the one that it becomes when it gains a class. -/
structure Gains (c : String) (e e' : Element) : Prop where
  /-- It has the class, -/
  gained : e'.hasClass c = true
  /-- and of the other classes those that it had. -/
  others (d : String) (h : d ≠ c) : e'.hasClass d = e.hasClass d
  /-- The words of its attribute are the old ones in their order, with the class behind them if it was
  missing. -/
  words : ∃ ws, e.ClassWords ws ∧ e'.ClassWords (if c ∈ ws then ws else ws ++ [c])
  /-- No attribute is touched if the class was there. -/
  kept (h : e.hasClass c = true) : e'.attributes = e.attributes
  /-- If it was missing, the first attribute `class` has another value, or there was none and there is
  one behind the others. -/
  set (h : e.hasClass c = false) : ∃ value, Sets "class" value e.attributes e'.attributes
  /-- The other attributes have their names, their values and their order. -/
  rest : e'.attributes.filter (·.name != "class") = e.attributes.filter (·.name != "class")
  name : e'.name = e.name
  children : e'.children = e.children

/-- **An element gains the class that is added and nothing else**, whatever blank space its
attribute has and however many attributes are called so; and it gains the class once.  The class
must be one word: an empty one is gained by nobody, and one with blank space in it would be two. -/
theorem gains_one_class {c : String} (hc : Text.IsWord c) (e : Element) :
    e.Gains c (e.addClass c) ∧ (e.addClass c).addClass c = e.addClass c := by
  have hword : Text.words c = [c] := Text.words_eq_self_iff.mpr hc
  have hmem : c ∈ e.classes ↔ e.hasClass c = true := List.contains_iff_mem.symm
  refine ⟨⟨?gained, ?others, ?words, ?kept, ?set, e.filter_attributes_addClass c,
    e.name_addClass c, e.children_addClass c⟩, addClass_addClass hword e⟩
  case gained => rw [hasClass_addClass hword, beq_self_eq_true, Bool.or_true]
  case others =>
    intro d hd
    rw [hasClass_addClass hword, beq_eq_false_iff_ne.mpr hd, Bool.or_false]
  case words =>
    refine ⟨e.classes, classWords_iff.mpr rfl, classWords_iff.mpr ?_⟩
    simp only [classes_addClass hword, hmem]
  case kept =>
    intro h
    rw [addClass_of_hasClass h]
  case set =>
    intro h
    rw [addClass, if_neg (by rw [h]; exact Bool.false_ne_true)]
    exact ⟨_, setIn_eq_iff.mp rfl⟩

end Element

/-! ### A paragraph with two attributes `class`

Only the first is read, and it has blank space of several kinds. -/

namespace Paragraph

def untidy : Element :=
  ⟨"p", [⟨"id", "x"⟩, ⟨"class", " \tnote\u00a0 big\u2003"⟩, ⟨"title", "t"⟩, ⟨"class", "failure"⟩],
    [.text "a", .element "b" [] []]⟩

/-- The class goes behind the words of the first attribute, although the second one has it. -/
theorem untidy_gains_failure : Text.IsWord "failure" ∧
    untidy.Gains "failure" (untidy.addClass "failure") ∧
    (untidy.addClass "failure").addClass "failure" = untidy.addClass "failure" ∧
    (untidy.addClass "failure").attributes =
      [⟨"id", "x"⟩, ⟨"class", "note\u00a0 big failure"⟩, ⟨"title", "t"⟩, ⟨"class", "failure"⟩] := by
  have hword : Text.IsWord "failure" := by decide
  obtain ⟨hgains, honce⟩ := Element.gains_one_class hword untidy
  exact ⟨hword, hgains, honce, by decide +kernel⟩

end Paragraph

end LivingDoc
