import LivingDoc.Markup.Scope
import LivingDoc.Proofs.Markup.Declarations

/-!
# The elements that are open

A scope holds the bindings of all open elements in one list, and tells by numbers which element they
belong to.  What it is asked for is simpler: the innermost open element that declares a prefix, and
the last declaration of it there.  Whatever was opened and closed before must not show.

* `Scope.foldl_act`: if closing undoes opening, moves leave what opening the elements still open
  leaves.
* `Element.uri?_eq_some_iff`: what an element declares, by its attributes.
* `Scoping.Steps.findsInnermost`: what opening and closing do step by step makes a scope find
  innermost declarations after any moves.
* `Scope.finds_innermost`: so a scope does, and one that keeps the bindings in the order in which
  they were made and remembers lengths does too.
-/

namespace LivingDoc

/-! ## 1. Opening and closing -/

namespace Scope

/-- An element is opened, or the innermost open element is closed. -/
inductive Move where
  | enter (e : Element)
  | leave

variable {α : Type}

/-- What a move does, by what opening and closing do. -/
def act (push : α → Element → α) (pop : α → α) (s : α) : Move → α
  | .enter e => push s e
  | .leave => pop s

/-- The elements that are open after the moves, the innermost first; with none open there is nothing
to close. -/
def opened (moves : List Move) : List Element := moves.foldl (act (fun es e => e :: es) List.tail) []

/-- **Where closing undoes opening, only the elements that are still open count.**  By induction on
the moves, from any open elements on. -/
theorem foldl_act {push : α → Element → α} {pop : α → α} {start : α}
    (hpush : ∀ s e, pop (push s e) = s) (hstart : pop start = start) (moves : List Move) :
    moves.foldl (act push pop) start = (opened moves).foldr (fun e s => push s e) start := by
  suffices h : ∀ es : List Element, moves.foldl (act push pop) (es.foldr (fun e s => push s e) start) =
      (moves.foldl (act (fun es e => e :: es) List.tail) es).foldr (fun e s => push s e) start from h []
  induction moves with
  | nil => exact fun _ => rfl
  | cons m moves ih =>
    intro es
    cases m with
    | enter e => exact ih (e :: es)
    | leave =>
      cases es with
      | nil =>
        have hnil : act push pop start .leave = start := hstart
        rw [List.foldl_cons, List.foldr_nil, hnil]
        exact ih []
      | cons e es =>
        have hcons : act push pop (push (es.foldr (fun e s => push s e) start) e) .leave =
            es.foldr (fun e s => push s e) start := hpush _ e
        rw [List.foldl_cons, List.foldr_cons, hcons]
        exact ih es

example (d e : Element) : opened [.enter d, .leave, .leave, .enter e] = [e] := rfl

end Scope

/-! ## 2. What an element declares -/

namespace Attribute

/-- An attribute declares a prefix if it is named `xmlns:` with the prefix behind it; one that is
named `xmlns` declares the empty prefix. -/
def Declares (a : Attribute) (p : String) : Prop :=
  a.name = "xmlns:" ++ p ∨ a.name = "xmlns" ∧ p = ""

/-- The URI that an attribute declares a prefix for. -/
def uri? (a : Attribute) (p : String) : Option String :=
  (a.declares.filter (·.1 == p)).map (·.2)

theorem isPrefixOf?_name_iff {name : String} {l : List Char} :
    "xmlns:".toList.isPrefixOf? name.toList = some l ↔ name = "xmlns:" ++ String.ofList l := by
  have hlist : ("xmlns:" ++ String.ofList l).toList = "xmlns:".toList ++ l := by
    rw [String.toList_append, String.toList_ofList (l := l)]
  rw [List.isPrefixOf?_eq_some_iff_append_eq, ← String.toList_inj, hlist, eq_comm]

theorem declares_eq_some_iff {a : Attribute} {p u : String} :
    a.declares = some (p, u) ↔ a.Declares p ∧ a.value = u := by
  by_cases hname : a.name = "xmlns"
  · have hprefixed : a.name ≠ "xmlns:" ++ p := by
      rw [hname]
      intro h
      have hlist := congrArg String.toList h
      rw [String.toList_append] at hlist
      exact absurd hlist (by simp)
    rw [declares, if_pos (beq_iff_eq.mpr hname), Option.some.injEq, Prod.mk.injEq, Declares,
      or_iff_right hprefixed, and_iff_right hname, eq_comm (a := "")]
  · have hlocal : ¬ (a.name = "xmlns" ∧ p = "") := fun h => hname h.1
    rw [declares, if_neg (mt beq_iff_eq.mp hname), Option.map_eq_some_iff, Declares,
      or_iff_left hlocal]
    constructor
    · rintro ⟨l, hl, hpair⟩
      obtain ⟨rfl, rfl⟩ := Prod.mk.inj hpair
      exact ⟨isPrefixOf?_name_iff.mp hl, rfl⟩
    · rintro ⟨hp, rfl⟩
      refine ⟨p.toList, isPrefixOf?_name_iff.mpr ?_, ?_⟩
      · rw [String.ofList_toList, hp]
      · rw [String.ofList_toList]

theorem uri?_eq_some_iff {a : Attribute} {p u : String} :
    a.uri? p = some u ↔ a.Declares p ∧ a.value = u := by
  rw [← declares_eq_some_iff, uri?, Option.map_eq_some_iff]
  constructor
  · rintro ⟨⟨q, v⟩, hd, rfl⟩
    obtain ⟨hsome, hq⟩ := Option.filter_eq_some_iff.mp hd
    obtain rfl : q = p := beq_iff_eq.mp hq
    exact hsome
  · intro h
    exact ⟨(p, u), Option.filter_eq_some_iff.mpr ⟨h, beq_self_eq_true p⟩, rfl⟩

theorem uri?_eq_none_iff {a : Attribute} {p : String} : a.uri? p = none ↔ ¬ a.Declares p := by
  rw [Option.eq_none_iff_forall_ne_some]
  constructor
  · exact fun h hp => h a.value (uri?_eq_some_iff.mpr ⟨hp, rfl⟩)
  · exact fun h u hu => h (uri?_eq_some_iff.mp hu).1

end Attribute

namespace Element

/-- An attribute of the element declares the prefix. -/
def DeclaresPrefix (e : Element) (p : String) : Prop := ∃ a ∈ e.attributes, a.Declares p

/-- The last attribute of the element that declares the prefix declares it for this URI. -/
def DeclaresLast (e : Element) (p u : String) : Prop :=
  ∃ before a after, e.attributes = before ++ a :: after ∧ a.Declares p ∧ a.value = u ∧
    ∀ b ∈ after, ¬ b.Declares p

/-- The URI of the last declaration of a prefix on the element. -/
def uri? (e : Element) (p : String) : Option String :=
  (e.namespaceDeclarations.reverse.find? (·.1 == p)).map (·.2)

theorem uri?_eq (e : Element) (p : String) :
    e.uri? p = e.attributes.reverse.findSome? (·.uri? p) := by
  rw [uri?, namespaceDeclarations_eq, ← List.filterMap_reverse]
  induction e.attributes.reverse with
  | nil => rfl
  | cons a as ih =>
    rw [List.findSome?_cons, ← ih, Attribute.uri?]
    cases hd : a.declares with
    | none => rw [List.filterMap_cons_none hd]; rfl
    | some d =>
      rw [List.filterMap_cons_some hd, List.find?_cons, Option.filter_some]
      cases d.1 == p <;> rfl

/-- **The declaration that is found is the last of the prefix on the element.** -/
theorem uri?_eq_some_iff {e : Element} {p u : String} :
    e.uri? p = some u ↔ e.DeclaresLast p u := by
  rw [uri?_eq, List.findSome?_eq_some_iff]
  constructor
  · rintro ⟨after, a, before, hcut, ha, hafter⟩
    obtain ⟨hdeclares, hvalue⟩ := Attribute.uri?_eq_some_iff.mp ha
    refine ⟨before.reverse, a, after.reverse, ?_, hdeclares, hvalue, ?_⟩
    · rw [← e.attributes.reverse_reverse, hcut]
      simp
    · exact fun b hb => Attribute.uri?_eq_none_iff.mp (hafter b (List.mem_reverse.mp hb))
  · rintro ⟨before, a, after, hcut, hdeclares, hvalue, hafter⟩
    refine ⟨after.reverse, a, before.reverse, ?_, Attribute.uri?_eq_some_iff.mpr ⟨hdeclares, hvalue⟩,
      fun b hb => Attribute.uri?_eq_none_iff.mpr (hafter b (List.mem_reverse.mp hb))⟩
    rw [hcut]
    simp

theorem uri?_eq_none_iff {e : Element} {p : String} : e.uri? p = none ↔ ¬ e.DeclaresPrefix p := by
  rw [uri?_eq, List.findSome?_eq_none_iff, DeclaresPrefix]
  simp only [List.mem_reverse, Attribute.uri?_eq_none_iff, not_exists, not_and]

end Element

/-! ## 3. Ways to keep a scope -/

/-- A way to keep the bindings of the elements that are open.  What is said of a scope needs no more
of it than this, so it can be said of more than one. -/
structure Scoping (α : Type) where
  empty : α
  push : α → Element → α
  pop : α → α
  uriFor : α → String → Option String
  depth : α → Nat

/-- The innermost of the open elements that declares the prefix declares it last for this URI. -/
def InnermostDeclares (opened : List Element) (p u : String) : Prop :=
  ∃ inner e outer, opened = inner ++ e :: outer ∧ e.DeclaresLast p u ∧
    ∀ d ∈ inner, ¬ d.DeclaresPrefix p

namespace Scoping

variable {α : Type} {k : Scoping α}

/-- What is kept after opening and closing elements, from the start on. -/
def after (k : Scoping α) (moves : List Scope.Move) : α :=
  moves.foldl (Scope.act k.push k.pop) k.empty

/-- What is kept with these elements open, the innermost first. -/
def ofOpened (k : Scoping α) (opened : List Element) : α :=
  opened.foldr (fun e s => k.push s e) k.empty

/-- What opening and closing an element do.  These are the facts about a way to keep a scope; all
others follow from them. -/
structure Steps (k : Scoping α) : Prop where
  pop_push (s : α) (e : Element) : k.pop (k.push s e) = s
  pop_of_depth (s : α) (h : k.depth s = 0) : k.pop s = s
  uriFor_empty (p : String) : k.uriFor k.empty p = none
  /-- A prefix stands for what the element declares it for, or else for what it stood for. -/
  uriFor_push (s : α) (e : Element) (p : String) :
    k.uriFor (k.push s e) p = (e.uri? p).or (k.uriFor s p)
  depth_empty : k.depth k.empty = 0
  depth_push (s : α) (e : Element) : k.depth (k.push s e) = k.depth s + 1

/-- What is to be said of what is kept, after any moves and of any state. -/
structure FindsInnermost (k : Scoping α) : Prop where
  /-- A prefix stands for the URI of the last declaration on the innermost element that has one. -/
  found (moves : List Scope.Move) (p u : String) :
    k.uriFor (k.after moves) p = some u ↔ InnermostDeclares (Scope.opened moves) p u
  /-- It stands for nothing if no open element declares it. -/
  unbound (moves : List Scope.Move) (p : String) :
    k.uriFor (k.after moves) p = none ↔ ∀ e ∈ Scope.opened moves, ¬ e.DeclaresPrefix p
  /-- The depth is the number of open elements. -/
  counted (moves : List Scope.Move) : k.depth (k.after moves) = (Scope.opened moves).length
  /-- Closing undoes opening. -/
  restored (s : α) (e : Element) : k.pop (k.push s e) = s
  /-- With no element open there is nothing to close. -/
  idle (s : α) (h : k.depth s = 0) : k.pop s = s

namespace Steps

variable (h : k.Steps)
include h

theorem after_eq (moves : List Scope.Move) : k.after moves = k.ofOpened (Scope.opened moves) :=
  Scope.foldl_act h.pop_push (h.pop_of_depth _ h.depth_empty) moves

theorem uriFor_ofOpened (opened : List Element) (p : String) :
    k.uriFor (k.ofOpened opened) p = opened.findSome? (·.uri? p) := by
  induction opened with
  | nil => exact h.uriFor_empty p
  | cons e opened ih =>
    rw [List.findSome?_cons, ← ih]
    refine (h.uriFor_push (k.ofOpened opened) e p).trans ?_
    cases e.uri? p <;> rfl

theorem depth_ofOpened (opened : List Element) : k.depth (k.ofOpened opened) = opened.length := by
  induction opened with
  | nil => exact h.depth_empty
  | cons e opened ih =>
    rw [List.length_cons, ← ih]
    exact h.depth_push (k.ofOpened opened) e

/-- **Such steps find innermost declarations.**  After any moves there is what opening the elements
still open makes, and for these it is an induction on the list of them. -/
theorem findsInnermost : k.FindsInnermost where
  found moves p u := by
    simp only [h.after_eq, h.uriFor_ofOpened, List.findSome?_eq_some_iff, Element.uri?_eq_some_iff,
      Element.uri?_eq_none_iff, InnermostDeclares]
  unbound moves p := by
    simp only [h.after_eq, h.uriFor_ofOpened, List.findSome?_eq_none_iff, Element.uri?_eq_none_iff]
  counted moves := by rw [h.after_eq, h.depth_ofOpened]
  restored := h.pop_push
  idle := h.pop_of_depth

end Steps

end Scoping

/-! ## 4. The scope, and one that is cut by lengths -/

/-- The scope of the evaluation, which counts the bindings of each element. -/
def Scope.scoping : Scoping Scope := ⟨.empty, Scope.push, Scope.pop, Scope.uriFor, Scope.depth⟩

/-- The bindings in the order in which they were made, and how many there were when each of the open
elements was opened, the innermost element last (`push`, `pop`, `uri_for`). -/
structure FlatScope where
  bindings : List (String × String)
  frames : List Nat

namespace FlatScope

def empty : FlatScope := ⟨[], []⟩

def push (s : FlatScope) (e : Element) : FlatScope :=
  ⟨s.bindings ++ e.namespaceDeclarations, s.frames ++ [s.bindings.length]⟩

/-- Close the innermost element: cut the bindings to the number that there were before it. -/
def pop (s : FlatScope) : FlatScope :=
  match s.frames.getLast? with
  | none => s
  | some n => ⟨s.bindings.take n, s.frames.dropLast⟩

/-- The URI of a prefix: its last binding counts. -/
def uriFor (s : FlatScope) (p : String) : Option String :=
  (s.bindings.reverse.find? (·.1 == p)).map (·.2)

def depth (s : FlatScope) : Nat := s.frames.length

def scoping : Scoping FlatScope := ⟨empty, push, pop, uriFor, depth⟩

theorem steps : scoping.Steps where
  pop_push s e := by simp [scoping, push, pop]
  pop_of_depth s h := by
    have hframes : s.frames = [] := List.length_eq_zero_iff.mp h
    simp [scoping, pop, hframes]
  uriFor_empty p := rfl
  uriFor_push s e p := by
    show ((s.bindings ++ e.namespaceDeclarations).reverse.find? _).map _ = _
    rw [List.reverse_append, List.find?_append, Option.map_or]
    rfl
  depth_empty := rfl
  depth_push s e := List.length_append

end FlatScope

theorem Scope.steps : Scope.scoping.Steps where
  pop_push := pop_push
  pop_of_depth s h := by
    have hadded : s.added = [] := List.length_eq_zero_iff.mp h
    simp [scoping, pop, hadded]
  uriFor_empty p := rfl
  uriFor_push s e p := by
    show ((e.namespaceDeclarations.reverse ++ s.bindings).find? _).map _ = _
    rw [List.find?_append, Option.map_or]
    rfl
  depth_empty := rfl
  depth_push s e := rfl

/-- **A scope finds innermost declarations**, after any history of opening and closing, whether it
counts the bindings of each element or cuts one list to remembered lengths.  Nothing of the history
shows but the elements that are open. -/
theorem Scope.finds_innermost :
    Scope.scoping.FindsInnermost ∧ FlatScope.scoping.FindsInnermost :=
  ⟨Scope.steps.findsInnermost, FlatScope.steps.findsInnermost⟩

end LivingDoc
