import LivingDoc.Fixture.Table
import LivingDoc.Proofs.Fixture.Calls

/-!
# Accessors of properties

Where a fixture has no operation of a name, and the name is asked for without arguments, it may be
the name of a property, and an accessor serves: the one that gets the property, or else the one that
says whether it is so.  An accessor that wants arguments serves nobody who has none to give.

The look-up is not quite that.  It takes the first accessor there is, and sees only then whether
that one wants arguments.  So an accessor of no use hides the one behind it, and this is all that is
lost.

* `Invocation.lookUp_eq_some_iff`: what is looked up is what serves, unless it is hidden.
* `Invocation.accessors_serve_unless_hidden`: what follows for an invocation.
* `Switch.not_forall_serves`: an operation may serve and still not be found.
-/

namespace LivingDoc

namespace Invocation

/-! ## 1. What serves -/

/-- The name of the accessor that gets a property. -/
def getterName (operation : String) : String := "get" ++ Text.capitalized operation

/-- The name of the accessor that says whether a property holds. -/
def testName (operation : String) : String := "is" ++ Text.capitalized operation

/-- Which signature serves an operation: the one of its name, and only where there is none and no
arguments are given the one of an accessor without parameters, with the getter first.  The empty
name is that of no property.  This is the reading of "property-style fallbacks are tried"
(specification, 4.3) by which an accessor of no use is passed over. -/
inductive Serves (resolve : String → Option Signature) (operation : String)
    (as : List Argument) : Signature → Prop
  | named {s : Signature} (found : resolve operation = some s) : Serves resolve operation as s
  | getter {s : Signature} (missing : resolve operation = none) (bare : as = [])
      (nonempty : operation ≠ "") (found : resolve (getterName operation) = some s)
      (noParams : s.params = []) : Serves resolve operation as s
  | test {s : Signature} (missing : resolve operation = none) (bare : as = [])
      (nonempty : operation ≠ "")
      (noGetter : ∀ g, resolve (getterName operation) = some g → g.params ≠ [])
      (found : resolve (testName operation) = some s) (noParams : s.params = []) :
      Serves resolve operation as s

/-- A signature serves, but a getter that wants arguments stands in front of it.  The look-up stops
at the first accessor that exists and drops it for its parameters, so this is exactly what it
misses. -/
structure Hidden (resolve : String → Option Signature) (operation : String) (as : List Argument)
    (s : Signature) : Prop where
  missing : resolve operation = none
  bare : as = []
  nonempty : operation ≠ ""
  getter : ∃ g, resolve (getterName operation) = some g ∧ g.params ≠ []
  found : resolve (testName operation) = some s
  noParams : s.params = []

variable {resolve : String → Option Signature} {operation : String} {as : List Argument}
  {s t : Signature}

theorem Hidden.serves (h : Hidden resolve operation as s) : Serves resolve operation as s := by
  obtain ⟨g, hg, hparams⟩ := h.getter
  refine .test h.missing h.bare h.nonempty ?_ h.found h.noParams
  intro g' hg'
  obtain rfl := Option.some.inj (hg.symm.trans hg')
  exact hparams

theorem serves_iff_of_found (h : resolve operation = some t) :
    Serves resolve operation as s ↔ s = t := by
  constructor
  · intro hs
    cases hs with
    | named found => exact Option.some.inj (found.symm.trans h)
    | getter missing => exact absurd (h.symm.trans missing) (Option.some_ne_none t)
    | test missing => exact absurd (h.symm.trans missing) (Option.some_ne_none t)
  · rintro rfl
    exact .named h

theorem serves_iff_of_ne_nil (has : as ≠ []) :
    Serves resolve operation as s ↔ resolve operation = some s := by
  constructor
  · intro h
    cases h with
    | named found => exact found
    | getter _ bare => exact absurd bare has
    | test _ bare => exact absurd bare has
  · exact .named

theorem not_serves_empty (hmissing : resolve "" = none) : ¬Serves resolve "" as s := by
  intro h
  cases h with
  | named found => exact absurd (found.symm.trans hmissing) (Option.some_ne_none s)
  | getter _ _ nonempty => exact nonempty rfl
  | test _ _ nonempty => exact nonempty rfl

/-- Without arguments, what serves a property and is not hidden is the getter without parameters, or
where there is no getter the other accessor without parameters.  In this form it can be compared
with what is looked up. -/
theorem serves_and_not_hidden_iff (hmissing : resolve operation = none) (hne : operation ≠ "") :
    Serves resolve operation [] s ∧ ¬Hidden resolve operation [] s ↔
      (resolve (getterName operation) = some s ∨
        resolve (getterName operation) = none ∧ resolve (testName operation) = some s) ∧
      s.params = [] := by
  constructor
  · rintro ⟨hserves, hnot⟩
    cases hserves with
    | named found => exact absurd (found.symm.trans hmissing) (Option.some_ne_none s)
    | getter _ _ _ found noParams => exact ⟨.inl found, noParams⟩
    | test _ _ _ noGetter found noParams =>
      cases hget : resolve (getterName operation) with
      | none => exact ⟨.inr ⟨rfl, found⟩, noParams⟩
      | some g =>
        exact absurd ⟨hmissing, rfl, hne, ⟨g, hget, noGetter g hget⟩, found, noParams⟩ hnot
  · rintro ⟨hget | ⟨hnone, htest⟩, hparams⟩
    · refine ⟨.getter hmissing rfl hne hget hparams, ?_⟩
      intro h
      obtain ⟨g, hg, hwants⟩ := h.getter
      obtain rfl := Option.some.inj (hget.symm.trans hg)
      exact hwants hparams
    · have hno : ∀ g, resolve (getterName operation) ≠ some g := fun g hg =>
        absurd (hg.symm.trans hnone) (Option.some_ne_none g)
      refine ⟨.test hmissing rfl hne (fun g hg => absurd hg (hno g)) htest hparams, ?_⟩
      intro h
      obtain ⟨g, hg, -⟩ := h.getter
      exact hno g hg

/-! ## 2. What is looked up -/

/-- Without arguments the first accessor there is is looked up, if it has no parameters. -/
theorem lookUp_of_missing (hmissing : resolve operation = none) (hne : operation ≠ "") :
    lookUp resolve operation true
      = ((resolve (getterName operation)).or (resolve (testName operation))).filter
          (·.params.isEmpty) := by
  have hnames : accessorNames operation = [getterName operation, testName operation] := by
    rw [accessorNames, if_neg (by simpa using hne), getterName, testName]
  rw [lookUp, hmissing, hnames, List.findSome?_cons]
  dsimp only
  rw [if_pos rfl]
  cases resolve (getterName operation) with
  | some g => rfl
  | none => cases htest : resolve (testName operation) <;> simp [htest]

/-- **What is looked up is what serves, unless it is hidden.**  By cases on whether the name is
found, whether there are arguments, and whether there is a getter. -/
theorem lookUp_eq_some_iff :
    lookUp resolve operation as.isEmpty = some s ↔
      Serves resolve operation as s ∧ ¬Hidden resolve operation as s := by
  cases hname : resolve operation with
  | some t =>
    have hnot : ¬Hidden resolve operation as s := fun h =>
      absurd (hname.symm.trans h.missing) (Option.some_ne_none t)
    rw [lookUp, hname, serves_iff_of_found hname, and_iff_left hnot, Option.some.injEq, eq_comm]
  | none =>
    cases as with
    | cons a as =>
      have hnot : ¬Hidden resolve operation (a :: as) s := fun h =>
        absurd h.bare (List.cons_ne_nil a as)
      rw [lookUp, serves_iff_of_ne_nil (List.cons_ne_nil a as), and_iff_left hnot, hname]
      exact Iff.rfl
    | nil =>
      by_cases hne : operation = ""
      · subst hne
        have hnone : lookUp resolve "" true = none := by
          rw [lookUp, hname]
          rfl
        rw [List.isEmpty_nil, hnone]
        exact iff_of_false (Option.some_ne_none s).symm fun h => not_serves_empty hname h.1
      · rw [List.isEmpty_nil, lookUp_of_missing hname hne, serves_and_not_hidden_iff hname hne,
          Option.filter_eq_some_iff, Option.or_eq_some_iff, List.isEmpty_iff]

theorem Hidden.lookUp_eq_none (h : Hidden resolve operation as s) :
    lookUp resolve operation as.isEmpty = none := by
  obtain ⟨g, hget, hwants⟩ := h.getter
  rw [h.bare, List.isEmpty_nil, lookUp_of_missing h.missing h.nonempty, hget, Option.some_or,
    Option.filter_some, if_neg (by simpa using hwants)]

/-! ## 3. Invocations -/

variable {σ : Type}

/-- Invoke the operation that a signature is of: bind the arguments to it and call it by its name.
It is `invoke` behind the look-up. -/
def carryOut (f : Fixture σ) (s : σ) (signature : Signature) (as : List Argument) : Invoked σ :=
  match bindArguments signature as with
  | .error e => ⟨.error e, [], s⟩
  | .ok values =>
    ⟨resultOf signature.name (f.call s signature.name values).1,
      [⟨f.typeName, signature.name, values⟩], (f.call s signature.name values).2⟩

theorem invoke_of_lookUp {f : Fixture σ} {s : σ} {signature : Signature}
    (h : lookUp (f.resolve s) operation as.isEmpty = some signature) :
    invoke f s operation as = carryOut f s signature as := by
  rw [invoke, h]
  rfl

theorem invoke_of_lookUp_eq_none {f : Fixture σ} {s : σ}
    (h : lookUp (f.resolve s) operation as.isEmpty = none) :
    invoke f s operation as = ⟨.error (.operationNotFound operation f.typeName), [], s⟩ := by
  rw [invoke, h]

theorem carryOut_ne_operationNotFound (f : Fixture σ) (s : σ) (signature : Signature)
    (as : List Argument) (o typeName : String) :
    (carryOut f s signature as).result ≠ .error (.operationNotFound o typeName) := by
  rw [carryOut]
  cases hbind : bindArguments signature as with
  | error e =>
    intro h
    obtain rfl := Except.error.inj h
    exact isOfArguments_of_bindArguments hbind
  | ok values => exact fun h => not_isEarly_of_resultOf h trivial

/-- **An accessor serves unless it is hidden.**  The operation that serves is carried out, if no
getter that wants arguments stands in front of it; if one does, nothing happens.  An operation is
not found exactly where all that would serve is hidden, so in particular where nothing serves.  With
arguments nothing serves but the operation of that name. -/
theorem accessors_serve_unless_hidden (f : Fixture σ) (s : σ) (operation : String)
    (as : List Argument) :
    (∀ signature, Serves (f.resolve s) operation as signature →
      ¬Hidden (f.resolve s) operation as signature →
        invoke f s operation as = carryOut f s signature as) ∧
    (∀ signature, Hidden (f.resolve s) operation as signature →
      Serves (f.resolve s) operation as signature ∧
        invoke f s operation as = ⟨.error (.operationNotFound operation f.typeName), [], s⟩) ∧
    ((invoke f s operation as).result = .error (.operationNotFound operation f.typeName) ↔
      ∀ signature, Serves (f.resolve s) operation as signature →
        Hidden (f.resolve s) operation as signature) ∧
    (as ≠ [] → ∀ signature,
      Serves (f.resolve s) operation as signature ↔ f.resolve s operation = some signature) := by
  refine ⟨?_, ?_, ?_, fun has _ => serves_iff_of_ne_nil has⟩
  · exact fun signature hserves hnot =>
      invoke_of_lookUp (lookUp_eq_some_iff.mpr ⟨hserves, hnot⟩)
  · exact fun signature hhidden =>
      ⟨hhidden.serves, invoke_of_lookUp_eq_none hhidden.lookUp_eq_none⟩
  · cases hlook : lookUp (f.resolve s) operation as.isEmpty with
    | none =>
      rw [invoke_of_lookUp_eq_none hlook]
      refine iff_of_true rfl ?_
      intro signature hserves
      by_contra hnot
      rw [lookUp_eq_some_iff.mpr ⟨hserves, hnot⟩] at hlook
      exact Option.some_ne_none signature hlook
    | some signature =>
      obtain ⟨hserves, hnot⟩ := lookUp_eq_some_iff.mp hlook
      rw [invoke_of_lookUp hlook]
      exact iff_of_false (carryOut_ne_operationNotFound f s signature as operation f.typeName)
        fun hall => hnot (hall signature hserves)

end Invocation

/-! ### A switch

A fixture says whether something is active, and gives what was active at a certain time.  The
property cannot be asked for. -/

namespace Switch

open Invocation

/-- What is active, at a time. -/
def getActive : Operation Unit :=
  ⟨⟨"getActive", [⟨"time", .text⟩]⟩, fun s _ => (.returned (.text "lamp"), s)⟩

def isActive : Operation Unit := ⟨⟨"isActive", []⟩, fun s _ => (.returned (.bool true), s)⟩

def fixture : Fixture Unit :=
  (((OperationTable.empty "a").register getActive).register isActive).fixture

theorem serves_isActive : Serves (fixture.resolve ()) "active" [] isActive.signature := by
  refine .test (by decide +kernel) rfl (by decide) ?_ (by decide +kernel) rfl
  intro g hg
  have hget : fixture.resolve () (getterName "active") = some getActive.signature := by
    decide +kernel
  obtain rfl := Option.some.inj (hget.symm.trans hg)
  exact List.cons_ne_nil _ _

/-- **An operation that serves need not be carried out.**  The getter of `active` wants a time and
hides `isActive`, which would say that something is. -/
theorem not_forall_serves : ¬ ∀ (f : Fixture Unit) (operation : String) (as : List Argument)
    (signature : Signature), Serves (f.resolve ()) operation as signature →
      invoke f () operation as = carryOut f () signature as := by
  intro hall
  have hinvoke := hall fixture "active" [] isActive.signature serves_isActive
  have hcalls : (invoke fixture () "active" []).calls = [] := by decide +kernel
  rw [hinvoke] at hcalls
  exact absurd hcalls (by decide +kernel)

end Switch

end LivingDoc
