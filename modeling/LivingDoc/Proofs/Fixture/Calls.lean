import LivingDoc.Fixture.Invocation
import LivingDoc.Fixture.Table
import LivingDoc.Proofs.Value.Coercion
import Mathlib.Data.List.Forall2

/-!
# Calls match their signatures

The operations of a fixture take their arguments apart without looking: there are as many as the
signature has parameters, and each has the type of its parameter.  That is for the invocation to see
to, and between the name in a document and the call it can go wrong in many ways, none of which may
reach the fixture.

* `Invocation.invokes_invoke`: an invocation is refused before anything happens, or makes one call
  that matches a signature that the fixture has for the operation.
* `Invocation.invoke_watched`: the calls on record are those that the fixture sees.
* `Invocation.calls_match_signatures`: so no call is made that its operation is not prepared for,
  and where none is made the state is as it was.
-/

namespace LivingDoc

namespace Invocation

/-- The values are as many as the parameters of the signature, each of the type of its own. -/
abbrev Fits (s : Signature) (values : List Value) : Prop :=
  List.Forall₂ (fun p v => p.type.Accepts v) s.params values

/-- The fault is one that is found before anything is called. -/
def Fault.IsEarly : Fault → Prop
  | .operationNotFound .. | .arity .. | .unknownParameter .. | .duplicateParameter ..
  | .coercion .. => True
  | .raised .. | .panicked .. => False

/-- The fault is one of the arguments, for an operation that there is. -/
def Fault.IsOfArguments : Fault → Prop
  | .arity .. | .unknownParameter .. | .duplicateParameter .. | .coercion .. => True
  | .operationNotFound .. | .raised .. | .panicked .. => False

theorem Fault.IsOfArguments.isEarly {e : Fault} (h : e.IsOfArguments) : e.IsEarly := by
  cases e <;> trivial

/-! ## 1. Binding -/

theorem length_of_fillSlots {s : Signature} {given : Nat} {as : List Argument} {next : Nat}
    {slots filled : List (Option Value)} (h : fillSlots s given as next slots = .ok filled) :
    filled.length = slots.length := by
  induction as generalizing next slots with
  | nil =>
    cases h
    rfl
  | cons a as ih =>
    unfold fillSlots at h
    dsimp only at h
    split at h
    · contradiction
    · split at h
      · rw [ih h, List.length_set]
      · contradiction
      · contradiction

/-- Where arguments cannot be put into slots, they are at fault. -/
theorem isOfArguments_of_fillSlots {s : Signature} {given : Nat} {as : List Argument} {next : Nat}
    {slots : List (Option Value)} {e : Fault} (h : fillSlots s given as next slots = .error e) :
    e.IsOfArguments := by
  induction as generalizing next slots with
  | nil => contradiction
  | cons a as ih =>
    unfold fillSlots at h
    dsimp only at h
    split at h
    · cases h
      trivial
    · split at h
      · exact ih h
      · cases h
        trivial
      · cases h
        trivial

/-- The values that slots are converted to are of the types of their parameters, if there is a slot
for each.  By induction on the parameters; filling keeps the number of slots, which is where the
condition comes from. -/
theorem accepts_of_convertSlots {s : Signature} {given : Nat} {ps : List Param}
    {slots : List (Option Value)} {values : List Value} (hl : slots.length = ps.length)
    (h : convertSlots s given ps slots = .ok values) :
    List.Forall₂ (fun p v => p.type.Accepts v) ps values := by
  induction ps generalizing slots values with
  | nil =>
    cases h
    exact .nil
  | cons p ps ih =>
    cases slots with
    | nil => simp at hl
    | cons slot slots =>
      cases slot with
      | none => contradiction
      | some v =>
        unfold convertSlots at h
        split at h
        · contradiction
        · rename_i w hw
          cases hrest : convertSlots s given ps slots with
          | error e =>
            rw [hrest] at h
            contradiction
          | ok ws =>
            rw [hrest] at h
            cases h
            exact .cons (Value.accepts_of_coerce hw) (ih (Nat.succ.inj hl) hrest)

theorem isOfArguments_of_convertSlots {s : Signature} {given : Nat} {ps : List Param}
    {slots : List (Option Value)} {e : Fault} (h : convertSlots s given ps slots = .error e) :
    e.IsOfArguments := by
  induction ps generalizing slots with
  | nil => contradiction
  | cons p ps ih =>
    cases slots with
    | nil => contradiction
    | cons slot slots =>
      cases slot with
      | none =>
        cases h
        trivial
      | some v =>
        unfold convertSlots at h
        split at h
        · cases h
          trivial
        · cases hrest : convertSlots s given ps slots with
          | error e' =>
            rw [hrest] at h
            cases h
            exact ih hrest
          | ok ws =>
            rw [hrest] at h
            contradiction

theorem fits_of_bindArguments {s : Signature} {as : List Argument} {values : List Value}
    (h : bindArguments s as = .ok values) : Fits s values := by
  unfold bindArguments at h
  split at h
  · contradiction
  · rename_i slots hslots
    refine accepts_of_convertSlots ?_ h
    rw [length_of_fillSlots hslots, List.length_replicate]

theorem isOfArguments_of_bindArguments {s : Signature} {as : List Argument} {e : Fault}
    (h : bindArguments s as = .error e) : e.IsOfArguments := by
  unfold bindArguments at h
  split at h
  · rename_i hslots
    cases h
    exact isOfArguments_of_fillSlots hslots
  · exact isOfArguments_of_convertSlots h

/-! ## 2. Looking up -/

/-- What a fixture has for an operation: a signature of that name, or without one and without
arguments a signature without parameters for an accessor of the name.  Which accessor is not said:
that is another matter than whether calls match. -/
inductive Offers (resolve : String → Option Signature) (operation : String) (as : List Argument) :
    Signature → Prop
  | named {s : Signature} (found : resolve operation = some s) : Offers resolve operation as s
  | accessor {s : Signature} {name : String} (missing : resolve operation = none) (bare : as = [])
      (mem : name ∈ accessorNames operation) (found : resolve name = some s)
      (noParams : s.params = []) : Offers resolve operation as s

theorem offers_of_lookUp {resolve : String → Option Signature} {operation : String}
    {as : List Argument} {s : Signature} (h : lookUp resolve operation as.isEmpty = some s) :
    Offers resolve operation as s := by
  unfold lookUp at h
  split at h
  · rename_i hs
    cases h
    exact .named hs
  · rename_i hnone
    split at h
    · rename_i hbare
      obtain ⟨hfound, hparams⟩ := Option.filter_eq_some_iff.mp h
      obtain ⟨name, hmem, hname⟩ := List.exists_of_findSome?_eq_some hfound
      exact .accessor hnone (List.isEmpty_iff.mp hbare) hmem hname (List.isEmpty_iff.mp hparams)
    · contradiction

/-! ## 3. The invocation -/

variable {σ : Type}

/-- The two ways of an invocation.  Each constructor gives the whole of what is left behind: result,
calls and state. -/
inductive Invokes (f : Fixture σ) (s : σ) (operation : String) (as : List Argument) :
    Invoked σ → Prop
  /-- It is refused, and nothing has happened. -/
  | refused {e : Fault} (early : e.IsEarly) : Invokes f s operation as ⟨.error e, [], s⟩
  /-- It makes one call, with values that fit a signature on offer, and comes to what that does. -/
  | called {signature : Signature} {values : List Value}
      (offered : Offers (f.resolve s) operation as signature) (fits : Fits signature values) :
      Invokes f s operation as ⟨resultOf signature.name (f.call s signature.name values).1,
        [⟨f.typeName, signature.name, values⟩], (f.call s signature.name values).2⟩

/-- **An invocation is refused, or makes one call that fits.**  One case for each place where it can
stop: looking up, binding, and the call. -/
theorem invokes_invoke (f : Fixture σ) (s : σ) (operation : String) (as : List Argument) :
    Invokes f s operation as (invoke f s operation as) := by
  unfold invoke
  split
  · exact .refused trivial
  · rename_i signature hlook
    split
    · rename_i hbind
      exact .refused (isOfArguments_of_bindArguments hbind).isEarly
    · rename_i values hbind
      exact .called (offers_of_lookUp hlook) (fits_of_bindArguments hbind)

theorem not_isEarly_of_resultOf {operation : String} {reply : Reply} {e : Fault}
    (h : resultOf operation reply = .error e) : ¬ e.IsEarly := by
  cases reply with
  | returned v => contradiction
  | raised m causes =>
    cases h
    exact id
  | panicked m =>
    cases h
    exact id

/-- What is to be said of the calls of an invocation. -/
structure Orderly (f : Fixture σ) (s : σ) (operation : String) (as : List Argument)
    (r : Invoked σ) : Prop where
  /-- There is at most one. -/
  once : r.calls.length ≤ 1
  /-- It names a signature on offer, and its arguments fit. -/
  matched : ∀ c ∈ r.calls, ∃ signature, Offers (f.resolve s) operation as signature ∧
    c.operation = signature.name ∧ c.arguments.length = signature.params.length ∧
      Fits signature c.arguments
  /-- It makes the result and the state. -/
  answered : ∀ c ∈ r.calls, r.result = resultOf c.operation (f.call s c.operation c.arguments).1 ∧
    r.state = (f.call s c.operation c.arguments).2
  /-- There is none exactly where a fault is found before, and then the state is as it was. -/
  refused : r.calls = [] ↔ ∃ e : Fault, e.IsEarly ∧ r.result = .error e
  unchanged : r.calls = [] → r.state = s

/-- Whichever way an invocation goes, its calls are in order. -/
theorem Invokes.orderly {f : Fixture σ} {s : σ} {operation : String} {as : List Argument}
    {r : Invoked σ} (h : Invokes f s operation as r) : Orderly f s operation as r := by
  cases h with
  | @refused e early =>
    refine ⟨Nat.zero_le 1, ?_, ?_, ⟨fun _ => ⟨e, early, rfl⟩, fun _ => rfl⟩, fun _ => rfl⟩
    · exact fun c hc => absurd hc List.not_mem_nil
    · exact fun c hc => absurd hc List.not_mem_nil
  | @called signature values offered fits =>
    refine ⟨Nat.le_refl 1, ?_, ?_, ⟨?_, ?_⟩, ?_⟩
    · intro c hc
      obtain rfl := List.mem_singleton.mp hc
      exact ⟨signature, offered, rfl, fits.length_eq.symm, fits⟩
    · intro c hc
      obtain rfl := List.mem_singleton.mp hc
      exact ⟨rfl, rfl⟩
    · exact fun hnone => absurd hnone (List.cons_ne_nil _ _)
    · rintro ⟨e, hearly, hresult⟩
      exact absurd hearly (not_isEarly_of_resultOf hresult)
    · exact fun hnone => absurd hnone (List.cons_ne_nil _ _)

end Invocation

/-! ## 4. What the fixture sees -/

/-- The fixture with a state that has the calls made on it beside its own.  What an invocation says
of its calls could be wrong; what the fixture writes down cannot. -/
def Fixture.watched {σ : Type} (f : Fixture σ) : Fixture (σ × List Call) where
  typeName := f.typeName
  resolve s := f.resolve s.1
  call s operation values :=
    ((f.call s.1 operation values).1, (f.call s.1 operation values).2,
      s.2 ++ [⟨f.typeName, operation, values⟩])

namespace Invocation

variable {σ : Type}

/-- **The calls on record are those that the fixture sees.** -/
theorem invoke_watched (f : Fixture σ) (s : σ) (seen : List Call) (operation : String)
    (as : List Argument) :
    invoke f.watched (s, seen) operation as =
      ⟨(invoke f s operation as).result, (invoke f s operation as).calls,
        (invoke f s operation as).state, seen ++ (invoke f s operation as).calls⟩ := by
  have hlook : lookUp (f.watched.resolve (s, seen)) operation as.isEmpty
      = lookUp (f.resolve s) operation as.isEmpty := rfl
  unfold invoke
  rw [hlook]
  cases lookUp (f.resolve s) operation as.isEmpty with
  | none => simp only [List.append_nil, Fixture.watched]
  | some signature =>
    dsimp only
    cases bindArguments signature as with
    | error e => simp only [List.append_nil]
    | ok values => rfl

/-! ## 5. Tables of operations -/

/-- What a table offers for an operation is in it under the name it has. -/
theorem find?_of_offers {t : OperationTable σ} {s : σ} {operation : String} {as : List Argument}
    {signature : Signature} (h : Offers (t.fixture.resolve s) operation as signature) :
    ∃ o ∈ t.operations, t.find? signature.name = some o ∧ o.signature = signature := by
  have named : ∀ {name : String}, t.fixture.resolve s name = some signature →
      ∃ o ∈ t.operations, t.find? signature.name = some o ∧ o.signature = signature := by
    intro name hname
    obtain ⟨o, ho, rfl⟩ := Option.map_eq_some_iff.mp hname
    have heq : o.signature.name = name := by simpa using List.find?_some ho
    exact ⟨o, List.mem_of_find?_eq_some ho, heq ▸ ho, rfl⟩
  cases h with
  | named found => exact named found
  | accessor _ _ _ found _ => exact named found

/-- **Calls match their signatures.**  On any fixture, an invocation makes at most one call; it
names a signature that the fixture has for the operation or for an accessor of it, with a value of
the right type for every parameter; and where the operation is not found or the arguments cannot be
bound, the fixture is not called and its state is as it was.  The calls on record are those that the
fixture sees.  A table of operations is never called by a name that is not in it. -/
theorem calls_match_signatures (f : Fixture σ) (s : σ) (operation : String) (as : List Argument) :
    Orderly f s operation as (invoke f s operation as) ∧
    (∀ seen, (invoke f.watched (s, seen) operation as).state =
      ((invoke f s operation as).state, seen ++ (invoke f s operation as).calls)) ∧
    ∀ t : OperationTable σ, ∀ c ∈ (invoke t.fixture s operation as).calls,
      ∃ o ∈ t.operations, t.find? c.operation = some o ∧ Fits o.signature c.arguments ∧
        (invoke t.fixture s operation as).result
          = resultOf c.operation (o.body s c.arguments).1 ∧
        (invoke t.fixture s operation as).state = (o.body s c.arguments).2 := by
  refine ⟨(invokes_invoke f s operation as).orderly, ?_, ?_⟩
  · intro seen
    rw [invoke_watched]
  · intro t c hc
    have horderly := (invokes_invoke t.fixture s operation as).orderly
    obtain ⟨signature, hoffered, hname, -, hfits⟩ := horderly.matched c hc
    obtain ⟨hresult, hstate⟩ := horderly.answered c hc
    obtain ⟨o, hmem, hfind, rfl⟩ := find?_of_offers hoffered
    rw [← hname] at hfind
    have hcall : t.fixture.call s c.operation c.arguments = o.body s c.arguments := by
      show t.call s c.operation c.arguments = o.body s c.arguments
      unfold OperationTable.call
      rw [hfind]
    rw [hcall] at hresult hstate
    exact ⟨o, hmem, hfind, hfits, hresult, hstate⟩

end Invocation

end LivingDoc
