import LivingDoc.Fixture.Table
import Mathlib.Data.List.Basic
import Mathlib.Data.List.Induction

/-!
# Registering operations

A table of operations is searched from the front, and what is registered goes to its end.  So a
later registration would be hidden by an earlier one of its name, if that were not taken out.
Looking up a signature and making a call are two searches, and they must come to the same operation
after any history of registrations and calls.

A body is a function, and nothing shows that it was run but what it replies and leaves.  So bodies
are made to show it: where each operation makes a note of its place, the notes are the bodies that
were run.

* `OperationTable.find?_register`: what a registration changes.
* `Assembly.find?_after_iff`: after a history an operation is found if and only if its registration
  is the last one of its name.
* `Assembly.Alike.after`: what is alike stays alike.
* `Assembly.last_registration_counts`: what follows for names, signatures and calls.
-/

namespace LivingDoc

variable {σ : Type}

/-! ## 1. One registration -/

namespace OperationTable

/-- **A registration changes what is found under its name and nothing else.**  Taking out what has
the name hides no other operation, and what is put at the end is the only one left of its name. -/
theorem find?_register (t : OperationTable σ) (o : Operation σ) (name : String) :
    (t.register o).find? name = if o.signature.name = name then some o else t.find? name := by
  have hnew : [o].find? (·.signature.name == name) =
      if o.signature.name = name then some o else none := by simp [List.find?_singleton]
  rw [find?, register, List.find?_append, hnew]
  split
  · rename_i hname
    have hnone : (t.operations.filter (·.signature.name != o.signature.name)).find?
        (·.signature.name == name) = none := by
      rw [List.find?_eq_none]
      intro a ha
      rw [← hname]
      simpa using (List.mem_filter.mp ha).2
    rw [hnone, Option.none_or]
  · rename_i hname
    have hkept : ∀ a : Operation σ, a.signature.name = name → a.signature.name ≠ o.signature.name :=
      fun a ha h => hname (h.symm.trans ha)
    rw [List.find?_filter, Option.or_none, find?]
    congr 1
    funext a
    rw [Bool.eq_iff_iff]
    simpa using hkept a

theorem nodup_names_register {t : OperationTable σ} (h : t.names.Nodup) (o : Operation σ) :
    (t.register o).names.Nodup := by
  rw [names_register, List.nodup_append]
  refine ⟨h.filter _, List.pairwise_singleton .., ?_⟩
  intro a ha b hb
  obtain rfl := List.mem_singleton.mp hb
  simpa using (List.mem_filter.mp ha).2

end OperationTable

/-! ## 2. Histories -/

/-- A table of operations with the state that they work on. -/
structure Assembly (σ : Type) where
  table : OperationTable σ
  state : σ

/-- One use of an assembly: an operation is registered, the one of a name is called, or the state is
changed by somebody else.  A history is any list of these, so registrations may come between
calls. -/
inductive Use (σ : Type) where
  | register (o : Operation σ)
  | call (name : String) (arguments : List Value)
  | change (f : σ → σ)

/-- The last registration of a name in a history: which use it is, and what is registered. -/
structure IsLast (uses : List (Use σ)) (name : String) (i : Nat) (o : Operation σ) : Prop where
  registered : uses[i]? = some (.register o)
  named : o.signature.name = name
  last : ∀ j p, i < j → uses[j]? = some (.register p) → p.signature.name ≠ name

namespace Assembly

/-- No operation is registered yet. -/
def new (typeName : String) (s : σ) : Assembly σ := ⟨.empty typeName, s⟩

/-- The signature of the operation of that name. -/
def resolve (a : Assembly σ) (name : String) : Option Signature :=
  a.table.fixture.resolve a.state name

/-- Call the operation of that name. -/
def call (a : Assembly σ) (name : String) (arguments : List Value) : Reply × Assembly σ :=
  ((a.table.fixture.call a.state name arguments).1,
    { a with state := (a.table.fixture.call a.state name arguments).2 })

/-- What an assembly is after a use. -/
def use (a : Assembly σ) : Use σ → Assembly σ
  | .register o => { a with table := a.table.register o }
  | .call name arguments => (a.call name arguments).2
  | .change f => { a with state := f a.state }

/-- What an assembly is after a history. -/
def after (a : Assembly σ) (uses : List (Use σ)) : Assembly σ := uses.foldl use a

theorem after_append (a : Assembly σ) (uses more : List (Use σ)) :
    a.after (uses ++ more) = (a.after uses).after more := List.foldl_append

/-- A name resolves to the signature of what is found. -/
theorem resolve_eq_some_iff {a : Assembly σ} {name : String} {signature : Signature} :
    a.resolve name = some signature ↔ ∃ o, a.table.find? name = some o ∧ o.signature = signature :=
  Option.map_eq_some_iff

theorem resolve_eq_none_iff {a : Assembly σ} {name : String} :
    a.resolve name = none ↔ a.table.find? name = none := Option.map_eq_none_iff

theorem call_of_find? {a : Assembly σ} {name : String} {o : Operation σ}
    (h : a.table.find? name = some o) (vs : List Value) :
    a.call name vs = ((o.body a.state vs).1, { a with state := (o.body a.state vs).2 }) := by
  have hcall : a.table.fixture.call a.state name vs = o.body a.state vs := by
    show a.table.call a.state name vs = _
    rw [OperationTable.call, h]
  rw [call, hcall]

theorem call_of_find?_eq_none {a : Assembly σ} {name : String} (h : a.table.find? name = none)
    (vs : List Value) : a.call name vs = (.raised ("no operation named '" ++ name ++ "'") [], a) := by
  have hcall : a.table.fixture.call a.state name vs =
      (.raised ("no operation named '" ++ name ++ "'") [], a.state) := by
    show a.table.call a.state name vs = _
    rw [OperationTable.call, h]
  rw [call, hcall]

end Assembly

/-! ## 3. The last registration -/

theorem getElem?_concat_eq_some_iff {α : Type} {l : List α} {x y : α} {i : Nat} :
    (l ++ [x])[i]? = some y ↔ l[i]? = some y ∨ i = l.length ∧ x = y := by
  rcases Nat.lt_trichotomy i l.length with h | rfl | h
  · simp [List.getElem?_append_left h, Nat.ne_of_lt h]
  · simp
  · have hnone : l[i]? = none := List.getElem?_eq_none (Nat.le_of_lt h)
    have hend : (l ++ [x])[i]? = none := by
      rw [List.getElem?_eq_none_iff, List.length_append]
      exact h
    simp [hnone, hend, Nat.ne_of_gt h]

/-- One use more, and a registration is the last of its name if the use is this registration, or if
it was the last and the use registers nothing of the name. -/
theorem isLast_concat_iff {uses : List (Use σ)} {u : Use σ} {name : String} {i : Nat}
    {o : Operation σ} :
    IsLast (uses ++ [u]) name i o ↔
      (i = uses.length ∧ u = .register o ∧ o.signature.name = name) ∨
        IsLast uses name i o ∧ ∀ p, u = .register p → p.signature.name ≠ name := by
  have inside {j : Nat} {v : Use σ} (h : uses[j]? = some v) : j < uses.length :=
    (List.getElem?_eq_some_iff.mp h).1
  constructor
  · rintro ⟨registered, named, last⟩
    rcases getElem?_concat_eq_some_iff.mp registered with hthere | ⟨rfl, rfl⟩
    · refine .inr ⟨⟨hthere, named, ?_⟩, ?_⟩
      · exact fun j p hij hj => last j p hij (getElem?_concat_eq_some_iff.mpr (.inl hj))
      · exact fun p hp => last uses.length p (inside hthere)
          (getElem?_concat_eq_some_iff.mpr (.inr ⟨rfl, hp⟩))
    · exact .inl ⟨rfl, rfl, named⟩
  · rintro (⟨rfl, rfl, named⟩ | ⟨⟨registered, named, last⟩, hu⟩)
    · refine ⟨getElem?_concat_eq_some_iff.mpr (.inr ⟨rfl, rfl⟩), named, ?_⟩
      intro j p hj hp
      rcases getElem?_concat_eq_some_iff.mp hp with hthere | ⟨rfl, -⟩
      · exact absurd (inside hthere) (Nat.not_lt_of_gt hj)
      · exact absurd hj (Nat.lt_irrefl _)
    · refine ⟨getElem?_concat_eq_some_iff.mpr (.inl registered), named, ?_⟩
      intro j p hij hp
      rcases getElem?_concat_eq_some_iff.mp hp with hthere | ⟨-, rfl⟩
      · exact last j p hij hthere
      · exact hu p rfl

namespace Assembly

/-- What is found after one use more: what it registers, or what was found before if it registers
nothing of the name.  It has the form of `isLast_concat_iff`, which makes the induction over
histories one line. -/
theorem find?_use_iff {a : Assembly σ} {u : Use σ} {name : String} {o : Operation σ} :
    (a.use u).table.find? name = some o ↔
      (u = .register o ∧ o.signature.name = name) ∨
        a.table.find? name = some o ∧ ∀ p, u = .register p → p.signature.name ≠ name := by
  cases u with
  | register p =>
    rw [use, OperationTable.find?_register]
    split
    · rename_i hname
      simp only [Option.some.injEq, Use.register.injEq]
      constructor
      · rintro rfl
        exact .inl ⟨rfl, hname⟩
      · rintro (⟨rfl, -⟩ | ⟨-, hnot⟩)
        · rfl
        · exact absurd hname (hnot p rfl)
    · rename_i hname
      simp only [Use.register.injEq]
      constructor
      · intro h
        exact .inr ⟨h, fun q hq => hq ▸ hname⟩
      · rintro (⟨rfl, hyes⟩ | ⟨h, -⟩)
        · exact absurd hyes hname
        · exact h
  | call n vs => simp [use, call]
  | change f => simp [use]

/-- **After a history an operation is found if and only if its registration is the last one of its
name.**  By induction on the history from its end, since the last use is the one that decides. -/
theorem find?_after_iff {typeName : String} {s : σ} {uses : List (Use σ)} {name : String}
    {o : Operation σ} :
    ((new typeName s).after uses).table.find? name = some o ↔ ∃ i, IsLast uses name i o := by
  induction uses using List.reverseRecOn with
  | nil =>
    refine iff_of_false (Option.some_ne_none o).symm ?_
    rintro ⟨i, registered, -, -⟩
    rw [List.getElem?_nil] at registered
    exact Option.some_ne_none _ registered.symm
  | append_singleton uses u ih =>
    have huse : (new typeName s).after (uses ++ [u]) = ((new typeName s).after uses).use u :=
      after_append ..
    simp only [huse, find?_use_iff, ih, isLast_concat_iff, exists_or, exists_eq_left,
      exists_and_right]

/-- After a history nothing is found if and only if nothing of the name was registered: a
registration takes the place of one and takes none away. -/
theorem find?_after_eq_none_iff {typeName : String} {s : σ} {uses : List (Use σ)} {name : String} :
    ((new typeName s).after uses).table.find? name = none ↔
      ∀ o, Use.register o ∈ uses → o.signature.name ≠ name := by
  induction uses using List.reverseRecOn with
  | nil => exact iff_of_true rfl fun o ho => absurd ho List.not_mem_nil
  | append_singleton uses u ih =>
    have huse : (new typeName s).after (uses ++ [u]) = ((new typeName s).after uses).use u :=
      after_append ..
    simp only [huse, List.mem_append, List.mem_singleton, or_imp, forall_and, ← ih]
    cases u with
    | register p =>
      simp only [use, OperationTable.find?_register, Use.register.injEq, forall_eq]
      split
      · rename_i hname
        simp [hname]
      · rename_i hname
        simp [hname]
    | call n vs => simp [use, call]
    | change f => simp [use]

theorem nodup_names_after (typeName : String) (s : σ) (uses : List (Use σ)) :
    ((new typeName s).after uses).table.names.Nodup := by
  induction uses using List.reverseRecOn with
  | nil => exact List.nodup_nil
  | append_singleton uses u ih =>
    rw [after_append]
    cases u with
    | register o => exact OperationTable.nodup_names_register ih o
    | call n vs => exact ih
    | change f => exact ih

end Assembly

/-! ## 4. Which bodies are run -/

/-- The operation with a body that makes a note of a place when it is run.  Bodies are functions,
and two registrations may have the same one; notes tell which of them was run. -/
def Operation.noting (o : Operation σ) (place : Nat) : Operation (σ × List Nat) :=
  ⟨o.signature, fun s vs => ((o.body s.1 vs).1, ((o.body s.1 vs).2, s.2 ++ [place]))⟩

/-- The use with its place to be noted. -/
def Use.noting (place : Nat) : Use σ → Use (σ × List Nat)
  | .register o => .register (o.noting place)
  | .call name vs => .call name vs
  | .change f => .change fun s => (f s.1, s.2)

/-- A registration with notes is the one of the operation with notes. -/
theorem Use.noting_eq_register_iff {u : Use σ} {i : Nat} {p : Operation (σ × List Nat)} :
    u.noting i = .register p ↔ ∃ o, u = .register o ∧ o.noting i = p := by
  cases u <;> simp [Use.noting]

theorem IsLast.noting {uses : List (Use σ)} {name : String} {i : Nat} {o : Operation σ}
    (h : IsLast uses name i o) : IsLast (uses.mapIdx Use.noting) name i (o.noting i) where
  registered := by
    rw [List.getElem?_mapIdx, h.registered]
    rfl
  named := h.named
  last j p hij hj := by
    rw [List.getElem?_mapIdx] at hj
    obtain ⟨u, hu, hp⟩ := Option.map_eq_some_iff.mp hj
    obtain ⟨q, rfl, rfl⟩ := Use.noting_eq_register_iff.mp hp
    exact h.last j q hij hu

namespace Assembly

/-- After a history with notes: the state, and the places of the registrations whose bodies were
run. -/
def noted (typeName : String) (s : σ) (uses : List (Use σ)) : Assembly (σ × List Nat) :=
  (new typeName (s, [])).after (uses.mapIdx Use.noting)

variable {typeName : String} {s : σ} {uses : List (Use σ)} {name : String}

theorem find?_noted {i : Nat} {o : Operation σ} (h : IsLast uses name i o) :
    (noted typeName s uses).table.find? name = some (o.noting i) :=
  find?_after_iff.mpr ⟨i, h.noting⟩

theorem find?_noted_eq_none (h : ∀ o, Use.register o ∈ uses → o.signature.name ≠ name) :
    (noted typeName s uses).table.find? name = none := by
  refine find?_after_eq_none_iff.mpr ?_
  intro q hq
  obtain ⟨i, hi, heq⟩ := List.mem_mapIdx.mp hq
  obtain ⟨o, ho, rfl⟩ := Use.noting_eq_register_iff.mp heq
  exact h o (ho ▸ List.getElem_mem hi)

/-- What a call with notes comes to: what it comes to without, and the place of the registration. -/
theorem call_noted {i : Nat} {o : Operation σ} (h : IsLast uses name i o) (vs : List Value) :
    (noted typeName s uses).call name vs =
      ((o.body (noted typeName s uses).state.1 vs).1,
        { noted typeName s uses with
          state := ((o.body (noted typeName s uses).state.1 vs).2,
            (noted typeName s uses).state.2 ++ [i]) }) :=
  call_of_find? (find?_noted h) vs

theorem noted_concat (typeName : String) (s : σ) (uses : List (Use σ)) (u : Use σ) :
    noted typeName s (uses ++ [u]) = (noted typeName s uses).use (u.noting uses.length) := by
  rw [noted, List.mapIdx_concat, after_append]
  rfl

/-- Where the states are the same, a call with notes gets the reply of one without, and leaves the
same state. -/
theorem call_noted_agrees
    (hstate : (noted typeName s uses).state.1 = ((new typeName s).after uses).state) (name : String)
    (vs : List Value) :
    ((noted typeName s uses).call name vs).1 = (((new typeName s).after uses).call name vs).1 ∧
      ((noted typeName s uses).call name vs).2.state.1 =
        (((new typeName s).after uses).call name vs).2.state := by
  cases hfound : ((new typeName s).after uses).table.find? name with
  | none =>
    rw [call_of_find?_eq_none hfound,
      call_of_find?_eq_none (find?_noted_eq_none (find?_after_eq_none_iff.mp hfound))]
    exact ⟨rfl, hstate⟩
  | some o =>
    obtain ⟨i, hlast⟩ := find?_after_iff.mp hfound
    rw [call_of_find? hfound, call_noted hlast, hstate]
    exact ⟨rfl, rfl⟩

/-- **Notes leave the state as it is.**  By induction on the history from its end; a call finds the
operation with notes where it finds the one without. -/
theorem state_noted (typeName : String) (s : σ) (uses : List (Use σ)) :
    (noted typeName s uses).state.1 = ((new typeName s).after uses).state := by
  induction uses using List.reverseRecOn with
  | nil => rfl
  | append_singleton uses u ih =>
    rw [noted_concat, after_append]
    cases u with
    | register o => exact ih
    | call n vs => exact (call_noted_agrees ih n vs).2
    | change f => exact congrArg f ih

/-! ## 5. Registrations in another order -/

/-- Two assemblies have the same state and the same operation under each name; their tables may have
them in another order. -/
structure Alike (a b : Assembly σ) : Prop where
  state : a.state = b.state
  found (name : String) : a.table.find? name = b.table.find? name

variable {a b : Assembly σ}

theorem Alike.resolve (h : Alike a b) (name : String) : a.resolve name = b.resolve name :=
  congrArg (Option.map Operation.signature) (h.found name)

theorem Alike.call (h : Alike a b) (name : String) (vs : List Value) :
    (a.call name vs).1 = (b.call name vs).1 ∧ Alike (a.call name vs).2 (b.call name vs).2 := by
  cases hfound : b.table.find? name with
  | none =>
    rw [call_of_find?_eq_none hfound, call_of_find?_eq_none ((h.found name).trans hfound)]
    exact ⟨rfl, h⟩
  | some o =>
    rw [call_of_find? hfound, call_of_find? ((h.found name).trans hfound), h.state]
    exact ⟨rfl, rfl, h.found⟩

theorem Alike.use (h : Alike a b) (u : Use σ) : Alike (a.use u) (b.use u) := by
  cases u with
  | register o =>
    refine ⟨h.state, ?_⟩
    intro name
    rw [Assembly.use, Assembly.use, OperationTable.find?_register, OperationTable.find?_register,
      h.found]
  | call name vs => exact (h.call name vs).2
  | change f => exact ⟨congrArg f h.state, h.found⟩

/-- **What is alike stays alike**, whatever is done with both: each use asks a table for operations
by their names only. -/
theorem Alike.after (h : Alike a b) (uses : List (Use σ)) : Alike (a.after uses) (b.after uses) := by
  induction uses generalizing a b with
  | nil => exact h
  | cons u uses ih => exact ih (h.use u)

/-- Two registrations of different names may be made in either order. -/
theorem alike_register_register (a : Assembly σ) {o p : Operation σ}
    (h : o.signature.name ≠ p.signature.name) :
    Alike ((a.use (.register o)).use (.register p)) ((a.use (.register p)).use (.register o)) := by
  refine ⟨rfl, ?_⟩
  intro name
  simp only [use, OperationTable.find?_register]
  split
  · rename_i hp
    rw [if_neg fun ho => h (ho.trans hp.symm)]
  · rfl

/-! ## 6. What follows -/

/-- Two assemblies are not told apart by a look-up or a call. -/
structure AnswerAlike (a b : Assembly σ) : Prop where
  resolve (name : String) : a.resolve name = b.resolve name
  reply (name : String) (vs : List Value) : (a.call name vs).1 = (b.call name vs).1
  state (name : String) (vs : List Value) : (a.call name vs).2.state = (b.call name vs).2.state

theorem Alike.answerAlike (h : Alike a b) : AnswerAlike a b :=
  ⟨h.resolve, fun name vs => (h.call name vs).1, fun name vs => (h.call name vs).2.state⟩

/-- What is to be said of an assembly after a history, and of the one with notes. -/
structure LastCounts (uses : List (Use σ)) (a : Assembly σ) (b : Assembly (σ × List Nat)) :
    Prop where
  /-- No two operations have one name. -/
  distinct : a.table.names.Nodup
  /-- A name resolves to the signature of its last registration, -/
  resolved (name : String) (signature : Signature) : a.resolve name = some signature ↔
    ∃ i o, IsLast uses name i o ∧ o.signature = signature
  /-- and to nothing only if it was not registered. -/
  missing (name : String) :
    a.resolve name = none ↔ ∀ o, Use.register o ∈ uses → o.signature.name ≠ name
  /-- A call is one of the body of the last registration, on the state that there is, and leaves the
  operations as they are. -/
  called {name : String} {i : Nat} {o : Operation σ} (h : IsLast uses name i o)
    (vs : List Value) :
    a.call name vs = ((o.body a.state vs).1, { a with state := (o.body a.state vs).2 })
  /-- A call of a name that does not resolve raises an error and changes nothing. -/
  refused {name : String} (h : a.resolve name = none) (vs : List Value) :
    a.call name vs = (.raised ("no operation named '" ++ name ++ "'") [], a)
  /-- Notes change neither the state nor a reply, -/
  state : b.state.1 = a.state
  reply (name : String) (vs : List Value) : (b.call name vs).1 = (a.call name vs).1
  /-- and there is one note more after a call: that of the last registration, -/
  ran {name : String} {i : Nat} {o : Operation σ} (h : IsLast uses name i o) (vs : List Value) :
    (b.call name vs).2.state.2 = b.state.2 ++ [i]
  /-- or none if the name does not resolve. -/
  idle {name : String} (h : a.resolve name = none) (vs : List Value) :
    (b.call name vs).2.state.2 = b.state.2

/-- **The last registration of a name counts**, for its signature and for calls, after any history
of registrations, calls and changes of the state; and the order of two registrations next to each
other counts only if they are of one name. -/
theorem last_registration_counts (typeName : String) (s : σ) :
    (∀ uses : List (Use σ),
      LastCounts uses ((new typeName s).after uses) (noted typeName s uses)) ∧
    ∀ (before rest : List (Use σ)) (o p : Operation σ), o.signature.name ≠ p.signature.name →
      AnswerAlike ((new typeName s).after (before ++ .register o :: .register p :: rest))
        ((new typeName s).after (before ++ .register p :: .register o :: rest)) := by
  constructor
  · intro uses
    refine ⟨nodup_names_after typeName s uses, ?resolved, ?missing, ?called, ?refused,
      state_noted typeName s uses, ?reply, ?ran, ?idle⟩
    case resolved =>
      intro name signature
      simp only [resolve_eq_some_iff, find?_after_iff, ← exists_and_right]
      exact exists_comm
    case missing =>
      intro name
      rw [resolve_eq_none_iff, find?_after_eq_none_iff]
    case called =>
      intro name i o h vs
      exact call_of_find? (find?_after_iff.mpr ⟨i, h⟩) vs
    case refused =>
      intro name h vs
      exact call_of_find?_eq_none (resolve_eq_none_iff.mp h) vs
    case reply =>
      intro name vs
      exact (call_noted_agrees (state_noted typeName s uses) name vs).1
    case ran =>
      intro name i o h vs
      rw [call_noted h]
    case idle =>
      intro name h vs
      have hnone := find?_after_eq_none_iff.mp (resolve_eq_none_iff.mp h)
      rw [call_of_find?_eq_none (find?_noted_eq_none hnone)]
  · intro before rest o p h
    rw [after_append, after_append]
    exact ((alike_register_register _ h).after rest).answerAlike

end Assembly

/-! ### A counter whose step is registered twice -/

namespace Counter

open Assembly

def step : Operation Nat := ⟨⟨"step", []⟩, fun n _ => (.returned (.text "one"), n + 1)⟩

def leap : Operation Nat :=
  ⟨⟨"step", [⟨"by", .any⟩]⟩, fun n _ => (.returned (.text "ten"), n + 10)⟩

def reset : Operation Nat := ⟨⟨"reset", []⟩, fun _ _ => (.returned .null, 0)⟩

/-- The first step is used before the second one takes its place. -/
def uses : List (Use Nat) :=
  [.register step, .call "step" [], .register reset, .register leap, .call "step" [.null]]

theorem isLast_leap : IsLast uses "step" 3 leap where
  registered := rfl
  named := rfl
  last j p hj hp := by
    obtain rfl | hend : j = 4 ∨ 5 ≤ j := by omega
    · exact Use.noConfusion rfl (heq_of_eq (Option.some.inj hp))
    · rw [List.getElem?_eq_none hend] at hp
      exact absurd hp.symm (Option.some_ne_none _)

/-- Each step was run once, the second is the one that counts, and it might have been registered
before `reset`. -/
theorem counter_counts :
    LastCounts uses ((new "a" 0).after uses) (noted "a" 0 uses) ∧
    ((new "a" 0).after uses).call "step" [] = (.returned (.text "ten"),
      { (new "a" 0).after uses with state := 21 }) ∧
    ((new "a" 0).after uses).resolve "stop" = none ∧
    ((noted "a" 0 uses).call "stop" []).2.state = (11, [0, 3]) ∧
    reset.signature.name ≠ leap.signature.name ∧
    AnswerAlike ((new "a" 0).after uses) ((new "a" 0).after
      [.register step, .call "step" [], .register leap, .register reset, .call "step" [.null]]) := by
  obtain ⟨hcounts, hswap⟩ := last_registration_counts "a" (0 : Nat)
  have hne : reset.signature.name ≠ leap.signature.name := by decide
  have hcalled := (hcounts uses).called isLast_leap []
  have hnone : ((new "a" 0).after uses).resolve "stop" = none := by decide +kernel
  exact ⟨hcounts uses, hcalled, hnone, by decide +kernel, hne,
    hswap [.register step, .call "step" []] [.call "step" [.null]] reset leap hne⟩

end Counter

end LivingDoc
