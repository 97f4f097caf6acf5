import LivingDoc.Proofs.Fixture.Calls
import Mathlib.Data.List.Nodup
import Mathlib.Data.List.Perm.Subperm

/-!
# Which arguments can be bound

Arguments come by position or by name, mixed in any order, and both kinds are put into the same
slots, one for each parameter.  Nothing in the filling compares the number of arguments with that of
the parameters: a slot that is taken twice, a position behind the last slot and a slot that stays
empty are each found where they occur.  This module says what all of that comes to.

* `Invocation.fillSlots_eq_ok_iff`: filling succeeds where each argument has a slot of its own.
* `Invocation.bindArguments_eq_ok_iff`: binding gives the converted value of each slot.
* `Invocation.binds_exactly`: so arguments can be bound if they are as many as the parameters, every
  name is known, no slot is taken twice and every value can be converted; and the order of arguments
  matters only among those by position.
-/

namespace LivingDoc

/-- The argument comes by its position. -/
def Argument.isPositional (a : Argument) : Bool := a.name.isNone

namespace Invocation

/-! ## 1. The slot of an argument -/

/-- The argument at index `j` is `a` and takes slot `i`: one by position takes the slot that has as
many in front of it as there are arguments by position before, and one by name takes that of its
parameter.  Nothing is filled in this definition, so two arguments may take one slot, and a slot may
lie behind the last parameter. -/
inductive Takes (s : Signature) (as : List Argument) (j : Nat) : Nat → Argument → Prop
  | positional {a : Argument} (here : as[j]? = some a) (unnamed : a.name = none) :
      Takes s as j ((as.take j).countP Argument.isPositional) a
  | named {a : Argument} {i : Nat} {p : Param} (here : as[j]? = some a)
      (param : s.params[i]? = some p) (name : a.name = some p.name) : Takes s as j i a

/-- The slot of an argument, where the next argument by position takes the slot `next`. -/
def slotOf? (s : Signature) (next : Nat) (a : Argument) : Option Nat :=
  match a.name with
  | some n => s.paramIndex? n
  | none => some next

/-- The slot of the next argument by position behind an argument. -/
def following (next : Nat) (a : Argument) : Nat := if a.isPositional then next + 1 else next

/-- Each argument with its slot, from left to right, as filling goes through them.  It only fails at
a name that no parameter has. -/
inductive Slotted (s : Signature) : Nat → List Argument → List (Nat × Argument) → Prop
  | nil {next : Nat} : Slotted s next [] []
  | cons {next i : Nat} {a : Argument} {as : List Argument} {ps : List (Nat × Argument)}
      (slot : slotOf? s next a = some i) (rest : Slotted s (following next a) as ps) :
      Slotted s next (a :: as) ((i, a) :: ps)

/-- Where no two parameters have one name, the place of a name is that of the parameter that has it.
It is here that signatures with two parameters of one name are left out. -/
theorem paramIndex?_eq_some_iff {s : Signature} (hn : (s.params.map (·.name)).Nodup) {n : String}
    {i : Nat} : s.paramIndex? n = some i ↔ ∃ p, s.params[i]? = some p ∧ p.name = n := by
  unfold Signature.paramIndex?
  rw [List.findIdx?_eq_some_iff_getElem]
  constructor
  · rintro ⟨hi, hp, -⟩
    exact ⟨s.params[i], List.getElem?_eq_getElem hi, by simpa using hp⟩
  · rintro ⟨p, hp, rfl⟩
    obtain ⟨hi, rfl⟩ := List.getElem?_eq_some_iff.mp hp
    refine ⟨hi, by simp, fun j hj hname => ?_⟩
    have hlt : j < s.params.length := Nat.lt_trans hj hi
    have hsame : (s.params.map (·.name))[j]? = (s.params.map (·.name))[i]? := by
      simpa [hlt, hi] using hname
    have hji : j = i := (List.getElem?_inj (by simpa using hlt) hn).mp hsame
    exact absurd hji (Nat.ne_of_lt hj)

/-- The slot that an argument takes is the one it is put into. -/
theorem takes_iff {s : Signature} (hn : (s.params.map (·.name)).Nodup) {as : List Argument}
    {j i : Nat} {a : Argument} : Takes s as j i a ↔
      as[j]? = some a ∧ slotOf? s ((as.take j).countP Argument.isPositional) a = some i := by
  constructor
  · intro h
    cases h with
    | positional here unnamed => exact ⟨here, by simp only [slotOf?, unnamed]⟩
    | @named _ _ p here param name =>
      refine ⟨here, ?_⟩
      simp only [slotOf?, name]
      exact (paramIndex?_eq_some_iff hn).mpr ⟨p, param, rfl⟩
  · rintro ⟨here, hslot⟩
    unfold slotOf? at hslot
    split at hslot
    · rename_i n hname
      obtain ⟨p, hp, rfl⟩ := (paramIndex?_eq_some_iff hn).mp hslot
      exact .named here hp hname
    · rename_i hname
      cases hslot
      exact .positional here hname

namespace Slotted

variable {s : Signature} {next : Nat} {as : List Argument} {ps : List (Nat × Argument)}

theorem length_eq (h : Slotted s next as ps) : ps.length = as.length := by
  induction h with
  | nil => rfl
  | cons _ _ ih => rw [List.length_cons, List.length_cons, ih]

/-- The slot of an argument depends on how many came by position before.  By induction on the
arguments, with the next position left open. -/
theorem getElem?_eq_some_iff (h : Slotted s next as ps) {j i : Nat} {a : Argument} :
    ps[j]? = some (i, a) ↔ as[j]? = some a ∧
      slotOf? s (next + (as.take j).countP Argument.isPositional) a = some i := by
  induction h generalizing j with
  | nil => simp
  | @cons next i' a' as ps slot _ ih =>
    cases j with
    | zero =>
      simp only [List.getElem?_cons_zero, Option.some.injEq, Prod.mk.injEq, List.take_zero,
        List.countP_nil, Nat.add_zero]
      constructor
      · rintro ⟨rfl, rfl⟩
        exact ⟨rfl, slot⟩
      · rintro ⟨rfl, hslot⟩
        exact ⟨Option.some.inj (slot.symm.trans hslot), rfl⟩
    | succ j =>
      have hnext : following next a' + (as.take j).countP Argument.isPositional =
          next + ((a' :: as).take (j + 1)).countP Argument.isPositional := by
        rw [List.take_succ_cons, List.countP_cons]
        unfold following
        split <;> omega
      rw [List.getElem?_cons_succ, List.getElem?_cons_succ, ih, hnext]

theorem getElem?_iff_takes (hn : (s.params.map (·.name)).Nodup) (h : Slotted s 0 as ps) {j i : Nat}
    {a : Argument} : ps[j]? = some (i, a) ↔ Takes s as j i a := by
  rw [h.getElem?_eq_some_iff, takes_iff hn, Nat.zero_add]

end Slotted

/-- The arguments have slots exactly if every name is that of a parameter. -/
theorem exists_slotted_iff {s : Signature} {next : Nat} {as : List Argument} :
    (∃ ps, Slotted s next as ps) ↔ ∀ a ∈ as, ∀ n, a.name = some n → ∃ p ∈ s.params, p.name = n := by
  have hknown : ∀ n, (∃ i, s.paramIndex? n = some i) ↔ ∃ p ∈ s.params, p.name = n := by
    intro n
    rw [← Option.isSome_iff_exists, Signature.paramIndex?, List.findIdx?_isSome, List.any_eq_true]
    simp only [beq_iff_eq]
  induction as generalizing next with
  | nil => exact ⟨fun _ a ha => absurd ha List.not_mem_nil, fun _ => ⟨[], .nil⟩⟩
  | cons a as ih =>
    have hrest := @ih (following next a)
    rw [List.forall_mem_cons]
    constructor
    · rintro ⟨_, hcons⟩
      cases hcons with
      | cons slot rest =>
        refine ⟨fun n hname => ?_, hrest.mp ⟨_, rest⟩⟩
        simp only [slotOf?, hname] at slot
        exact (hknown n).mp ⟨_, slot⟩
    · rintro ⟨ha, has⟩
      obtain ⟨ps, hps⟩ := hrest.mpr has
      cases hname : a.name with
      | none => exact ⟨(next, a) :: ps, .cons (by simp only [slotOf?, hname]) hps⟩
      | some n =>
        obtain ⟨i, hi⟩ := (hknown n).mpr (ha n hname)
        exact ⟨(i, a) :: ps, .cons (by simp only [slotOf?, hname, hi]) hps⟩

/-! ## 2. Filling the slots -/

/-- Put an argument into its slot. -/
def put (slots : List (Option Value)) (x : Nat × Argument) : List (Option Value) :=
  slots.set x.1 (some x.2.value)

/-- Every argument has a slot of its own, and nothing is in it. -/
def Free (slots : List (Option Value)) (ps : List (Nat × Argument)) : Prop :=
  (ps.map (·.1)).Nodup ∧ ∀ x ∈ ps, slots[x.1]? = some none

/-- A slot that is filled is not free for another argument, so freedom can be stated for all
arguments at once and used up one by one. -/
theorem free_cons_iff {slots : List (Option Value)} {x : Nat × Argument}
    {ps : List (Nat × Argument)} :
    Free slots (x :: ps) ↔ slots[x.1]? = some none ∧ Free (put slots x) ps := by
  unfold Free put
  rw [List.map_cons, List.nodup_cons, List.forall_mem_cons]
  constructor
  · rintro ⟨⟨hnew, hnd⟩, hx, hps⟩
    refine ⟨hx, hnd, fun y hy => ?_⟩
    have hne : x.1 ≠ y.1 := fun h => hnew (h ▸ List.mem_map_of_mem hy)
    rw [List.getElem?_set_ne hne]
    exact hps y hy
  · rintro ⟨hx, hnd, hps⟩
    have hlt : x.1 < slots.length := (List.getElem?_eq_some_iff.mp hx).1
    have hne : ∀ y ∈ ps, x.1 ≠ y.1 := by
      intro y hy h
      have := hps y hy
      rw [← h, List.getElem?_set_self hlt] at this
      simp at this
    refine ⟨⟨?_, hnd⟩, hx, fun y hy => ?_⟩
    · rintro hmem
      obtain ⟨y, hy, hxy⟩ := List.mem_map.mp hmem
      exact hne y hy hxy.symm
    · rw [← List.getElem?_set_ne (hne y hy)]
      exact hps y hy

theorem fillSlots_cons_eq_ok_iff {s : Signature} {given next : Nat} {a : Argument}
    {as : List Argument} {slots filled : List (Option Value)} :
    fillSlots s given (a :: as) next slots = .ok filled ↔ ∃ i, slotOf? s next a = some i ∧
      slots[i]? = some none ∧ fillSlots s given as (following next a) (put slots (i, a)) = .ok filled := by
  have hfollowing : following next a = if a.name.isSome then next else next + 1 := by
    unfold following Argument.isPositional
    cases a.name <;> rfl
  rw [fillSlots, hfollowing]
  split
  · rename_i hplace
    have hslot : slotOf? s next a = none := hplace
    simp [hslot]
  · rename_i i hplace
    have hslot : slotOf? s next a = some i := hplace
    simp only [hslot, Option.some.injEq, exists_eq_left', put]
    split
    · rename_i hempty
      simp only [hempty, true_and]
    · rename_i htaken _
      simp [htaken]
    · rename_i hfree _
      constructor
      · intro h
        contradiction
      · rintro ⟨hempty, -⟩
        exact absurd hempty (hfree)

/-- **Slots are filled where each argument has a free one of its own.**  By induction on the
arguments, with `free_cons_iff` for the step. -/
theorem fillSlots_eq_ok_iff {s : Signature} {given next : Nat} {as : List Argument}
    {slots filled : List (Option Value)} :
    fillSlots s given as next slots = .ok filled ↔
      ∃ ps, Slotted s next as ps ∧ Free slots ps ∧ filled = ps.foldl put slots := by
  induction as generalizing next slots with
  | nil =>
    constructor
    · intro h
      cases h
      exact ⟨[], .nil, ⟨List.nodup_nil, by simp⟩, rfl⟩
    · rintro ⟨_, hnil, -, rfl⟩
      cases hnil
      rfl
  | cons a as ih =>
    rw [fillSlots_cons_eq_ok_iff]
    constructor
    · rintro ⟨i, hslot, hempty, hrest⟩
      obtain ⟨ps, hps, hfree, rfl⟩ := ih.mp hrest
      exact ⟨(i, a) :: ps, .cons hslot hps, free_cons_iff.mpr ⟨hempty, hfree⟩, rfl⟩
    · rintro ⟨_, hcons, hfree, rfl⟩
      cases hcons with
      | @cons _ i _ _ ps slot rest =>
        obtain ⟨hempty, hfree⟩ := free_cons_iff.mp hfree
        exact ⟨i, slot, hempty, ih.mpr ⟨ps, rest, hfree, rfl⟩⟩

theorem getElem?_foldl_put_of_not_mem {ps : List (Nat × Argument)} {i : Nat}
    (h : i ∉ ps.map (·.1)) (slots : List (Option Value)) :
    (ps.foldl put slots)[i]? = slots[i]? := by
  induction ps generalizing slots with
  | nil => rfl
  | cons x ps ih =>
    rw [List.map_cons, List.mem_cons, not_or] at h
    rw [List.foldl_cons, ih h.2, put, List.getElem?_set_ne (Ne.symm h.1)]

theorem getElem?_foldl_put_of_mem {ps : List (Nat × Argument)} {slots : List (Option Value)}
    (hfree : Free slots ps) {i : Nat} {a : Argument} (h : (i, a) ∈ ps) :
    (ps.foldl put slots)[i]? = some (some a.value) := by
  induction ps generalizing slots with
  | nil => exact absurd h List.not_mem_nil
  | cons x ps ih =>
    obtain ⟨hempty, hrest⟩ := free_cons_iff.mp hfree
    rw [List.foldl_cons]
    rcases List.mem_cons.mp h with rfl | h
    · have hnew : i ∉ ps.map (·.1) := (List.nodup_cons.mp hfree.1).1
      rw [getElem?_foldl_put_of_not_mem hnew, put,
        List.getElem?_set_self (List.getElem?_eq_some_iff.mp hempty).1]
    · exact ih hrest h

/-! ## 3. Converting the values -/

theorem forall_getElem?_cons {α : Type} {P : Nat → α → Prop} {a : α} {l : List α} :
    (∀ i b, (a :: l)[i]? = some b → P i b) ↔ P 0 a ∧ ∀ i b, l[i]? = some b → P (i + 1) b := by
  constructor
  · intro h
    exact ⟨h 0 a rfl, fun i b hb => h (i + 1) b hb⟩
  · rintro ⟨hzero, hsucc⟩ i b hb
    cases i with
    | zero =>
      cases hb
      exact hzero
    | succ i => exact hsucc i b hb

/-- The first slot is converted if something is in it, and then the others are. -/
theorem convertSlots_cons_eq_ok_iff {s : Signature} {given : Nat} {p : Param} {params : List Param}
    {slot : Option Value} {slots : List (Option Value)} {values : List Value} :
    convertSlots s given (p :: params) (slot :: slots) = .ok values ↔ ∃ v w ws, slot = some v ∧
      v.coerce p.type = .ok w ∧ convertSlots s given params slots = .ok ws ∧ w :: ws = values := by
  cases slot with
  | none => simp [convertSlots]
  | some v =>
    rw [convertSlots]
    cases hv : v.coerce p.type with
    | error u => simp [hv]
    | ok w => cases convertSlots s given params slots <;> simp [hv, Except.map]

/-- **Slots are converted one by one** where there is one for each parameter.  By induction on the
parameters; an index of the whole list is the first or an index of the rest. -/
theorem convertSlots_eq_ok_iff {s : Signature} {given : Nat} {params : List Param}
    {slots : List (Option Value)} {values : List Value} (hl : slots.length = params.length) :
    convertSlots s given params slots = .ok values ↔ values.length = params.length ∧
      ∀ (i : Nat) (p : Param), params[i]? = some p → ∃ v w : Value, slots[i]? = some (some v) ∧
        v.coerce p.type = .ok w ∧ values[i]? = some w := by
  induction params generalizing slots values with
  | nil =>
    obtain rfl : slots = [] := List.length_eq_zero_iff.mp hl
    constructor
    · intro h
      cases h
      exact ⟨rfl, by simp⟩
    · rintro ⟨hlen, -⟩
      rw [List.length_eq_zero_iff.mp hlen]
      rfl
  | cons p params ih =>
    cases slots with
    | nil => simp at hl
    | cons slot slots =>
      have hrest : slots.length = params.length := Nat.succ.inj hl
      rw [convertSlots_cons_eq_ok_iff, forall_getElem?_cons]
      constructor
      · rintro ⟨v, w, ws, rfl, hw, hws, rfl⟩
        obtain ⟨hlen, heach⟩ := (ih hrest).mp hws
        refine ⟨by rw [List.length_cons, List.length_cons, hlen], ⟨v, w, rfl, hw, rfl⟩, ?_⟩
        exact fun i q hq => heach i q hq
      · rintro ⟨hlen, ⟨v, w, hslot, hw, hfirst⟩, heach⟩
        cases values with
        | nil => simp at hlen
        | cons w' ws =>
          cases hslot
          cases hfirst
          exact ⟨v, w, ws, rfl, hw,
            (ih hrest).mpr ⟨Nat.succ.inj hlen, fun i q hq => heach i q hq⟩, rfl⟩

/-! ## 4. Binding -/

/-- Arguments in their slots give the values: no slot is taken twice, none is behind the last
parameter, and the value for each parameter is that of the argument in its slot.  The list of
arguments with slots is read as a set here, so their order can be changed. -/
structure Bound (s : Signature) (ps : List (Nat × Argument)) (values : List Value) : Prop where
  apart : (ps.map (·.1)).Nodup
  within : ∀ x ∈ ps, x.1 < s.params.length
  length_eq : values.length = s.params.length
  each : ∀ i p, s.params[i]? = some p → ∃ a w, (i, a) ∈ ps ∧ a.value.coerce p.type = .ok w ∧
    values[i]? = some w

theorem Bound.perm {s : Signature} {ps qs : List (Nat × Argument)} {values : List Value}
    (hp : ps.Perm qs) (h : Bound s ps values) : Bound s qs values where
  apart := (hp.map _).nodup_iff.mp h.apart
  within x hx := h.within x (hp.mem_iff.mpr hx)
  length_eq := h.length_eq
  each i p hi := by
    obtain ⟨a, w, hmem, hw⟩ := h.each i p hi
    exact ⟨a, w, hp.mem_iff.mp hmem, hw⟩

theorem free_replicate_iff {n : Nat} {ps : List (Nat × Argument)} :
    Free (List.replicate n none) ps ↔ (ps.map (·.1)).Nodup ∧ ∀ x ∈ ps, x.1 < n := by
  unfold Free
  simp only [List.getElem?_replicate, Option.ite_none_right_eq_some, and_true]

/-- **Arguments are bound to the values in their slots.**  Filling and converting put together: the
slots that are filled are converted where each parameter has one. -/
theorem bindArguments_eq_ok_iff {s : Signature} {as : List Argument} {values : List Value} :
    bindArguments s as = .ok values ↔ ∃ ps, Slotted s 0 as ps ∧ Bound s ps values := by
  have hbind : bindArguments s as = .ok values ↔ ∃ slots,
      fillSlots s as.length as 0 (List.replicate s.params.length none) = .ok slots ∧
        convertSlots s as.length s.params slots = .ok values := by
    unfold bindArguments
    cases fillSlots s as.length as 0 (List.replicate s.params.length none) with
    | error e => simp
    | ok slots => simp
  have hlength : ∀ {slots}, fillSlots s as.length as 0 (List.replicate s.params.length none) =
      .ok slots → slots.length = s.params.length := by
    intro slots hfill
    rw [length_of_fillSlots hfill, List.length_replicate]
  rw [hbind]
  constructor
  · rintro ⟨_, hfill, hconvert⟩
    obtain ⟨hlen, heach⟩ := (convertSlots_eq_ok_iff (hlength hfill)).mp hconvert
    obtain ⟨ps, hps, hfree, rfl⟩ := fillSlots_eq_ok_iff.mp hfill
    obtain ⟨hapart, hwithin⟩ := free_replicate_iff.mp hfree
    refine ⟨ps, hps, hapart, hwithin, hlen, fun i p hi => ?_⟩
    obtain ⟨v, w, hslot, hw, hvalue⟩ := heach i p hi
    -- a slot that is not empty was filled by an argument
    by_cases hmem : i ∈ ps.map (·.1)
    · obtain ⟨⟨_, a⟩, ha, rfl⟩ := List.mem_map.mp hmem
      rw [getElem?_foldl_put_of_mem hfree ha] at hslot
      cases hslot
      exact ⟨a, w, ha, hw, hvalue⟩
    · rw [getElem?_foldl_put_of_not_mem hmem, List.getElem?_replicate] at hslot
      simp at hslot
  · rintro ⟨ps, hps, h⟩
    have hfree := free_replicate_iff.mpr ⟨h.apart, h.within⟩
    have hfill : fillSlots s as.length as 0 (List.replicate s.params.length none) = .ok _ :=
      fillSlots_eq_ok_iff.mpr ⟨ps, hps, hfree, rfl⟩
    refine ⟨_, hfill, (convertSlots_eq_ok_iff (hlength hfill)).mpr ⟨h.length_eq, fun i p hi => ?_⟩⟩
    obtain ⟨a, w, ha, hw, hvalue⟩ := h.each i p hi
    exact ⟨a.value, w, getElem?_foldl_put_of_mem hfree ha, hw, hvalue⟩

/-- As many slots of their own as there are parameters are all the slots. -/
theorem mem_slots_of_length {n : Nat} {slots : List Nat} (hapart : slots.Nodup)
    (hwithin : ∀ i ∈ slots, i < n) (hlength : slots.length = n) {i : Nat} (hi : i < n) :
    i ∈ slots := by
  have hsub : slots ⊆ List.range n := fun j hj => List.mem_range.mpr (hwithin j hj)
  have hperm : slots.Perm (List.range n) :=
    (hapart.subperm hsub).perm_of_length_le (Nat.le_of_eq (by rw [List.length_range, hlength]))
  exact hperm.mem_iff.mpr (List.mem_range.mpr hi)

/-- Arguments that are bound are as many as the parameters: their slots are apart and within, and
none stays empty.  So the number of arguments is never compared with that of the parameters and is
right all the same. -/
theorem Bound.length_slots {s : Signature} {ps : List (Nat × Argument)} {values : List Value}
    (h : Bound s ps values) : ps.length = s.params.length := by
  have hperm : (ps.map (·.1)).Perm (List.range s.params.length) := by
    refine (List.perm_ext_iff_of_nodup h.apart List.nodup_range).mpr fun i => ?_
    rw [List.mem_range]
    constructor
    · intro hi
      obtain ⟨x, hx, rfl⟩ := List.mem_map.mp hi
      exact h.within x hx
    · intro hi
      obtain ⟨a, w, hmem, -⟩ := h.each i s.params[i] (List.getElem?_eq_getElem hi)
      exact List.mem_map_of_mem hmem
  have := hperm.length_eq
  rwa [List.length_map, List.length_range] at this

/-! ## 5. What can be bound -/

/-- The arguments can be bound to the parameters. -/
structure Bindable (s : Signature) (as : List Argument) : Prop where
  /-- They are as many as the parameters. -/
  count : as.length = s.params.length
  /-- Every name is that of a parameter. -/
  known : ∀ a ∈ as, ∀ n, a.name = some n → ∃ p ∈ s.params, p.name = n
  /-- No two arguments take one slot. -/
  apart : ∀ j k i a b, Takes s as j i a → Takes s as k i b → j = k
  /-- The value in a slot can be converted to the type of the parameter. -/
  converts : ∀ j i a p, Takes s as j i a → s.params[i]? = some p →
    ∃ w, a.value.coerce p.type = .ok w

/-- There is one value for each parameter, in their order: that of the argument in its slot. -/
structure BindsTo (s : Signature) (as : List Argument) (values : List Value) : Prop where
  length_eq : values.length = s.params.length
  each : ∀ i p, s.params[i]? = some p → ∃ j a w, Takes s as j i a ∧
    a.value.coerce p.type = .ok w ∧ values[i]? = some w

/-- No slot is taken twice exactly if the slots of the arguments are apart. -/
theorem Slotted.nodup_iff {s : Signature} (hn : (s.params.map (·.name)).Nodup) {as : List Argument}
    {ps : List (Nat × Argument)} (h : Slotted s 0 as ps) : (ps.map (·.1)).Nodup ↔
      ∀ j k i a b, Takes s as j i a → Takes s as k i b → j = k := by
  constructor
  · intro hapart j k i a b hj hk
    have hj' := (h.getElem?_iff_takes hn).mpr hj
    have hk' := (h.getElem?_iff_takes hn).mpr hk
    have hlt : j < (ps.map (·.1)).length := by
      rw [List.length_map]
      exact (List.getElem?_eq_some_iff.mp hj').1
    refine (List.getElem?_inj hlt hapart).mp ?_
    rw [List.getElem?_map, List.getElem?_map, hj', hk']
    rfl
  · intro htakes
    rw [List.nodup_iff_getElem?_ne_getElem?]
    intro j k hjk hk heq
    rw [List.length_map] at hk
    obtain ⟨⟨i, a⟩, hj⟩ : ∃ x, ps[j]? = some x :=
      ⟨_, List.getElem?_eq_getElem (Nat.lt_trans hjk hk)⟩
    obtain ⟨⟨i', b⟩, hk⟩ : ∃ x, ps[k]? = some x := ⟨_, List.getElem?_eq_getElem hk⟩
    obtain rfl : i = i' := by simpa [hj, hk] using heq
    have hsame := htakes j k i a b ((h.getElem?_iff_takes hn).mp hj)
      ((h.getElem?_iff_takes hn).mp hk)
    exact absurd hsame (Nat.ne_of_lt hjk)

theorem Takes.lt_length {s : Signature} {as : List Argument} {j i : Nat} {a : Argument}
    (h : Takes s as j i a) (hlength : as.length ≤ s.params.length) : i < s.params.length := by
  cases h with
  | positional here _ =>
    -- fewer arguments came by position before than there are arguments
    have hj : j < as.length := (List.getElem?_eq_some_iff.mp here).1
    calc (as.take j).countP Argument.isPositional ≤ (as.take j).length := List.countP_le_length
      _ ≤ j := by rw [List.length_take]; exact Nat.min_le_left ..
      _ < s.params.length := Nat.lt_of_lt_of_le hj hlength
  | named _ param _ => exact (List.getElem?_eq_some_iff.mp param).1

/-- Where each slot has an argument whose value can be converted, there are the values. -/
theorem exists_bound {s : Signature} {ps : List (Nat × Argument)} (hapart : (ps.map (·.1)).Nodup)
    (hwithin : ∀ x ∈ ps, x.1 < s.params.length)
    (heach : ∀ i p, s.params[i]? = some p → ∃ w a, (i, a) ∈ ps ∧ a.value.coerce p.type = .ok w) :
    ∃ values, Bound s ps values := by
  choose value argument hargument using heach
  refine ⟨List.ofFn fun i : Fin s.params.length =>
    value i s.params[i] (List.getElem?_eq_getElem i.isLt), hapart, hwithin, List.length_ofFn, ?_⟩
  intro i p hp
  obtain ⟨hi, rfl⟩ := List.getElem?_eq_some_iff.mp hp
  obtain ⟨hmem, hw⟩ := hargument i s.params[i] hp
  exact ⟨_, _, hmem, hw, by simp [hi]⟩

/-- Arguments with their slots can be bound exactly if they are bound to some values.  As many
arguments as parameters, in slots that are apart and within, leave no slot empty. -/
theorem Slotted.bindable_iff {s : Signature} (hn : (s.params.map (·.name)).Nodup)
    {as : List Argument} {ps : List (Nat × Argument)} (h : Slotted s 0 as ps) :
    Bindable s as ↔ ∃ values, Bound s ps values := by
  constructor
  · intro hb
    have hapart : (ps.map (·.1)).Nodup := (h.nodup_iff hn).mpr hb.apart
    have hwithin : ∀ x ∈ ps, x.1 < s.params.length := by
      intro x hx
      obtain ⟨j, hj⟩ := List.getElem?_of_mem hx
      exact ((h.getElem?_iff_takes hn).mp hj).lt_length (Nat.le_of_eq hb.count)
    refine exists_bound hapart hwithin fun i p hp => ?_
    -- the slots are as many as the parameters, so this one is among them
    have hmem : i ∈ ps.map (·.1) := by
      refine mem_slots_of_length hapart ?_ ?_ (List.getElem?_eq_some_iff.mp hp).1
      · exact List.forall_mem_map.mpr hwithin
      · rw [List.length_map, h.length_eq, hb.count]
    obtain ⟨⟨_, a⟩, ha, rfl⟩ := List.mem_map.mp hmem
    obtain ⟨j, hj⟩ := List.getElem?_of_mem ha
    obtain ⟨w, hw⟩ := hb.converts j _ a p ((h.getElem?_iff_takes hn).mp hj) hp
    exact ⟨w, a, ha, hw⟩
  · rintro ⟨values, hb⟩
    refine ⟨?_, exists_slotted_iff.mp ⟨ps, h⟩, (h.nodup_iff hn).mp hb.apart, ?_⟩
    · rw [← h.length_eq, hb.length_slots]
    · intro j i a p hj hp
      obtain ⟨b, w, hmem, hw, -⟩ := hb.each i p hp
      have ha : (i, a) ∈ ps := List.mem_of_getElem? ((h.getElem?_iff_takes hn).mpr hj)
      have hab : (i, a) = (i, b) := List.inj_on_of_nodup_map hb.apart ha hmem rfl
      cases hab
      exact ⟨w, hw⟩

/-! ## 6. The order of arguments -/

/-- The second list has the arguments of the first in another order, but those by position in the
same. -/
def Reorders (as bs : List Argument) : Prop :=
  as.Perm bs ∧ as.filter Argument.isPositional = bs.filter Argument.isPositional

/-- An argument by name with the slot of its parameter. -/
def byName? (s : Signature) (a : Argument) : Option (Nat × Argument) :=
  (a.name.bind s.paramIndex?).map (·, a)

/-- The slots are those of the arguments by position, counted, and those of the names.  Of the order
of the arguments only that among those by position is left in this form, which is what `Reorders`
keeps. -/
theorem Slotted.perm_append {s : Signature} {next : Nat} {as : List Argument}
    {ps : List (Nat × Argument)} (h : Slotted s next as ps) :
    ps.Perm (((as.filter Argument.isPositional).zipIdx next).map Prod.swap ++
      as.filterMap (byName? s)) := by
  induction h with
  | nil => exact .nil
  | @cons next i a as ps slot _ ih =>
    cases hname : a.name with
    | none =>
      have hpos : a.isPositional = true := by rw [Argument.isPositional, hname]; rfl
      have hby : byName? s a = none := by rw [byName?, hname]; rfl
      obtain rfl : next = i := by simpa [slotOf?, hname] using slot
      rw [following, if_pos hpos] at ih
      rw [List.filter_cons_of_pos hpos, List.zipIdx_cons, List.map_cons,
        List.filterMap_cons_none hby, List.cons_append]
      exact ih.cons _
    | some n =>
      have hpos : a.isPositional = false := by rw [Argument.isPositional, hname]; rfl
      have hindex : s.paramIndex? n = some i := by simpa [slotOf?, hname] using slot
      have hby : byName? s a = some (i, a) := by simp [byName?, hname, hindex]
      rw [following, if_neg (by simp [hpos])] at ih
      rw [List.filter_cons_of_neg (by simp [hpos]), List.filterMap_cons_some hby]
      exact (ih.cons _).trans List.perm_middle.symm

theorem Slotted.reorder {s : Signature} {as bs : List Argument} (hr : Reorders as bs)
    {ps : List (Nat × Argument)} (h : Slotted s 0 as ps) : ∃ qs, Slotted s 0 bs qs ∧ ps.Perm qs := by
  obtain ⟨hperm, hpos⟩ := hr
  have hknown := exists_slotted_iff.mp ⟨ps, h⟩
  obtain ⟨qs, hqs⟩ := exists_slotted_iff.mpr fun b hb => hknown b (hperm.mem_iff.mpr hb)
  have hps := h.perm_append
  rw [hpos] at hps
  exact ⟨qs, hqs, (hps.trans ((hperm.filterMap _).append_left _)).trans hqs.perm_append.symm⟩

/-- Arguments are bound in another order as well. -/
theorem bindArguments_of_reorders {s : Signature} {as bs : List Argument} (hr : Reorders as bs)
    {values : List Value} (h : bindArguments s as = .ok values) : bindArguments s bs = .ok values := by
  obtain ⟨ps, hps, hbound⟩ := bindArguments_eq_ok_iff.mp h
  obtain ⟨qs, hqs, hperm⟩ := hps.reorder hr
  exact bindArguments_eq_ok_iff.mpr ⟨qs, hqs, hbound.perm hperm⟩

/-- **Binding is exact.**  Where no two parameters have one name, arguments in any mixture are bound
exactly if they are as many as the parameters, every name is that of a parameter, no slot is taken
twice and every value can be converted.  The values are then those of the arguments in the slots, in
the order of parameters, and any other order of the arguments that leaves those by position as they
follow each other gives the same values. -/
theorem binds_exactly {s : Signature} (hn : (s.params.map (·.name)).Nodup) (as : List Argument) :
    ((∃ values, bindArguments s as = .ok values) ↔ Bindable s as) ∧
    (∀ values, bindArguments s as = .ok values → BindsTo s as values) ∧
    ∀ bs, Reorders as bs → ∀ values,
      bindArguments s as = .ok values ↔ bindArguments s bs = .ok values := by
  refine ⟨?_, ?_, ?_⟩
  · simp only [bindArguments_eq_ok_iff]
    constructor
    · rintro ⟨values, ps, hps, hbound⟩
      exact (hps.bindable_iff hn).mpr ⟨values, hbound⟩
    · intro hb
      obtain ⟨ps, hps⟩ := exists_slotted_iff.mpr hb.known
      obtain ⟨values, hbound⟩ := (hps.bindable_iff hn).mp hb
      exact ⟨values, ps, hps, hbound⟩
  · intro values h
    obtain ⟨ps, hps, hbound⟩ := bindArguments_eq_ok_iff.mp h
    refine ⟨hbound.length_eq, fun i p hp => ?_⟩
    obtain ⟨a, w, hmem, hw, hvalue⟩ := hbound.each i p hp
    obtain ⟨j, hj⟩ := List.getElem?_of_mem hmem
    exact ⟨j, a, w, (hps.getElem?_iff_takes hn).mp hj, hw, hvalue⟩
  · intro bs hr values
    exact ⟨bindArguments_of_reorders hr, bindArguments_of_reorders ⟨hr.1.symm, hr.2.symm⟩⟩

end Invocation

/-! ### A call with three arguments

Two arguments come by position, behind one by name that belongs to the last parameter. -/

namespace Move

open Invocation

def signature : Signature := ⟨"move", [⟨"x", .int⟩, ⟨"y", .int⟩, ⟨"label", .text⟩]⟩

def arguments : List Argument := [⟨some "label", .int 7⟩, ⟨none, .text " 3 "⟩, ⟨none, .int 4⟩]

def reordered : List Argument := [⟨none, .text " 3 "⟩, ⟨some "label", .int 7⟩, ⟨none, .int 4⟩]

theorem binds_exactly_move : (signature.params.map (·.name)).Nodup ∧
    Bindable signature arguments ∧ BindsTo signature arguments [.int 3, .int 4, .text "7"] ∧
    Reorders arguments reordered ∧
    bindArguments signature reordered = .ok [.int 3, .int 4, .text "7"] := by
  have hn : (signature.params.map (·.name)).Nodup := by decide
  have hbind : bindArguments signature arguments = .ok [.int 3, .int 4, .text "7"] := by
    decide +kernel
  have hr : Reorders arguments reordered := ⟨.swap _ _ _, by decide⟩
  obtain ⟨hbindable, hvalues, hreorder⟩ := binds_exactly hn arguments
  exact ⟨hn, hbindable.mp ⟨_, hbind⟩, hvalues _ hbind, hr, (hreorder reordered hr _).mp hbind⟩

end Move

end LivingDoc
