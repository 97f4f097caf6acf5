import LivingDoc.Summary
import Mathlib.Data.List.Nodup

/-!
# What a summary adds up to

The totals of a document are found by going down the tree of entries, own tallies first and then
those of the entries one after another.  Whether a suite is green hangs on them, so a level that is
left out or an entry that counts twice must not go unnoticed.  Here the documents of the tree are
listed with the entries that lead to them, and the totals are compared with that list.

* `Summary.mem_reached_iff`: the list has every document at the end of a path of processed entries,
  and `Summary.nodup_reached` has it once.
* `Summary.totals_eq`: the totals are the sum over the list, with an exception for each entry that
  failed.
* `Summary.totals_foldl_take`: recording adds to the totals what is recorded.
* `Summary.adds_up`: so the order of entries does not matter, no total ever goes down, and a summary
  is satisfied if there is nothing bad anywhere in its tree.
-/

namespace LivingDoc

/-! ## 1. Sums of tallies -/

namespace Counts

/-- The tally of one kind of outcome. -/
def of (c : Counts) : Status → Nat
  | .success => c.successes
  | .failure => c.failures
  | .exception => c.exceptions

/-- The tallies of many lists of outcomes together. -/
def sum (cs : List Counts) : Counts := cs.foldr add zero

theorem zero_add (c : Counts) : zero.add c = c := by
  simp [add, zero]

theorem add_assoc (c d e : Counts) : (c.add d).add e = c.add (d.add e) := by
  simp only [add, Nat.add_assoc]

theorem add_left_comm (c d e : Counts) : c.add (d.add e) = d.add (c.add e) := by
  simp only [add, Nat.add_left_comm]

theorem of_add (c d : Counts) (k : Status) : (c.add d).of k = c.of k + d.of k := by
  cases k <;> rfl

theorem of_record (c : Counts) (k k' : Status) :
    (c.record k).of k' = c.of k' + if k' = k then 1 else 0 := by
  cases k <;> cases k' <;> rfl

theorem record_eq_add (c : Counts) (k : Status) : c.record k = c.add (zero.record k) := by
  cases k <;> simp [record, add, zero]

theorem sum_cons (c : Counts) (cs : List Counts) : sum (c :: cs) = c.add (sum cs) := rfl

theorem sum_append (cs ds : List Counts) : sum (cs ++ ds) = (sum cs).add (sum ds) := by
  induction cs with
  | nil => exact (zero_add _).symm
  | cons c cs ih => rw [List.cons_append, sum_cons, sum_cons, ih, add_assoc]

theorem sum_perm {cs ds : List Counts} (h : cs.Perm ds) : sum cs = sum ds := by
  induction h with
  | nil => rfl
  | cons c _ ih => rw [sum_cons, sum_cons, ih]
  | swap c d cs => exact add_left_comm d c (sum cs)
  | trans _ _ ih ih' => exact ih.trans ih'

/-- A sum has none of a kind exactly if no summand has. -/
theorem of_sum_eq_zero_iff (cs : List Counts) (k : Status) :
    (sum cs).of k = 0 ↔ ∀ c ∈ cs, c.of k = 0 := by
  induction cs with
  | nil => cases k <;> simp [sum, of, zero]
  | cons c cs ih => rw [sum_cons, of_add, Nat.add_eq_zero_iff, ih, List.forall_mem_cons]

end Counts

/-! ## 2. The documents of the tree -/

/-- The document at the end of a path of entries, if each entry on it was processed. -/
def Summary.at? (s : Summary) : List Nat → Option Summary
  | [] => some s
  | i :: path =>
    match s.children[i]? with
    | some (.processed _ resource own children) => at? ⟨resource, own, children⟩ path
    | _ => none

mutual
/-- The documents of an entry with the paths to them. -/
def Child.reached : Child → List (List Nat × Summary)
  | .processed _ resource own children =>
    ([], ⟨resource, own, children⟩) :: Child.reachedAll 0 children
  | .revisited _ => []
  | .unresolved _ => []
  | .failed _ _ => []
/-- The documents of entries with the paths to them, from the entry with this index on. -/
def Child.reachedAll (index : Nat) : List Child → List (List Nat × Summary)
  | [] => []
  | c :: rest =>
    c.reached.map (fun x => (index :: x.1, x.2)) ++ Child.reachedAll (index + 1) rest
end

/-- The documents of a summary with the paths to them, its own first. -/
def Summary.reached (s : Summary) : List (List Nat × Summary) :=
  ([], s) :: Child.reachedAll 0 s.children

/-- Induction over entries from left to right and into those that were processed. -/
theorem Child.induction {P : List Child → Prop} (nil : P [])
    (processed : ∀ t r own cs rest, P cs → P rest → P (.processed t r own cs :: rest))
    (revisited : ∀ t rest, P rest → P (.revisited t :: rest))
    (unresolved : ∀ t rest, P rest → P (.unresolved t :: rest))
    (failed : ∀ t m rest, P rest → P (.failed t m :: rest)) (cs : List Child) : P cs :=
  @Child.rec_1 (fun c => ∀ rest, P rest → P (c :: rest)) P
    (fun t r own cs hc rest h => processed t r own cs rest hc h)
    (fun t rest h => revisited t rest h) (fun t rest h => unresolved t rest h)
    (fun t m rest h => failed t m rest h) nil (fun _ rest hc hr => hc rest hr) cs

/-- The documents of entries are found by an index and then within the entry there. -/
theorem Child.mem_reachedAll_iff {cs : List Child} {i : Nat} {path : List Nat} {t : Summary} :
    (path, t) ∈ Child.reachedAll i cs ↔
      ∃ j rest c, path = (i + j) :: rest ∧ cs[j]? = some c ∧ (rest, t) ∈ c.reached := by
  induction cs generalizing i with
  | nil => simp [Child.reachedAll]
  | cons c cs ih =>
    rw [Child.reachedAll, List.mem_append, ih]
    constructor
    · rintro (h | ⟨j, rest, d, rfl, hd, ht⟩)
      · obtain ⟨⟨rest, t'⟩, hmem, heq⟩ := List.mem_map.mp h
        cases heq
        exact ⟨0, rest, c, rfl, rfl, hmem⟩
      · exact ⟨j + 1, rest, d, by rw [Nat.add_right_comm, Nat.add_assoc], hd, ht⟩
    · rintro ⟨j, rest, d, rfl, hd, ht⟩
      cases j with
      | zero =>
        cases hd
        exact .inl (List.mem_map.mpr ⟨(rest, t), ht, rfl⟩)
      | succ j =>
        exact .inr ⟨j, rest, d, by rw [Nat.add_right_comm, Nat.add_assoc], hd, ht⟩

theorem Child.nil_not_mem_reachedAll (cs : List Child) (i : Nat) :
    [] ∉ (Child.reachedAll i cs).map (·.1) := by
  intro h
  obtain ⟨⟨path, d⟩, hd, rfl⟩ := List.mem_map.mp h
  obtain ⟨j, tail, c, hpath, -⟩ := Child.mem_reachedAll_iff.mp hd
  exact List.cons_ne_nil _ _ hpath.symm

/-- **The list has every document at the end of a path of processed entries.**  By induction on the
path; the empty one leads to the summary itself and to nothing in its entries. -/
theorem Summary.mem_reached_iff {s t : Summary} {path : List Nat} :
    (path, t) ∈ s.reached ↔ s.at? path = some t := by
  induction path generalizing s with
  | nil =>
    have hnone : ([], t) ∉ Child.reachedAll 0 s.children := fun h =>
      Child.nil_not_mem_reachedAll s.children 0 (List.mem_map_of_mem h)
    rw [reached, List.mem_cons, Summary.at?, Option.some.injEq]
    constructor
    · rintro (h | h)
      · exact (Prod.mk.inj h).2.symm
      · exact absurd h hnone
    · rintro rfl
      exact .inl rfl
  | cons i path ih =>
    have hentry : (i :: path, t) ∈ s.reached ↔
        ∃ c, s.children[i]? = some c ∧ (path, t) ∈ c.reached := by
      rw [reached, List.mem_cons, Child.mem_reachedAll_iff]
      constructor
      · rintro (h | ⟨j, rest, c, hpath, hc, ht⟩)
        · exact absurd (Prod.mk.inj h).1 (List.cons_ne_nil _ _)
        · rw [Nat.zero_add] at hpath
          cases hpath
          exact ⟨c, hc, ht⟩
      · rintro ⟨c, hc, ht⟩
        exact .inr ⟨i, path, c, by rw [Nat.zero_add], hc, ht⟩
    rw [hentry, Summary.at?]
    cases s.children[i]? with
    | none => simp
    | some c =>
      simp only [Option.some.injEq, exists_eq_left']
      cases c with
      | processed target resource own children => exact ih
      | revisited target => simp [Child.reached]
      | unresolved target => simp [Child.reached]
      | failed target message => simp [Child.reached]

/-- No two documents of entries have one path.  By induction on the entries, whose paths begin with
different indices. -/
theorem Child.nodup_reachedAll (cs : List Child) (i : Nat) :
    ((Child.reachedAll i cs).map (·.1)).Nodup := by
  induction cs using Child.induction generalizing i with
  | nil => exact List.nodup_nil
  | processed t r own cs rest ihc ihr =>
    have hown : (([] : List Nat) :: (Child.reachedAll 0 cs).map (·.1)).Nodup :=
      List.nodup_cons.mpr ⟨Child.nil_not_mem_reachedAll cs 0, ihc 0⟩
    have hfirst : ((Child.reached (.processed t r own cs)).map (fun x => (i :: x.1, x.2))).map (·.1) =
        (([] : List Nat) :: (Child.reachedAll 0 cs).map (·.1)).map (i :: ·) := by
      simp [Child.reached, Function.comp_def]
    rw [Child.reachedAll, List.map_append, hfirst, List.nodup_append]
    refine ⟨hown.map fun _ _ h => (List.cons.inj h).2, ihr (i + 1), ?_⟩
    -- the paths of the first entry begin with its index, the others with a later one
    rintro path hpath _ hrest rfl
    obtain ⟨tail, -, rfl⟩ := List.mem_map.mp hpath
    obtain ⟨⟨_, d⟩, hd, heq⟩ := List.mem_map.mp hrest
    obtain ⟨j, tail', c, hpath', -⟩ := Child.mem_reachedAll_iff.mp hd
    have hindex : i = i + 1 + j := (List.cons.inj (heq.symm.trans hpath')).1
    omega
  | revisited t rest ih => exact ih (i + 1)
  | unresolved t rest ih => exact ih (i + 1)
  | failed t m rest ih => exact ih (i + 1)

theorem Summary.nodup_reached (s : Summary) : (s.reached.map (·.1)).Nodup := by
  rw [reached, List.map_cons, List.nodup_cons]
  exact ⟨Child.nil_not_mem_reachedAll s.children 0, Child.nodup_reachedAll s.children 0⟩

/-! ## 3. The totals are the sum -/

/-- The document of the entry could not be processed. -/
def Child.isFailed : Child → Bool
  | .failed _ _ => true
  | _ => false

/-- How many entries of the documents could not be processed. -/
def failedEntries (reached : List (List Nat × Summary)) : Nat :=
  (reached.flatMap (·.2.children)).countP Child.isFailed

/-- The totals of entries are the sum over their documents, and the entries that failed count among
the entries themselves as well as below them.  By induction on the entries and into those that were
processed. -/
theorem Child.totalsAll_eq (cs : List Child) (i : Nat) :
    Child.totalsAll cs = (Counts.sum ((Child.reachedAll i cs).map (·.2.own))).add
      ⟨0, 0, cs.countP Child.isFailed + failedEntries (Child.reachedAll i cs)⟩ := by
  induction cs using Child.induction generalizing i with
  | nil => rfl
  | processed t r own cs rest ihc ihr =>
    rw [Child.totalsAll, Child.totals, ihc 0, ihr (i + 1)]
    simp only [Child.reachedAll, Child.reached, failedEntries, List.map_cons, List.map_append,
      List.map_map, List.flatMap_cons, List.flatMap_append, List.flatMap_map, List.countP_cons,
      List.countP_append, List.cons_append, Counts.sum_cons, Counts.sum_append, Function.comp_def,
      Child.isFailed, Counts.add, Bool.false_eq_true, if_false, Counts.mk.injEq]
    omega
  | revisited t rest ih =>
    rw [Child.totalsAll, Child.totals, Counts.zero_add, ih (i + 1)]
    rfl
  | unresolved t rest ih =>
    rw [Child.totalsAll, Child.totals, Counts.zero_add, ih (i + 1)]
    rfl
  | failed t m rest ih =>
    rw [Child.totalsAll, Child.totals, ih (i + 1), Child.reachedAll, Child.reached, List.map_nil,
      List.nil_append, List.countP_cons, Child.isFailed, if_pos rfl]
    simp only [Counts.add, Counts.mk.injEq]
    omega

/-- **The totals are the sum over the documents,** with an exception for each entry that failed. -/
theorem Summary.totals_eq (s : Summary) :
    s.totals = (Counts.sum (s.reached.map (·.2.own))).add ⟨0, 0, failedEntries s.reached⟩ := by
  rw [totals, Child.totalsAll_eq s.children 0, reached, List.map_cons, Counts.sum_cons,
    Counts.add_assoc]
  simp only [failedEntries, List.flatMap_cons, List.countP_append]

/-! ## 4. The order of entries -/

/-- The entries in another order, their own or that of the entries of a document below. -/
inductive Child.Rearranged : List Child → List Child → Prop
  | perm {cs ds : List Child} (h : cs.Perm ds) : Rearranged cs ds
  | within {cs ds : List Child} (before after : List Child) (target resource : Resource)
      (own : Counts) (h : Rearranged cs ds) :
      Rearranged (before ++ .processed target resource own cs :: after)
        (before ++ .processed target resource own ds :: after)
  | trans {cs ds es : List Child} (h : Rearranged cs ds) (h' : Rearranged ds es) : Rearranged cs es

theorem Child.totalsAll_eq_sum (cs : List Child) :
    Child.totalsAll cs = Counts.sum (cs.map Child.totals) := by
  induction cs with
  | nil => rfl
  | cons c cs ih => rw [Child.totalsAll, ih, List.map_cons, Counts.sum_cons]

theorem Child.Rearranged.totalsAll_eq {cs ds : List Child} (h : Child.Rearranged cs ds) :
    Child.totalsAll cs = Child.totalsAll ds := by
  induction h with
  | perm h =>
    rw [Child.totalsAll_eq_sum, Child.totalsAll_eq_sum]
    exact Counts.sum_perm (h.map _)
  | within before after target resource own _ ih =>
    rw [Child.totalsAll_eq_sum, Child.totalsAll_eq_sum, List.map_append, List.map_append,
      List.map_cons, List.map_cons, Child.totals, Child.totals, ih]
  | trans _ _ ih ih' => exact ih.trans ih'

/-! ## 5. Recording -/

/-- Something that is recorded in a summary: an outcome (`record`), or an entry for a link
(`record_child`). -/
inductive Recording where
  | outcome (status : Status)
  | entry (c : Child)

/-- What a recording counts. -/
def Recording.counts : Recording → Counts
  | .outcome status => Counts.zero.record status
  | .entry c => c.totals

namespace Summary

/-- Record something. -/
def take (s : Summary) : Recording → Summary
  | .outcome status => s.record status
  | .entry c => s.recordChild c

theorem totals_record (s : Summary) (k : Status) : (s.record k).totals = s.totals.record k := by
  rw [totals, totals, record, Counts.record_eq_add, Counts.record_eq_add (s.own.add _) k]
  simp only [Counts.add, Counts.mk.injEq]
  omega

theorem totals_recordChild (s : Summary) (c : Child) :
    (s.recordChild c).totals = s.totals.add c.totals := by
  rw [totals, totals, recordChild, Child.totalsAll_eq_sum, Child.totalsAll_eq_sum, List.map_append,
    Counts.sum_append, Counts.add_assoc]
  rfl

theorem totals_take (s : Summary) (x : Recording) : (s.take x).totals = s.totals.add x.counts := by
  cases x with
  | outcome status => exact (s.totals_record status).trans (Counts.record_eq_add ..)
  | entry c => exact s.totals_recordChild c

/-- **Recording adds what is recorded**, so totals never go down. -/
theorem totals_foldl_take (xs : List Recording) (s : Summary) :
    (xs.foldl take s).totals = s.totals.add (Counts.sum (xs.map Recording.counts)) := by
  induction xs generalizing s with
  | nil => rfl
  | cons x xs ih =>
    rw [List.foldl_cons, ih, totals_take, List.map_cons, Counts.sum_cons, Counts.add_assoc]

/-! ## 6. Satisfied summaries -/

theorem isSatisfied_iff (s : Summary) :
    s.isSatisfied = true ↔ s.totals.failures = 0 ∧ s.totals.exceptions = 0 := by
  simp [isSatisfied, hasFailures, hasExceptions]

theorem assertSatisfied_eq (s : Summary) : s.assertSatisfied =
    if s.isSatisfied then .ok () else .error ⟨s.resource, s.totals.failures, s.totals.exceptions⟩ := by
  unfold assertSatisfied
  simp only [s.isSatisfied_iff]

/-- A summary is satisfied exactly if nothing bad is anywhere in its tree.  A sum of numbers is zero
where each of them is. -/
theorem isSatisfied_iff_reached (s : Summary) : s.isSatisfied = true ↔
    ∀ path t, s.at? path = some t → t.own.failures = 0 ∧ t.own.exceptions = 0 ∧
      ∀ c ∈ t.children, c.isFailed = false := by
  have hfailures : s.totals.failures = 0 ↔ ∀ x ∈ s.reached, x.2.own.failures = 0 := by
    have hsum := Counts.of_sum_eq_zero_iff (s.reached.map (·.2.own)) .failure
    rw [List.forall_mem_map] at hsum
    rw [totals_eq]
    exact hsum
  have hexceptions : s.totals.exceptions = 0 ↔ (∀ x ∈ s.reached, x.2.own.exceptions = 0) ∧
      ∀ x ∈ s.reached, ∀ c ∈ x.2.children, c.isFailed = false := by
    have hsum := Counts.of_sum_eq_zero_iff (s.reached.map (·.2.own)) .exception
    rw [List.forall_mem_map] at hsum
    have hfailed : failedEntries s.reached = 0 ↔
        ∀ x ∈ s.reached, ∀ c ∈ x.2.children, c.isFailed = false := by
      rw [failedEntries, List.countP_eq_zero, List.forall_mem_flatMap]
      simp only [Bool.not_eq_true]
    rw [totals_eq, ← hfailed]
    exact Nat.add_eq_zero_iff.trans (and_congr_left' hsum)
  rw [isSatisfied_iff, hfailures, hexceptions]
  simp only [← mem_reached_iff]
  constructor
  · rintro ⟨hf, he, hc⟩ path t h
    exact ⟨hf _ h, he _ h, hc _ h⟩
  · intro h
    exact ⟨fun x hx => (h x.1 x.2 hx).1, fun x hx => (h x.1 x.2 hx).2.1, fun x hx => (h x.1 x.2 hx).2.2⟩

/-! ## 7. What the totals are -/

/-- What is to be said of the totals of a summary. -/
structure AddsUp (s : Summary) : Prop where
  /-- The list of documents is that of the paths of processed entries, each once. -/
  reached : ∀ path t, (path, t) ∈ s.reached ↔ s.at? path = some t
  once : (s.reached.map (·.1)).Nodup
  /-- Each total is the sum of the own tallies, with an exception for each entry that failed. -/
  sum : s.totals = (Counts.sum (s.reached.map (·.2.own))).add ⟨0, 0, failedEntries s.reached⟩
  /-- The order of the entries does not matter, at any depth. -/
  rearranged : ∀ cs, Child.Rearranged s.children cs → { s with children := cs }.totals = s.totals
  /-- An outcome adds one to its own kind, an entry its totals, and no recording takes away. -/
  outcome : ∀ k k', (s.record k).totals.of k' = s.totals.of k' + if k' = k then 1 else 0
  entry : ∀ c, (s.recordChild c).totals = s.totals.add c.totals
  grows : ∀ (xs : List Recording) (k : Status), s.totals.of k ≤ (xs.foldl take s).totals.of k
  /-- To be satisfied is that nothing bad is anywhere in the tree. -/
  satisfied : s.isSatisfied = true ↔ ∀ path t, s.at? path = some t →
    t.own.failures = 0 ∧ t.own.exceptions = 0 ∧ ∀ c ∈ t.children, c.isFailed = false
  asserted : s.assertSatisfied = .ok () ↔ s.isSatisfied = true
  unsatisfied : ∀ u, s.assertSatisfied = .error u ↔
    s.isSatisfied = false ∧ u = ⟨s.resource, s.totals.failures, s.totals.exceptions⟩

/-- **Totals are sums over the whole tree.** -/
theorem adds_up (s : Summary) : s.AddsUp where
  reached _ _ := s.mem_reached_iff
  once := s.nodup_reached
  sum := s.totals_eq
  rearranged cs h := congrArg s.own.add h.totalsAll_eq.symm
  outcome k k' := by rw [totals_record, Counts.of_record]
  entry := s.totals_recordChild
  grows xs k := by
    rw [totals_foldl_take, Counts.of_add]
    exact Nat.le_add_right ..
  satisfied := s.isSatisfied_iff_reached
  asserted := by
    rw [assertSatisfied_eq]
    cases s.isSatisfied <;> simp
  unsatisfied u := by
    rw [assertSatisfied_eq]
    cases s.isSatisfied <;> simp [eq_comm]

end Summary

end LivingDoc
