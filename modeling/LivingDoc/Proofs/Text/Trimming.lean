import LivingDoc.Proofs.Text.Words
import Mathlib.Data.List.Basic

/-!
# What trimming leaves

A reader that takes the characters of a kind as long as they last cuts a text at one place only,
and a reader that trims finds the one part of a text with no blank space at its ends.  So what was
put together with blank space around it is found again, whatever the blank space is.

* `takeWhile_and_dropWhile_iff`: where a run of characters ends.
* `trim_eq_iff`: what trimming leaves, by what was around it.
-/

namespace LivingDoc.Text

/-! ## 1. Runs of characters -/

theorem head?_cons_of {p : Char → Bool} {b : Bool} {c : Char} (h : p c = b) (cs : List Char) :
    ∀ d ∈ (c :: cs).head?, p d = b := by
  intro d hd
  obtain rfl := Option.some.inj (Option.mem_def.mp hd)
  exact h

/-- **A run goes on to the first character that does not belong to it.**  The two conditions
together fix the cut, so a reader that takes characters of a kind finds the parts that a text was
put together from, and no others. -/
theorem takeWhile_and_dropWhile_iff {p : Char → Bool} {cs as bs : List Char} :
    cs.takeWhile p = as ∧ cs.dropWhile p = bs ↔
      cs = as ++ bs ∧ (∀ c ∈ as, p c = true) ∧ ∀ c ∈ bs.head?, p c = false := by
  constructor
  · rintro ⟨rfl, rfl⟩
    refine ⟨List.takeWhile_append_dropWhile.symm, ?_, ?_⟩
    · intro c hc
      exact List.mem_takeWhile_imp hc
    · intro c hc
      have hnot := List.head?_dropWhile_not p cs
      rw [Option.mem_def.mp hc] at hnot
      simpa using hnot
  · rintro ⟨rfl, has, hbs⟩
    rw [List.takeWhile_append_of_pos has, List.dropWhile_append_of_pos has]
    cases bs with
    | nil => simp
    | cons b bs =>
      have hb : p b = false := hbs b rfl
      simp [hb]

/-! ## 2. Texts without blank space around them -/

/-- The first and the last character are visible, if there are any. -/
structure IsTrimmed (cs : List Char) : Prop where
  front : ∀ c ∈ cs.head?, isBlank c = false
  back : ∀ c ∈ cs.getLast?, isBlank c = false

theorem AllBlank.append {w v : List Char} (hw : AllBlank w) (hv : AllBlank v) :
    AllBlank (w ++ v) := by
  intro c hc
  exact (List.mem_append.mp hc).elim (hw c) (hv c)

theorem isTrimmed_of_visible {cs : List Char} (h : ∀ c ∈ cs, isBlank c = false) :
    IsTrimmed cs where
  front c hc := h c (List.mem_of_mem_head? hc)
  back c hc := h c (List.mem_of_mem_getLast? hc)

theorem isTrimmed_singleton {c : Char} (h : isBlank c = false) : IsTrimmed [c] := by
  apply isTrimmed_of_visible
  intro d hd
  obtain rfl := List.mem_singleton.mp hd
  exact h

/-- Anything between two texts without blank space around them. -/
theorem IsTrimmed.around {as bs : List Char} (ha : IsTrimmed as) (hb : IsTrimmed bs)
    (has : as ≠ []) (hbs : bs ≠ []) (cs : List Char) : IsTrimmed (as ++ cs ++ bs) where
  front c hc := by
    rw [List.append_assoc, List.head?_append_of_ne_nil _ has] at hc
    exact ha.front c hc
  back c hc := by
    rw [List.getLast?_append_of_ne_nil _ hbs] at hc
    exact hb.back c hc

theorem IsTrimmed.trimStart_append {cs : List Char} (h : IsTrimmed cs) (hcs : cs ≠ [])
    (v : List Char) : trimStart (cs ++ v) = cs ++ v := by
  obtain ⟨c, rest, rfl⟩ := List.exists_cons_of_ne_nil hcs
  exact trimStart_cons_of_visible (h.front c rfl) (rest ++ v)

theorem IsTrimmed.trimEnd_eq {cs : List Char} (h : IsTrimmed cs) : trimEnd cs = cs := by
  have hback : ∀ c ∈ cs.reverse.head?, isBlank c = false := by
    intro c hc
    rw [List.head?_reverse] at hc
    exact h.back c hc
  have hend : cs.reverse.takeWhile isBlank = [] ∧ cs.reverse.dropWhile isBlank = cs.reverse :=
    takeWhile_and_dropWhile_iff.mpr ⟨rfl, by simp, hback⟩
  rw [trimEnd, hend.2, List.reverse_reverse]

/-! ## 3. Trimming -/

theorem trim_eq_nil_iff_allBlank {cs : List Char} : trim cs = [] ↔ AllBlank cs :=
  trim_eq_nil_iff.trans words_eq_nil_iff

/-- Blank space around a text is trimmed off, and no more than that if its ends are visible. -/
theorem IsTrimmed.trim_eq {cs w v : List Char} (h : IsTrimmed cs) (hw : AllBlank w)
    (hv : AllBlank v) : trim (w ++ cs ++ v) = cs := by
  by_cases hcs : cs = []
  · subst hcs
    rw [List.append_nil]
    exact trim_eq_nil_iff_allBlank.mpr (hw.append hv)
  · rw [trim, List.append_assoc, trimStart_blank_append hw, h.trimStart_append hcs,
      trimEnd_append_blank hv, h.trimEnd_eq]

theorem exists_trim_behind (cs : List Char) :
    ∃ v, AllBlank v ∧ cs = cs.takeWhile isBlank ++ trim cs ++ v := by
  refine ⟨((trimStart cs).reverse.takeWhile isBlank).reverse, ?_, ?_⟩
  · intro c hc
    exact allBlank_takeWhile _ c (List.mem_reverse.mp hc)
  · rw [List.append_assoc, trim, trimEnd, ← List.reverse_append, List.takeWhile_append_dropWhile,
      List.reverse_reverse, trimStart, List.takeWhile_append_dropWhile]

/-- What trimming takes away is blank space around what it leaves. -/
theorem exists_trim (cs : List Char) :
    ∃ w v, AllBlank w ∧ AllBlank v ∧ cs = w ++ trim cs ++ v := by
  obtain ⟨v, hv, hcs⟩ := exists_trim_behind cs
  exact ⟨cs.takeWhile isBlank, v, allBlank_takeWhile cs, hv, hcs⟩

theorem isTrimmed_trim (cs : List Char) : IsTrimmed (trim cs) where
  front c hc := by
    have hfront : ∀ d ∈ (trimStart cs).head?, isBlank d = false :=
      (takeWhile_and_dropWhile_iff.mp ⟨rfl, rfl⟩).2.2
    have hprefix : trim cs <+: trimStart cs :=
      List.reverse_suffix.mp (by
        rw [trim, trimEnd, List.reverse_reverse]
        exact List.dropWhile_suffix _)
    obtain ⟨v, hv⟩ := hprefix
    obtain ⟨rest, hrest⟩ := List.head?_eq_some_iff.mp (Option.mem_def.mp hc)
    apply hfront
    rw [← hv, hrest]
    rfl
  back c hc := by
    have hback : ∀ d ∈ ((trimStart cs).reverse.dropWhile isBlank).head?, isBlank d = false :=
      (takeWhile_and_dropWhile_iff.mp ⟨rfl, rfl⟩).2.2
    rw [trim, trimEnd, List.getLast?_reverse] at hc
    exact hback c hc

/-- **Trimming leaves the one part of a text that has blank space around it and none at its ends.**
The readers of expressions and references are proved from this equivalence, so none of them looks
into `trim`. -/
theorem trim_eq_iff {cs ds : List Char} :
    trim cs = ds ↔ IsTrimmed ds ∧ ∃ w v, AllBlank w ∧ AllBlank v ∧ cs = w ++ ds ++ v := by
  constructor
  · rintro rfl
    exact ⟨isTrimmed_trim cs, exists_trim cs⟩
  · rintro ⟨hds, w, v, hw, hv, rfl⟩
    exact hds.trim_eq hw hv

theorem IsTrimmed.trim_self {cs : List Char} (h : IsTrimmed cs) : trim cs = cs :=
  trim_eq_iff.mpr ⟨h, [], [], by simp [AllBlank], by simp [AllBlank], by simp⟩

end LivingDoc.Text
