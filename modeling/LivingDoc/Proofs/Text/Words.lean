import LivingDoc.Text.Blank
import Mathlib.Data.List.TakeWhile

/-!
# The words of a text that is put together

Words are what blank space leaves of a text.  So they are found part by part where blank space
divides it, and blank space around it adds none.

* `wordsOf_append_blank`: a blank character divides the words.
* `wordsOf_trim`: trimming a text keeps its words.
-/

namespace LivingDoc.Text

/-- **A blank character divides the words of a text.**  Splitting at blank characters is split there
too, and the empty pieces that this may leave are dropped on either side. -/
theorem wordsOf_append_blank {c : Char} (hc : isBlank c = true) (as bs : List Char) :
    wordsOf (as ++ c :: bs) = wordsOf as ++ wordsOf bs := by
  rw [wordsOf, List.splitOnP_append_cons as bs hc, List.filter_append]
  rfl

theorem wordsOf_append_of_allBlank {w : List Char} (h : AllBlank w) (cs : List Char) :
    wordsOf (cs ++ w) = wordsOf cs := by
  cases w with
  | nil => rw [List.append_nil]
  | cons c w =>
    have hw : AllBlank w := fun d hd => h d (List.mem_cons_of_mem c hd)
    rw [wordsOf_append_blank (h c List.mem_cons_self), words_eq_nil_iff.mpr hw, List.append_nil]

theorem wordsOf_of_allBlank_append {w : List Char} (h : AllBlank w) (cs : List Char) :
    wordsOf (w ++ cs) = wordsOf cs := by
  induction w with
  | nil => rw [List.nil_append]
  | cons c w ih =>
    have hw : AllBlank w := fun d hd => h d (List.mem_cons_of_mem c hd)
    have hc := wordsOf_append_blank (h c List.mem_cons_self) [] (w ++ cs)
    rw [List.nil_append] at hc
    rw [List.cons_append, hc, ih hw]
    rfl

theorem allBlank_takeWhile (cs : List Char) : AllBlank (cs.takeWhile isBlank) := by
  intro c hc
  exact List.mem_takeWhile_imp hc

/-- **Trimming a text keeps its words**, for what it takes away is blank space at the two ends. -/
theorem wordsOf_trim (cs : List Char) : wordsOf (trim cs) = wordsOf cs := by
  have hstart : wordsOf (trimStart cs) = wordsOf cs := by
    have h := wordsOf_of_allBlank_append (allBlank_takeWhile cs) (trimStart cs)
    rw [trimStart, List.takeWhile_append_dropWhile] at h
    exact h.symm
  have hend : ∀ ds : List Char, wordsOf (trimEnd ds) = wordsOf ds := by
    intro ds
    have hblank : AllBlank (ds.reverse.takeWhile isBlank).reverse := by
      intro c hc
      exact allBlank_takeWhile _ c (List.mem_reverse.mp hc)
    have h := wordsOf_append_of_allBlank hblank (trimEnd ds)
    rw [trimEnd, ← List.reverse_append, List.takeWhile_append_dropWhile,
      List.reverse_reverse] at h
    exact h.symm
  rw [trim, hend, hstart]

theorem trim_eq_nil_iff {cs : List Char} : trim cs = [] ↔ wordsOf cs = [] := by
  constructor
  · intro h
    rw [← wordsOf_trim, h]
    rfl
  · intro h
    have hblank := words_eq_nil_iff.mp h
    rw [trim, trimStart, List.dropWhile_eq_nil_iff.mpr hblank]
    rfl

end LivingDoc.Text
