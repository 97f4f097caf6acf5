import LivingDoc.Proofs.Text.Trimming

/-!
# Normalised texts

A text is read as words, and normalising it keeps the words and nothing else: blank space goes, but
for one space between two words.  So two texts have one normalised form exactly when they are made
of the same words, and to compare normalised texts is to compare words.

* `Text.wordsOf_eq_iff`: the words of a text are its runs of visible characters, each as long as it
  goes.
* `Text.normalized_eq_normalized_iff`: normalised texts are equal if and only if the words are.
* `Text.isNormal_normalized`, `Text.normalized_normalized`: what a normalised text looks like, and
  that it stays as it is.
-/

namespace LivingDoc.Text

/-! ## 1. Runs of visible characters -/

/-- A text is made of these words: blank space, a run of visible characters that ends with the text
or at a blank character, and so on; behind the last one there is blank space only.  Each run goes on
as long as it can, so a text has one such list; nothing in the definition mentions splitting. -/
inductive Spaced : List Char → List (List Char) → Prop where
  | blank {w : List Char} (h : AllBlank w) : Spaced w []
  | word {w v rest : List Char} {ws : List (List Char)} (before : AllBlank w) (nonempty : v ≠ [])
      (visible : ∀ c ∈ v, isBlank c = false) (ends : ∀ c ∈ rest.head?, isBlank c = true)
      (others : Spaced rest ws) : Spaced (w ++ v ++ rest) (v :: ws)

theorem wordsOf_of_visible {v : List Char} (hne : v ≠ []) (h : ∀ c ∈ v, isBlank c = false) :
    wordsOf v = [v] := by
  rw [wordsOf, List.splitOnP_eq_singleton h]
  simp [hne]

theorem Spaced.wordsOf_eq {cs : List Char} {ws : List (List Char)} (h : Spaced cs ws) :
    wordsOf cs = ws := by
  induction h with
  | blank h => exact words_eq_nil_iff.mpr h
  | @word w v rest ws before nonempty visible ends others ih =>
    rw [List.append_assoc, wordsOf_of_allBlank_append before]
    cases rest with
    | nil => rw [List.append_nil, wordsOf_of_visible nonempty visible, ← ih]; rfl
    | cons c rest =>
      have hc : isBlank c = true := ends c rfl
      have hrest : wordsOf (c :: rest) = wordsOf rest := wordsOf_append_blank hc [] rest
      rw [wordsOf_append_blank hc, wordsOf_of_visible nonempty visible, ← hrest, ih]
      rfl

/-- Every text is made of words.  By induction on the length: the blank space in front is dropped,
then the first run, and what is left is shorter. -/
theorem exists_spaced (cs : List Char) : ∃ ws, Spaced cs ws := by
  -- what is left behind the first word is shorter
  induction hn : cs.length using Nat.strong_induction_on generalizing cs with
  | _ n ih =>
    subst hn
    obtain ⟨hcs, hblank, hfirst⟩ :=
      takeWhile_and_dropWhile_iff.mp ⟨rfl, (rfl : cs.dropWhile isBlank = _)⟩
    generalize cs.takeWhile isBlank = w at hcs hblank
    generalize cs.dropWhile isBlank = ds at hcs hfirst
    subst hcs
    cases ds with
    | nil =>
      rw [List.append_nil]
      exact ⟨[], .blank hblank⟩
    | cons d ds =>
      have hd : (!isBlank d) = true := by rw [hfirst d rfl, Bool.not_false]
      obtain ⟨hds, hvisible, hends⟩ :=
        takeWhile_and_dropWhile_iff.mp ⟨rfl, (rfl : (d :: ds).dropWhile (!isBlank ·) = _)⟩
      have hne : (d :: ds).takeWhile (!isBlank ·) ≠ [] := by
        rw [List.takeWhile_cons, if_pos hd]
        exact List.cons_ne_nil _ _
      generalize (d :: ds).takeWhile (!isBlank ·) = v at hds hvisible hne
      generalize (d :: ds).dropWhile (!isBlank ·) = rest at hds hends
      rw [hds] at ih ⊢
      have hshorter : rest.length < (w ++ (v ++ rest)).length := by
        have := List.length_pos_iff.mpr hne
        rw [List.length_append, List.length_append]
        omega
      obtain ⟨ws, hrest⟩ := ih _ hshorter rest rfl
      refine ⟨v :: ws, ?_⟩
      rw [← List.append_assoc]
      exact .word hblank hne (by simpa using hvisible) (by simpa using hends) hrest

/-- **The words of a text are its runs of visible characters, each as long as it goes.**  From right
to left by induction on the words; from left to right because some list of runs exists, and the
first half makes it the list that the text is divided into. -/
theorem wordsOf_eq_iff {cs : List Char} {ws : List (List Char)} :
    wordsOf cs = ws ↔ Spaced cs ws := by
  constructor
  · rintro rfl
    obtain ⟨ws, h⟩ := exists_spaced cs
    rwa [h.wordsOf_eq]
  · exact Spaced.wordsOf_eq

theorem Spaced.visible_of_mem {cs : List Char} {ws : List (List Char)} (h : Spaced cs ws) :
    ∀ v ∈ ws, v ≠ [] ∧ ∀ c ∈ v, isBlank c = false := by
  induction h with
  | blank => simp
  | word _ nonempty visible _ _ ih => exact List.forall_mem_cons.mpr ⟨⟨nonempty, visible⟩, ih⟩

/-- A text that is one word: there is something in it, and nothing blank. -/
def IsWord (s : String) : Prop := s ≠ "" ∧ ∀ c ∈ s.toList, isBlank c = false

instance (s : String) : Decidable (IsWord s) :=
  haveI : Decidable (∀ c ∈ s.toList, isBlank c = false) := List.decidableBAll _ _
  inferInstanceAs (Decidable (_ ∧ _))

theorem words_eq_self_iff {s : String} : words s = [s] ↔ IsWord s := by
  constructor
  · intro h
    obtain ⟨w, hw, hs⟩ := List.map_eq_singleton_iff.mp h
    have hvisible := (wordsOf_eq_iff.mp rfl).visible_of_mem w (hw ▸ List.mem_singleton_self w)
    have htext : s.toList = w := by rw [← hs, String.toList_ofList]
    refine ⟨?_, htext ▸ hvisible.2⟩
    rintro rfl
    exact hvisible.1 htext.symm
  · rintro ⟨hne, hvisible⟩
    have hchars : s.toList ≠ [] := fun h => hne (String.toList_eq_nil_iff.mp h)
    rw [words, wordsOf_of_visible hchars hvisible, List.map_singleton, String.ofList_toList]

/-- Two texts are made of the same words.  It is what comparing two normalised texts should come to,
said without normalising. -/
def SameWords (a b : String) : Prop := ∃ ws, Spaced a.toList ws ∧ Spaced b.toList ws

theorem sameWords_iff {a b : String} : SameWords a b ↔ wordsOf a.toList = wordsOf b.toList := by
  constructor
  · rintro ⟨ws, ha, hb⟩
    rw [ha.wordsOf_eq, hb.wordsOf_eq]
  · intro h
    exact ⟨_, wordsOf_eq_iff.mp h, wordsOf_eq_iff.mp rfl⟩

instance (a b : String) : Decidable (SameWords a b) := decidable_of_iff _ sameWords_iff.symm

/-! ## 2. Words with single spaces between them -/

/-- Nothing blank stands at the ends, and elsewhere a blank character is a space with a visible
character behind it.  The second clause speaks of characters with another one behind them, so the
last character is left to the first. -/
structure IsNormal (cs : List Char) : Prop where
  trimmed : IsTrimmed cs
  single : ∀ before c d after, cs = before ++ c :: d :: after → isBlank c = true →
    c = ' ' ∧ isBlank d = false

theorem toList_normalized (s : String) :
    (normalized s).toList = [' '].intercalate (wordsOf s.toList) := by
  have hmap : (words s).map String.toList = wordsOf s.toList := by
    rw [words, List.map_map]
    exact (List.map_congr_left fun w _ => String.toList_ofList).trans (List.map_id _)
  rw [normalized, String.toList_intercalate, hmap]
  rfl

theorem intercalate_ne_nil {v : List Char} (hv : v ≠ []) (ws : List (List Char)) :
    [' '].intercalate (v :: ws) ≠ [] := by
  cases ws with
  | nil => rwa [List.intercalate_singleton]
  | cons u ws =>
    rw [List.intercalate_cons_cons, List.append_assoc]
    exact List.append_ne_nil_of_left_ne_nil hv _

/-- **Words with single spaces between them are found again.**  By induction on the words: the space
behind a word divides it from the others, and it has no space in it. -/
theorem wordsOf_intercalate {ws : List (List Char)}
    (h : ∀ v ∈ ws, v ≠ [] ∧ ∀ c ∈ v, isBlank c = false) :
    wordsOf ([' '].intercalate ws) = ws := by
  induction ws with
  | nil => rfl
  | cons v ws ih =>
    rw [List.forall_mem_cons] at h
    have hv : wordsOf v = [v] := wordsOf_of_visible h.1.1 h.1.2
    cases ws with
    | nil => rw [List.intercalate_singleton, hv]
    | cons u ws =>
      have hspace : isBlank ' ' = true := by decide
      rw [List.intercalate_cons_cons, List.append_assoc, List.singleton_append,
        wordsOf_append_blank hspace, hv, ih h.2]
      rfl

/-- Words with single spaces between them have no other blank space.  By induction on the words; a
blank character lies in no word, so it is one of the spaces, and what follows it begins the next
word. -/
theorem isNormal_intercalate {ws : List (List Char)}
    (h : ∀ v ∈ ws, v ≠ [] ∧ ∀ c ∈ v, isBlank c = false) : IsNormal ([' '].intercalate ws) := by
  have hword : ∀ {v : List Char}, (∀ c ∈ v, isBlank c = false) → IsNormal v := by
    intro v hv
    refine ⟨isTrimmed_of_visible hv, ?_⟩
    rintro before c d after rfl hc
    exact absurd hc (by simp [hv c (by simp)])
  induction ws with
  | nil => exact hword (v := []) (by simp)
  | cons v ws ih =>
    rw [List.forall_mem_cons] at h
    obtain ⟨⟨hne, hvisible⟩, hothers⟩ := h
    cases ws with
    | nil =>
      rw [List.intercalate_singleton]
      exact hword hvisible
    | cons u ws =>
      have hrest := ih hothers
      have hrestne := intercalate_ne_nil (hothers u List.mem_cons_self).1 ws
      rw [List.intercalate_cons_cons]
      generalize [' '].intercalate (u :: ws) = rest at hrest hrestne
      refine ⟨(hword hvisible).trimmed.around hrest.trimmed hne hrestne [' '], ?_⟩
      intro before c d after hsplit hc
      rw [List.append_assoc, List.singleton_append] at hsplit
      -- the blank character stands in the first word, is the space, or stands behind it
      rcases List.append_eq_append_iff.mp hsplit with ⟨as, rfl, has⟩ | ⟨as, rfl, has⟩
      · cases as with
        | nil =>
          obtain ⟨rfl, hd⟩ := List.cons.inj has
          exact ⟨rfl, hrest.trimmed.front d (by rw [hd]; rfl)⟩
        | cons a as =>
          obtain ⟨-, htail⟩ := List.cons.inj has
          exact hrest.single as c d after htail hc
      · cases as with
        | nil =>
          obtain ⟨rfl, hd⟩ := List.cons.inj has
          exact ⟨rfl, hrest.trimmed.front d (by rw [← hd]; rfl)⟩
        | cons a as =>
          obtain ⟨rfl, -⟩ := List.cons.inj has
          exact absurd hc (by simp [hvisible c (by simp)])

/-! ## 3. Normalising -/

theorem wordsOf_normalized (s : String) : wordsOf (normalized s).toList = wordsOf s.toList := by
  rw [toList_normalized, wordsOf_intercalate (wordsOf_eq_iff.mp rfl).visible_of_mem]

/-- **Normalised texts are equal if and only if the texts are made of the same words.**  Joining the
words loses nothing (`wordsOf_intercalate`), so equal normalised texts have equal words. -/
theorem normalized_eq_normalized_iff {a b : String} :
    normalized a = normalized b ↔ SameWords a b := by
  rw [sameWords_iff]
  constructor
  · intro h
    rw [← wordsOf_normalized a, h, wordsOf_normalized]
  · intro h
    rw [normalized, normalized, words, words, h]

theorem normalized_normalized (s : String) : normalized (normalized s) = normalized s :=
  normalized_eq_normalized_iff.mpr (sameWords_iff.mpr (wordsOf_normalized s))

theorem isNormal_normalized (s : String) : IsNormal (normalized s).toList := by
  rw [toList_normalized]
  exact isNormal_intercalate (wordsOf_eq_iff.mp rfl).visible_of_mem

end LivingDoc.Text
