/-!
# Blank characters, trimming and words

A text is read as words with blank space between them.  Which characters are blank is decided by the
Unicode property White_Space, so a no-break space separates words and a zero-width space does not:
the specification (4.2) wants non-breaking spaces "treated as spaces" in comparisons, and the class
does that without a rule of its own.  Functions on characters come first; those on `String` wrap
them.

* `trimStart_blank_append`, `trimEnd_append_blank`: blank space around a text does not show.
* `words_eq_nil_iff`: a text without words is a blank text.
-/

namespace LivingDoc.Text

/-! ## 1. The class of blank characters -/

/-- The characters with the property White_Space, which are 25 in all. -/
def isBlank (c : Char) : Bool :=
  let n := c.toNat
  (0x09 ≤ n && n ≤ 0x0D) || n == 0x20 || n == 0x85 || n == 0xA0 || n == 0x1680
    || (0x2000 ≤ n && n ≤ 0x200A) || n == 0x2028 || n == 0x2029 || n == 0x202F || n == 0x205F
    || n == 0x3000

/-- A text is blank when every character of it is. -/
def AllBlank (cs : List Char) : Prop := ∀ c ∈ cs, isBlank c = true

instance (cs : List Char) : Decidable (AllBlank cs) := inferInstanceAs (Decidable (∀ c ∈ cs, _))

/-! ## 2. Trimming -/

def trimStart (cs : List Char) : List Char := cs.dropWhile isBlank

def trimEnd (cs : List Char) : List Char := (cs.reverse.dropWhile isBlank).reverse

/-- Drop the blank space on both sides.  Trimming of references, expressions, literals and class
attributes is this one function. -/
def trim (cs : List Char) : List Char := trimEnd (trimStart cs)

theorem trimStart_blank_append {w : List Char} (h : AllBlank w) (cs : List Char) :
    trimStart (w ++ cs) = trimStart cs :=
  List.dropWhile_append_of_pos h

theorem trimEnd_append_blank {w : List Char} (h : AllBlank w) (cs : List Char) :
    trimEnd (cs ++ w) = trimEnd cs := by
  rw [trimEnd, List.reverse_append, List.dropWhile_append_of_pos]
  · rfl
  · intro c hc
    exact h c (List.mem_reverse.1 hc)

theorem trimStart_cons_of_visible {c : Char} (h : isBlank c = false) (cs : List Char) :
    trimStart (c :: cs) = c :: cs := by
  simp [trimStart, h]

def trimmed (s : String) : String := String.ofList (trim s.toList)

/-! ## 3. Words -/

/-- The maximal runs of visible characters, in order: the text is split at every blank character,
and the empty pieces are left out. -/
def wordsOf (cs : List Char) : List (List Char) :=
  (cs.splitOnP isBlank).filter (fun w => !w.isEmpty)

/-- A text without words is a blank text: a visible character belongs to some word. -/
theorem words_eq_nil_iff {cs : List Char} : wordsOf cs = [] ↔ AllBlank cs := by
  unfold wordsOf AllBlank
  induction cs with
  | nil => simp
  | cons c cs ih =>
    rw [List.splitOnP_cons_eq_if_modifyHead]
    by_cases hc : isBlank c = true
    · simp only [hc, if_true]
      rw [List.filter_cons]
      simp only [List.isEmpty_nil, Bool.not_true, Bool.false_eq_true, if_false, ih]
      simp [hc]
    · simp only [hc]
      cases hs : List.splitOnP isBlank cs with
      | nil => exact absurd hs (List.splitOnP_ne_nil _ _)
      | cons w ws => simp [hc]

def words (s : String) : List String := (wordsOf s.toList).map String.ofList

/-- The text with single spaces between its words and none around them: `normalize_whitespace`, by
which the comparator of `assertEquals` and the value of `#TEXT` are defined (specification, 4.2). -/
def normalized (s : String) : String := String.intercalate " " (words s)

/-! ## 4. Letter case -/

/-- The text with the letters `A` to `Z` in lower case and every other character as it is, so that
words are compared without regard to ASCII case. -/
def asciiLower (cs : List Char) : List Char := cs.map Char.toLower

end LivingDoc.Text
