import LivingDoc.Markup.Written
import LivingDoc.Xml.Infoset

/-!
# What is read of escaped text

A text is written with three characters escaped and a value with four, and nothing else is.  The
escapes are read as the characters they stand for, but the reader also turns line ends into line
feeds in a text and into spaces in a value, so neither comes back in general.

* `Xml.readText_escaped`, `Xml.valueOf_escaped`: what is read, as a function of what was written.
* `Xml.textRead_eq_self_iff`, `Xml.valueRead_eq_self_iff`: which texts and values come back.
-/

namespace LivingDoc.Xml

/-! ## 1. Pieces of escaped text -/

/-- The character is written in text as a reference. -/
def isEscaped (c : Char) : Bool := c == '&' || c == '<' || c == '>'

theorem isEscaped_iff {c : Char} : isEscaped c = true ↔ c = '&' ∨ c = '<' ∨ c = '>' := by
  simp [isEscaped, or_assoc]

theorem escapeInText_of_not_isEscaped {c : Char} (h : isEscaped c = false) :
    escapeInText c = [c] := by
  unfold escapeInText
  split <;> simp_all [isEscaped]

theorem escapeInValue_of_ne {c : Char} (h : c ≠ '"') : escapeInValue c = escapeInText c := by
  unfold escapeInValue
  split <;> simp_all

theorem pieces_cons_of_ne {c : Char} (h : c ≠ '&') (cs : List Char) :
    pieces (c :: cs) = .literal c :: pieces cs := by
  rw [pieces.eq_def]
  simp [h]

/-- A character of a text is one piece of the run: a reference if it is escaped. -/
theorem pieces_escapeInText (c : Char) (cs : List Char) :
    ∃ left, pieces (escapeInText c ++ cs) =
      (if isEscaped c then .character c left else .literal c) :: pieces cs := by
  cases h : isEscaped c with
  | true =>
    rcases isEscaped_iff.mp h with rfl | rfl | rfl <;> exact ⟨_, by rw [pieces.eq_def]; rfl⟩
  | false =>
    refine ⟨0, ?_⟩
    have hc : c ≠ '&' := by
      rintro rfl
      exact absurd h (by decide)
    rw [escapeInText_of_not_isEscaped h]
    exact pieces_cons_of_ne hc cs

theorem pieces_escapeInValue (c : Char) (cs : List Char) :
    ∃ left, pieces (escapeInValue c ++ cs) =
      (if isEscaped c || c == '"' then .character c left else .literal c) :: pieces cs := by
  by_cases h : c = '"'
  · subst h
    exact ⟨_, by rw [pieces.eq_def]; rfl⟩
  · rw [escapeInValue_of_ne h, beq_eq_false_iff_ne.mpr h, Bool.or_false]
    exact pieces_escapeInText c cs

/-- An angle bracket does not stand in an escaped text: there the run ends where the text does. -/
theorem not_mem_escaped {c : Char} {s : List Char} (h : c ∈ s.flatMap escapeInText)
    (hc : c = '<' ∨ c = '>') : False := by
  obtain ⟨d, -, hd⟩ := List.mem_flatMap.mp h
  cases he : isEscaped d with
  | true =>
    rcases isEscaped_iff.mp he with rfl | rfl | rfl <;> rcases hc with rfl | rfl <;>
      exact absurd hd (by decide)
  | false =>
    rw [escapeInText_of_not_isEscaped he, List.mem_singleton] at hd
    rw [← hd] at he
    rcases hc with rfl | rfl <;> exact absurd he (by decide)

/-! ## 2. Values -/

/-- What is read of a written value.  By the rules of XML 1.0 for line ends and for attribute values
a line end is one space, and so is a tab. -/
def valueRead : List Char → List Char
  | [] => []
  | c :: rest =>
    if c = '\r' && rest.head? == some '\n' then valueRead rest else asSpace c :: valueRead rest

theorem head?_pieces_escaped (v : List Char) :
    ((pieces (v.flatMap escapeInValue)).head? == some (.literal '\n')) =
      (v.head? == some '\n') := by
  cases v with
  | nil => rw [List.flatMap_nil, pieces]; rfl
  | cons c rest =>
    obtain ⟨left, hp⟩ := pieces_escapeInValue c (rest.flatMap escapeInValue)
    rw [List.flatMap_cons, hp]
    cases he : isEscaped c || c == '"' with
    | true =>
      have hc : c ≠ '\n' := by
        rintro rfl
        exact absurd he (by decide)
      rw [Bool.eq_iff_iff]
      simp [hc]
    | false =>
      rw [Bool.eq_iff_iff]
      simp

theorem valueOf_escaped (entities : List Entity) (use : UseInValue) (behind : Nat)
    (v : List Char) (n : Nat) :
    valueOf entities use true behind (pieces (v.flatMap escapeInValue)) n
      = .ok (valueRead v, n) := by
  induction v with
  | nil => rw [List.flatMap_nil, pieces]; rfl
  | cons c rest ih =>
    obtain ⟨left, hp⟩ := pieces_escapeInValue c (rest.flatMap escapeInValue)
    rw [List.flatMap_cons, hp]
    cases he : isEscaped c || c == '"' with
    | true =>
      have hc : c = '&' ∨ c = '<' ∨ c = '>' ∨ c = '"' := by
        rcases Bool.or_eq_true_iff.mp he with h | h
        · rcases isEscaped_iff.mp h with rfl | rfl | rfl <;> simp
        · simp [beq_iff_eq.mp h]
      rw [if_pos rfl, valueOf, ih]
      rcases hc with rfl | rfl | rfl | rfl <;> simp [valueRead, asSpace]
    | false =>
      rw [if_neg (by simp), valueOf, ih]
      dsimp only
      rw [head?_pieces_escaped, valueRead]
      split <;> rfl

theorem asSpace_of_mem_valueRead {v : List Char} {c : Char} (h : c ∈ valueRead v) :
    asSpace c = c := by
  induction v with
  | nil => simp [valueRead] at h
  | cons d rest ih =>
    rw [valueRead] at h
    split at h
    · exact ih h
    · rcases List.mem_cons.mp h with rfl | h
      · unfold asSpace
        split <;> simp_all
      · exact ih h

/-- **The values that come back** hold no line end and no tab.  These are not escaped where a value
is written, though a reference would keep them. -/
theorem valueRead_eq_self_iff {v : List Char} :
    valueRead v = v ↔ ∀ c ∈ v, asSpace c = c := by
  constructor
  · intro h c hc
    rw [← h] at hc
    exact asSpace_of_mem_valueRead hc
  · intro h
    induction v with
    | nil => rfl
    | cons c rest ih =>
      have hc : c ≠ '\r' := by
        rintro rfl
        exact absurd (h '\r' List.mem_cons_self) (by decide)
      rw [valueRead, if_neg (by simp [hc]), h c List.mem_cons_self,
        ih fun d hd => h d (List.mem_cons_of_mem _ hd)]

/-! ## 3. Texts -/

/-- What is read of a carriage return with this character behind it, if there is one.  It stays in
front of an escape, and behind an escape at the very end (`behind`); else it is a line feed,
together with a line feed behind it. -/
def returnRead (behind : Bool) : Option Char → List Char
  | none => [if behind then '\r' else '\n']
  | some d => if isEscaped d then ['\r'] else if d = '\n' then [] else ['\n']

/-- What is read of a written text; `behind` says that an escape stands in front of it. -/
def textRead : (behind : Bool) → List Char → List Char
  | _, [] => []
  | behind, c :: rest =>
    if c = '\r' then returnRead behind rest.head? ++ textRead false rest
    else c :: textRead (isEscaped c) rest

/-- A carriage return in the buffer is a line feed for every character that comes next but a line
feed itself. -/
theorem pushLine_return {c : Char} (h : c ≠ '\n') (buffer : List Char) (last : Bool) :
    pushLine ('\r' :: buffer) c last = pushLine ('\n' :: buffer) c last := by
  simp [pushLine, h]

theorem pushLine_of_head {buffer : List Char} (hb : buffer.head? ≠ some '\r') (c : Char)
    (last : Bool) :
    pushLine buffer c last = if c = '\r' && last then '\n' :: buffer else c :: buffer := by
  unfold pushLine
  split
  · simp at hb
  · rfl

section

variable (entities : List Entity) (use : UseInContent) (behind : Nat)

/-- One character of an escaped text, by what the buffer and the escape in front of it are. -/
theorem readText_cons (c : Char) (rest buffer : List Char) (kept : Bool) (p : Partial) :
    readText entities use true behind (pieces ((c :: rest).flatMap escapeInText)) buffer kept p
      = readText entities use true behind (pieces (rest.flatMap escapeInText))
        (if isEscaped c || kept then c :: buffer else pushLine buffer c rest.isEmpty)
        (isEscaped c) p := by
  obtain ⟨left, hp⟩ := pieces_escapeInText c (rest.flatMap escapeInText)
  rw [List.flatMap_cons, hp]
  cases he : isEscaped c with
  | true => simp [readText]
  | false =>
    have hl : (pieces (rest.flatMap escapeInText)).isEmpty = rest.isEmpty := by
      cases rest with
      | nil => rw [List.flatMap_nil, pieces]; rfl
      | cons d more =>
        obtain ⟨left, hp⟩ := pieces_escapeInText d (more.flatMap escapeInText)
        rw [List.flatMap_cons, hp]
        rfl
    rw [if_neg (by simp), readText, hl]
    rfl

/-- Where no carriage return is left in the buffer, `textRead` says what is read of the text. -/
def ReadsFresh (s : List Char) (p : Partial) : Prop :=
  ∀ buffer kept, buffer.head? ≠ some '\r' →
    readText entities use true behind (pieces (s.flatMap escapeInText)) buffer kept p
      = .ok (p.flush ((textRead kept s).reverse ++ buffer))

/-- Where one is left, it is read together with the text. -/
def ReadsReturn (s : List Char) (p : Partial) : Prop :=
  ∀ buffer kept, s ≠ [] →
    readText entities use true behind (pieces (s.flatMap escapeInText)) ('\r' :: buffer) false p
      = .ok (p.flush ((textRead kept ('\r' :: s)).reverse ++ buffer))

variable {entities use behind} {rest : List Char} {p : Partial}

theorem readsFresh_cons (hfresh : ReadsFresh entities use behind rest p)
    (hreturn : ReadsReturn entities use behind rest p) (c : Char) :
    ReadsFresh entities use behind (c :: rest) p := by
  intro buffer kept hb
  rw [readText_cons]
  by_cases hc : c = '\r'
  · subst hc
    cases rest with
    | nil =>
      rw [List.flatMap_nil, pieces, readText]
      cases kept with
      | true => rfl
      | false =>
        rw [if_neg (by decide), pushLine_of_head hb]
        rfl
    | cons d more =>
      have hbuf : (if isEscaped '\r' || kept then '\r' :: buffer
          else pushLine buffer '\r' (d :: more).isEmpty) = '\r' :: buffer := by
        rw [pushLine_of_head hb]
        simp
      rw [hbuf]
      exact hreturn buffer kept (by simp)
  · have hbuf : (if isEscaped c || kept then c :: buffer
        else pushLine buffer c rest.isEmpty) = c :: buffer := by
      rw [pushLine_of_head hb]
      simp [hc]
    rw [hbuf, hfresh _ _ (by simpa using hc), textRead, if_neg hc]
    simp

/-- One more character in front of a text, behind a carriage return.  Here the first character
decides what the return is read as. -/
theorem readsReturn_cons (hfresh : ReadsFresh entities use behind rest p)
    (hreturn : ReadsReturn entities use behind rest p) (c : Char) :
    ReadsReturn entities use behind (c :: rest) p := by
  intro buffer kept _
  rw [textRead, if_pos rfl]
  cases he : isEscaped c with
  | true =>
    have hc : c ≠ '\r' := by
      rintro rfl
      exact absurd he (by decide)
    rw [readText_cons, he, hfresh _ _ (by simpa using hc)]
    simp [textRead, returnRead, hc, he]
  | false =>
    by_cases hn : c = '\n'
    · subst hn
      rw [readText_cons, hfresh _ _ (by simp [pushLine, he])]
      simp [textRead, returnRead, he, pushLine]
    · -- the return has become a line feed, and the rest is read as behind one
      have hbuf : readText entities use true behind (pieces ((c :: rest).flatMap escapeInText))
          ('\r' :: buffer) false p
          = readText entities use true behind (pieces ((c :: rest).flatMap escapeInText))
            ('\n' :: buffer) false p := by
        rw [readText_cons, readText_cons, he, pushLine_return hn]
        rfl
      rw [hbuf, readsFresh_cons hfresh hreturn c _ _ (by simp)]
      simp [returnRead, he, hn]

variable (entities use behind)

/-- **An escaped text is read as `textRead` says**, in both states of the reader.  By induction on
the text: with a carriage return in the buffer the reader waits for one more character, so neither
state can be treated without the other. -/
theorem readsFresh_and_readsReturn (s : List Char) (p : Partial) :
    ReadsFresh entities use behind s p ∧ ReadsReturn entities use behind s p := by
  induction s with
  | nil =>
    refine ⟨fun buffer kept _ => ?_, fun _ _ h => absurd rfl h⟩
    rw [List.flatMap_nil, pieces, readText, textRead]
    rfl
  | cons c rest ih =>
    exact ⟨readsFresh_cons ih.1 ih.2 c, readsReturn_cons ih.1 ih.2 c⟩

/-- What is read of an escaped text. -/
theorem readText_escaped (s : List Char) (p : Partial) :
    readText entities use true behind (pieces (s.flatMap escapeInText)) [] false p
      = .ok (p.flush (textRead false s).reverse) := by
  rw [(readsFresh_and_readsReturn entities use behind s p).1 [] false (by simp), List.append_nil]

end

theorem length_returnRead_le (behind : Bool) (d : Option Char) :
    (returnRead behind d).length ≤ 1 := by
  unfold returnRead
  split
  · simp
  · split
    · simp
    · split <;> simp

theorem length_textRead_le (kept : Bool) (s : List Char) : (textRead kept s).length ≤ s.length := by
  induction s generalizing kept with
  | nil => simp [textRead]
  | cons c rest ih =>
    rw [textRead]
    split
    · have := ih false
      have := length_returnRead_le kept rest.head?
      rw [List.length_append, List.length_cons]
      omega
    · simpa using ih (isEscaped c)

theorem textRead_ne_nil {s : List Char} (h : s ≠ []) (behind : Bool) : textRead behind s ≠ [] := by
  induction s generalizing behind with
  | nil => exact absurd rfl h
  | cons c rest ih =>
    rw [textRead]
    split
    · cases rest with
      | nil => simp [returnRead]
      | cons d more => exact fun hnil => ih (by simp) false (List.append_eq_nil_iff.mp hnil).2
    · simp

/-- Every carriage return stands in front of an escape, or behind one at the very end. -/
def returnsKept : (behind : Bool) → List Char → Bool
  | _, [] => true
  | behind, c :: rest =>
    (c != '\r' || (rest.head?.map isEscaped).getD behind) && returnsKept (isEscaped c) rest

/-- **The texts that come back** have every carriage return where no line end is seen: in front of
an escape, or behind one at the very end. -/
theorem textRead_eq_self_iff (behind : Bool) (s : List Char) :
    textRead behind s = s ↔ returnsKept behind s = true := by
  induction s generalizing behind with
  | nil => simp [textRead, returnsKept]
  | cons c rest ih =>
    rw [textRead, returnsKept, Bool.and_eq_true, ← ih]
    by_cases hc : c = '\r'
    · subst hc
      rw [if_pos rfl]
      cases rest with
      | nil => cases behind <;> simp [textRead, returnRead]
      | cons d more =>
        cases he : isEscaped d with
        | true => simp [returnRead, he, show isEscaped '\r' = false from rfl]
        | false =>
          refine ⟨fun h => absurd h ?_, fun h => absurd h.1 (by simp [he])⟩
          simp only [List.head?_cons, returnRead, he, Bool.false_eq_true, if_false]
          split
          · intro h
            have hl := length_textRead_le false (d :: more)
            rw [List.nil_append] at h
            rw [h, List.length_cons] at hl
            omega
          · simp
    · rw [if_neg hc]
      simp [hc]

end LivingDoc.Xml
