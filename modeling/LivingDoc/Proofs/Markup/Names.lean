import LivingDoc.Markup.Element
import LivingDoc.Xml.Scan
import Mathlib.Data.List.TakeDrop
import Mathlib.Data.List.TakeWhile

/-!
# Names as they are written and read

A name is two parts that the reader cuts at the colon.  Written out and read again it is the same
name, whatever follows it that cannot go on with it, and the parts the reader makes are those that
the colon gives in the element.

* `Xml.qname_text`: a name is read back from what is written.
* `Xml.valid_of_qname`: the reader gives no other names.
-/

namespace LivingDoc.Xml

/-! ## 1. Names without a colon -/

/-- A name without a colon, as namespaces in XML ask for prefixes and local names. -/
def IsPlain (s : String) : Prop :=
  startsName s.toList = true ∧ ∀ c ∈ s.toList, isNameChar c = true ∧ c ≠ ':'

-- The characters of a name are looked at one by one, never all the characters there are.
instance (s : String) : Decidable (IsPlain s) :=
  @instDecidableAnd _ _ inferInstance (List.decidableBAll _ _)

theorem IsPlain.ne_empty {s : String} (h : IsPlain s) : s ≠ "" := by
  rintro rfl
  exact absurd h.1 (by simp [startsName])

theorem IsPlain.no_colon {s : String} (h : IsPlain s) : ∀ c ∈ s.toList, c ≠ ':' := fun c hc =>
  (h.2 c hc).2

theorem isPlain_xml : IsPlain "xml" := by decide

theorem isPlain_xmlns : IsPlain "xmlns" := by decide

/-! ## 2. Names in two parts -/

/-- The first colon of a name ends its prefix. -/
theorem splitQualified_append {x : String} (hx : ∀ c ∈ x.toList, c ≠ ':') (l : String) :
    splitQualified (x ++ ":" ++ l) = (x, l) := by
  have hne : ∀ c ∈ x.toList, (c != ':') = true := fun c hc => bne_iff_ne.mpr (hx c hc)
  have ht : (x ++ ":" ++ l).toList = x.toList ++ ':' :: l.toList := by simp
  unfold splitQualified
  rw [List.span_eq_takeWhile_dropWhile, ht, List.takeWhile_append_of_pos hne,
    List.dropWhile_append_of_pos hne]
  simp

theorem splitQualified_of_no_colon {l : String} (hl : ∀ c ∈ l.toList, c ≠ ':') :
    splitQualified l = ("", l) := by
  have hne : ∀ c ∈ l.toList, (c != ':') = true := fun c hc => bne_iff_ne.mpr (hl c hc)
  unfold splitQualified
  rw [List.span_eq_takeWhile_dropWhile, List.takeWhile_eq_self_iff.mpr hne,
    List.dropWhile_eq_nil_iff.mpr hne]

namespace QName

/-- A name whose two parts are names without a colon; the first may be missing. -/
def Valid (q : QName) : Prop := (q.qualifier = "" ∨ IsPlain q.qualifier) ∧ IsPlain q.localName

instance (q : QName) : Decidable q.Valid := inferInstanceAs (Decidable (_ ∧ _))

/-- The two parts of a name as it is written. -/
def ofText (name : String) : QName := ⟨(splitQualified name).1, (splitQualified name).2⟩

theorem toList_text {q : QName} (h : q.Valid) :
    q.text.toList = q.localName.toList ∧ q.qualifier = "" ∨
      q.text.toList = q.qualifier.toList ++ ':' :: q.localName.toList ∧ IsPlain q.qualifier := by
  rcases h.1 with h1 | h1
  · exact Or.inl ⟨by simp [text, h1], h1⟩
  · refine Or.inr ⟨?_, h1⟩
    simp [text, h1.ne_empty]

theorem isNameChar_of_mem_text {q : QName} (h : q.Valid) {c : Char} (hc : c ∈ q.text.toList) :
    isNameChar c = true := by
  rcases toList_text h with ⟨ht, -⟩ | ⟨ht, hq⟩
  · rw [ht] at hc
    exact (h.2.2 c hc).1
  · rw [ht, List.mem_append, List.mem_cons] at hc
    rcases hc with hc | rfl | hc
    · exact (hq.2 c hc).1
    · decide
    · exact (h.2.2 c hc).1

theorem startsName_text {q : QName} (h : q.Valid) (rest : List Char) :
    startsName (q.text.toList ++ rest) = true := by
  have start {s : String} (hs : IsPlain s) (more : List Char) :
      startsName (s.toList ++ more) = true := by
    have h1 := hs.1
    cases hl : s.toList with
    | nil => rw [hl] at h1; simp [startsName] at h1
    | cons c cs => rw [hl] at h1; exact h1
  rcases toList_text h with ⟨ht, -⟩ | ⟨ht, hq⟩
  · rw [ht]
    exact start h.2 rest
  · rw [ht, List.append_assoc]
    exact start hq _

theorem ofText_prefixed {x : String} (hx : ∀ c ∈ x.toList, c ≠ ':') (l : String) :
    ofText (x ++ ":" ++ l) = ⟨x, l⟩ := by
  rw [ofText, splitQualified_append hx]

theorem ofText_local {l : String} (hl : ∀ c ∈ l.toList, c ≠ ':') : ofText l = ⟨"", l⟩ := by
  rw [ofText, splitQualified_of_no_colon hl]

theorem ofText_text {q : QName} (h : q.Valid) : ofText q.text = q := by
  rcases h.1 with hq | hq
  · have ht : q.text = q.localName := by simp [text, hq]
    rw [ht, ofText_local h.2.no_colon, ← hq]
  · have ht : q.text = q.qualifier ++ ":" ++ q.localName := by simp [text, hq.ne_empty]
    rw [ht, ofText_prefixed hq.no_colon]

end QName

/-! ## 3. Reading a name -/

/-- **A name is read back.**  What follows it must not be able to go on with it, or the reader would
take more. -/
theorem qname_text {q : QName} (hq : q.Valid) {c : Char} (hc : isNameChar c = false)
    (rest : List Char) : qname (q.text.toList ++ c :: rest) = .ok (q, c :: rest) := by
  have hall : ∀ d ∈ q.text.toList, isNameChar d = true := fun d hd =>
    QName.isNameChar_of_mem_text hq hd
  have plain {s : String} (hs : IsPlain s) : ∀ d ∈ s.toList, (d == ':') = false := fun d hd =>
    beq_eq_false_iff_ne.mpr (hs.2 d hd).2
  unfold qname
  rw [List.takeWhile_append_of_pos hall, List.dropWhile_append_of_pos hall,
    List.takeWhile_cons_of_neg (by simp [hc]), List.dropWhile_cons_of_neg (by simp [hc]),
    List.append_nil]
  dsimp only
  rcases QName.toList_text hq with ⟨ht, he⟩ | ⟨ht, hp⟩
  · rw [ht, List.splitOnP_eq_singleton (plain hq.2)]
    simp only [hq.2.1, if_true, String.ofList_toList]
    rw [← he]
  · rw [ht, List.splitOnP_append_cons_of_forall_mem (plain hp) ':' (by rfl),
      List.splitOnP_eq_singleton (plain hq.2)]
    simp [hq.2.1, hp.1]

/-- The pieces that a colon cuts a run into hold no colon and only what the run holds. -/
theorem mem_splitOnP {run piece : List Char} (h : piece ∈ run.splitOnP (· == ':')) :
    ∀ c ∈ piece, c ∈ run ∧ c ≠ ':' := by
  induction run generalizing piece with
  | nil => simp_all
  | cons d run ih =>
    rw [List.splitOnP_cons_eq_if_modifyHead] at h
    intro c hc
    split at h
    · rcases List.mem_cons.mp h with rfl | h
      · simp at hc
      · exact ⟨List.mem_cons_of_mem _ (ih h c hc).1, (ih h c hc).2⟩
    · rename_i hd
      cases hs : run.splitOnP (· == ':') with
      | nil => simp [hs] at h
      | cons first others =>
        rw [hs] at h ih
        simp only [List.modifyHead_cons, List.mem_cons] at h
        rcases h with rfl | h
        · rcases List.mem_cons.mp hc with rfl | hc
          · exact ⟨List.mem_cons_self, by simpa using hd⟩
          · have := ih (List.mem_cons_self) c hc
            exact ⟨List.mem_cons_of_mem _ this.1, this.2⟩
        · have := ih (List.mem_cons_of_mem _ h) c hc
          exact ⟨List.mem_cons_of_mem _ this.1, this.2⟩

/-- **The reader gives valid names only.**  The run that it takes is cut at its colons, and a name
in three parts is refused. -/
theorem valid_of_qname {cs r : List Char} {q : QName} (h : qname cs = .ok (q, r)) : q.Valid := by
  have plain {piece : List Char}
      (hp : piece ∈ (cs.takeWhile isNameChar).splitOnP (· == ':')) (hs : startsName piece = true) :
      IsPlain (String.ofList piece) := by
    refine ⟨by rwa [String.toList_ofList], fun c hc => ?_⟩
    rw [String.toList_ofList] at hc
    have := mem_splitOnP hp c hc
    exact ⟨List.mem_takeWhile_imp this.1, this.2⟩
  simp only [qname] at h
  split at h
  · rename_i l hl
    split at h <;> simp only [reduceCtorEq, Except.ok.injEq, Prod.mk.injEq] at h
    rename_i hs
    rw [← h.1]
    exact ⟨Or.inl rfl, plain (by simp [hl]) hs⟩
  · rename_i p l hl
    split at h <;> simp only [reduceCtorEq, Except.ok.injEq, Prod.mk.injEq] at h
    rename_i hs
    rw [Bool.and_eq_true, Bool.or_eq_true] at hs
    rw [← h.1]
    refine ⟨?_, plain (by simp [hl]) hs.2⟩
    rcases hs.1 with hp | hp
    · exact Or.inl (by simp [List.isEmpty_iff.mp hp])
    · exact Or.inr (plain (by simp [hl]) hp)
  · simp at h

end LivingDoc.Xml
