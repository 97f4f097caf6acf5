import LivingDoc.Proofs.Markup.Escapes
import LivingDoc.Proofs.Markup.Names

/-!
# Reading written markup token by token

The reader splits a text into tokens and takes them into a tree, and reports the first of two
faults.  When only success matters the two passes are one: a token is read, taken in, and the
reading goes on behind it (`Xml.readOn`).  Here are the tokens that written markup is read as.

* `Xml.readOn_of_nextToken`, `Xml.readOn_of_fault`: one step of the reading.
* `Xml.tagToken_written`, `Xml.contentToken_start`, `Xml.contentToken_closed`,
  `Xml.contentToken_text`: what is written is read as one token.
* `Xml.fault_of_value`, `Xml.fault_of_text`: unless it holds a character that no document may hold.
-/

namespace LivingDoc.Xml

/-! ## 1. One pass for tokens and tree -/

/-- Take in the tokens of the text and give the tree with the text that is left, if nothing is wrong
with either.  Which of two faults is reported does not show in it. -/
def readOn (s : Setting) (inTag : Bool) (depth : Nat) (cs : List Char) (started : Bool)
    (p : Partial) : Option (Partial × List Char) :=
  (Partial.takeAll s (tokens inTag depth cs).1 started p).toOption.bind fun q =>
    (tokens inTag depth cs).2.toOption.map (q, ·)

theorem readOn_outside (s : Setting) (cs : List Char) (started : Bool) (p : Partial) :
    readOn s false 0 cs started p = some (p, cs) := by
  have ht : tokens false 0 cs = ([], .ok cs) := by
    rw [tokens]
    split
    · rename_i h
      rw [h]
    · rfl
  rw [readOn, ht]
  rfl

section

variable {s : Setting} {depth : Nat} {cs rest : List Char} {t : Token} {f : Fault}

/-- **One step of the reading**: the token is taken in, and the reading goes on behind it. -/
theorem readOn_of_nextToken {inTag : Bool} (hne : cs ≠ []) (hopen : inTag = true ∨ depth ≠ 0)
    (h : nextToken inTag cs = .ok (t, rest)) (started : Bool) (p : Partial) :
    readOn s inTag depth cs started p =
      (p.take s started t).toOption.bind
        (readOn s t.staysInTag (t.depthAfter depth) rest (started || t.isStart)) := by
  rw [readOn, tokens_of_nextToken hne hopen h]
  dsimp only
  rw [Partial.takeAll]
  cases p.take s started t with
  | error f => rfl
  | ok q => rfl

/-- Where no token can be read the reading fails. -/
theorem readOn_of_fault {inTag : Bool} (hne : cs ≠ []) (hopen : inTag = true ∨ depth ≠ 0)
    (h : nextToken inTag cs = .error f) (started : Bool) (p : Partial) :
    readOn s inTag depth cs started p = none := by
  have ht : tokens inTag depth cs = ([], .error f) := by
    rw [tokens, dif_neg hne, if_neg (by rcases hopen with h | h <;> simp [h])]
    split <;> simp_all
  rw [readOn, ht]
  simp [Except.toOption]

theorem readOn_of_tagToken (hne : cs ≠ []) (h : tagToken cs = .ok (t, rest)) (started : Bool)
    (p : Partial) :
    readOn s true depth cs started p =
      (p.take s started t).toOption.bind
        (readOn s t.staysInTag (t.depthAfter depth) rest (started || t.isStart)) :=
  readOn_of_nextToken hne (Or.inl rfl) (by rw [nextToken, if_pos rfl, h]) started p

theorem readOn_of_contentToken (hne : cs ≠ []) (h : contentToken cs = .ok (t, rest))
    (started : Bool) (p : Partial) :
    readOn s false (depth + 1) cs started p =
      (p.take s started t).toOption.bind
        (readOn s t.staysInTag (t.depthAfter (depth + 1)) rest (started || t.isStart)) :=
  readOn_of_nextToken hne (Or.inr (Nat.succ_ne_zero depth))
    (by rw [nextToken, if_neg Bool.false_ne_true, h]) started p

end

/-! ## 2. Runs -/

section

variable {stop : List Char → Bool} {run : List Char} {c : Char} {rest : List Char}

/-- A run of allowed characters is read up to the character that stops it.  By induction on the run,
in which nothing stops. -/
theorem upTo_run (hrun : ∀ d ∈ run, ∀ more, stop (d :: more) = false)
    (hc : isAllowed c = true) (hstop : stop (c :: rest) = true)
    (hall : ∀ d ∈ run, isAllowed d = true) : upTo stop (run ++ c :: rest) = .ok (run, c :: rest) := by
  induction run with
  | nil => simp [upTo, hc, hstop]
  | cons d run ih =>
    have ih := ih (fun e he => hrun e (List.mem_cons_of_mem _ he))
      (fun e he => hall e (List.mem_cons_of_mem _ he))
    simp [upTo, hall d List.mem_cons_self, hrun d List.mem_cons_self, ih]

/-- A run with another character in it is not read. -/
theorem upTo_forbidden (hrun : ∀ d ∈ run, ∀ more, stop (d :: more) = false)
    (hbad : ¬ ∀ d ∈ run, isAllowed d = true) : ∃ f, upTo stop (run ++ c :: rest) = .error f := by
  induction run with
  | nil => simp at hbad
  | cons d run ih =>
    cases hd : isAllowed d with
    | false => exact ⟨_, by simp only [List.cons_append, upTo, hd]; rfl⟩
    | true =>
      obtain ⟨f, hf⟩ := ih (fun e he => hrun e (List.mem_cons_of_mem _ he)) (by
        intro hall
        refine hbad fun e he => ?_
        rcases List.mem_cons.mp he with rfl | he
        · exact hd
        · exact hall e he)
      exact ⟨f, by simp [upTo, hd, hrun d List.mem_cons_self, hf]⟩

end

/-- A way of writing characters that keeps each of them allowed or forbidden keeps all of them. -/
theorem allowed_flatMap {f : Char → List Char} (h : ∀ c, (f c).all isAllowed = isAllowed c)
    (s : List Char) :
    (∀ c ∈ s.flatMap f, isAllowed c = true) ↔ ∀ c ∈ s, isAllowed c = true := by
  rw [← List.all_eq_true, ← List.all_eq_true, List.all_flatMap]
  simp only [h]

theorem all_escapeInText (c : Char) : (escapeInText c).all isAllowed = isAllowed c := by
  cases h : isEscaped c with
  | true => rcases isEscaped_iff.mp h with rfl | rfl | rfl <;> rfl
  | false => simp [escapeInText_of_not_isEscaped h]

theorem allowed_escapeInText (s : List Char) :
    (∀ c ∈ s.flatMap escapeInText, isAllowed c = true) ↔ ∀ c ∈ s, isAllowed c = true :=
  allowed_flatMap all_escapeInText s

theorem allowed_escapeInValue (v : List Char) :
    (∀ c ∈ v.flatMap escapeInValue, isAllowed c = true) ↔ ∀ c ∈ v, isAllowed c = true := by
  refine allowed_flatMap (fun c => ?_) v
  by_cases h : c = '"'
  · subst h
    rfl
  · rw [escapeInValue_of_ne h]
    exact all_escapeInText c

/-- An escaped value goes on up to the quote behind it: neither a quote nor an angle bracket stands
in it. -/
theorem goesOn_escapedValue {v : List Char} :
    ∀ d ∈ v.flatMap escapeInValue, ∀ more : List Char,
      ((d :: more).head? == some '"' || (d :: more).head? == some '<') = false := by
  intro d hd more
  have no (c : Char) (hc : c = '"' ∨ c = '<') : d ≠ c := by
    rintro rfl
    obtain ⟨e, -, he⟩ := List.mem_flatMap.mp hd
    by_cases hq : e = '"'
    · subst hq
      rcases hc with rfl | rfl <;> exact absurd he (by decide)
    · rw [escapeInValue_of_ne hq] at he
      cases hs : isEscaped e with
      | true =>
        rcases isEscaped_iff.mp hs with rfl | rfl | rfl <;> rcases hc with rfl | rfl <;>
          exact absurd he (by decide)
      | false =>
        rw [escapeInText_of_not_isEscaped hs, List.mem_singleton] at he
        rcases hc with rfl | rfl
        · exact hq he.symm
        · exact absurd (he ▸ hs) (by decide)
  simp [no '"' (Or.inl rfl), no '<' (Or.inr rfl)]

theorem upTo_value {v : List Char} (hv : ∀ c ∈ v, isAllowed c = true) (rest : List Char) :
    upTo (fun cs => cs.head? == some '"' || cs.head? == some '<')
      (v.flatMap escapeInValue ++ '"' :: rest) = .ok (v.flatMap escapeInValue, '"' :: rest) :=
  upTo_run goesOn_escapedValue (by decide) (by simp) ((allowed_escapeInValue v).mpr hv)

theorem upTo_value_forbidden {v : List Char} (hv : ¬ ∀ c ∈ v, isAllowed c = true)
    (rest : List Char) :
    ∃ f, upTo (fun cs => cs.head? == some '"' || cs.head? == some '<')
      (v.flatMap escapeInValue ++ '"' :: rest) = .error f :=
  upTo_forbidden goesOn_escapedValue (mt (allowed_escapeInValue v).mp hv)

theorem goesOn_escapedText {s : List Char} :
    ∀ d ∈ s.flatMap escapeInText, ∀ more : List Char, ((d :: more).head? == some '<') = false := by
  intro d hd more
  have h : d ≠ '<' := fun h => not_mem_escaped hd (Or.inl h)
  simp [h]

theorem upTo_text {s : List Char} (hs : ∀ c ∈ s, isAllowed c = true) (rest : List Char) :
    upTo (fun cs => cs.head? == some '<') (s.flatMap escapeInText ++ '<' :: rest) =
      .ok (s.flatMap escapeInText, '<' :: rest) :=
  upTo_run goesOn_escapedText (by decide) (by simp) ((allowed_escapeInText s).mpr hs)

theorem upTo_text_forbidden {s : List Char} (hs : ¬ ∀ c ∈ s, isAllowed c = true)
    (rest : List Char) :
    ∃ f, upTo (fun cs => cs.head? == some '<') (s.flatMap escapeInText ++ '<' :: rest) =
      .error f :=
  upTo_forbidden goesOn_escapedText (mt (allowed_escapeInText s).mp hs)

/-- No escaped text ends a section: it would need an angle bracket for that. -/
theorem not_occursIn_escaped (t : List Char) : occursIn "]]>" (t.flatMap escapeInText) = false := by
  have key : ∀ cs : List Char, '>' ∉ cs → occursIn "]]>" cs = false := by
    intro cs
    induction cs with
    | nil => intro _; rfl
    | cons c cs ih =>
      intro h
      have hp : startsWith "]]>" (c :: cs) = false := by
        rw [Bool.eq_false_iff]
        intro hp
        have := (List.isPrefixOf_iff_prefix.mp hp).subset (show '>' ∈ "]]>".toList by decide)
        exact h this
      rw [occursIn, hp, ih fun hc => h (List.mem_cons_of_mem _ hc)]
      rfl
  exact key _ fun h => not_mem_escaped h (Or.inr rfl)

/-! ## 3. Tags -/

theorem isSpace_of_isNameStart {c : Char} (h : isNameStart c = true) : isSpace c = false := by
  cases hs : isSpace c with
  | false => rfl
  | true =>
    simp only [isSpace, Bool.or_eq_true, beq_iff_eq, or_assoc] at hs
    rcases hs with rfl | rfl | rfl | rfl <;> exact absurd h (by decide)

theorem cons_ne_of_isNameStart {c d : Char} (h : isNameStart c = true) (hd : isNameStart d = false)
    {cs ds : List Char} : c :: cs ≠ d :: ds := by
  intro hcs
  rw [(List.cons.inj hcs).1, hd] at h
  exact absurd h Bool.false_ne_true

theorem text_eq_cons {q : QName} (h : q.Valid) :
    ∃ c cs, q.text.toList = c :: cs ∧ isNameStart c = true := by
  have hs := QName.startsName_text h []
  rw [List.append_nil] at hs
  cases hl : q.text.toList with
  | nil => rw [hl] at hs; simp [startsName] at hs
  | cons c cs => rw [hl] at hs; exact ⟨c, cs, rfl, hs⟩

section

variable {q : QName} (hq : q.Valid) (v rest : List Char)

include hq

theorem tagAttribute_text :
    tagAttribute (q.text.toList ++ '=' :: '"' :: rest) = (do
      let (v, s) ← upTo (fun cs => cs.head? == some '"' || cs.head? == some '<') rest
      let s ← char '"' s
      return (⟨q, v, (q.text.toList ++ '=' :: '"' :: rest).length, rest.length⟩, s)) := by
  unfold tagAttribute
  rw [qname_text hq (by decide)]
  rfl

theorem skipSpaces_text : skipSpaces (' ' :: (q.text.toList ++ rest)) = q.text.toList ++ rest := by
  obtain ⟨c, cs, hc, hs⟩ := text_eq_cons hq
  rw [hc, skipSpaces, List.dropWhile_cons_of_pos (by rfl), List.cons_append,
    List.dropWhile_cons_of_neg (by rw [isSpace_of_isNameStart hs]; exact Bool.false_ne_true)]

/-- A name behind a space in a tag is that of an attribute. -/
theorem tagToken_text :
    tagToken (' ' :: (q.text.toList ++ rest)) = (do
      let (a, s) ← tagAttribute (q.text.toList ++ rest)
      return (.property a, s)) := by
  have hskip := skipSpaces_text hq rest
  unfold tagToken
  rw [hskip]
  obtain ⟨c, cs, hc, hs⟩ := text_eq_cons hq
  rw [hc, List.cons_append]
  split
  · contradiction
  · rename_i h
    exact absurd h (cons_ne_of_isNameStart hs rfl)
  · rename_i h
    exact absurd h (cons_ne_of_isNameStart hs rfl)
  · rename_i h
    rw [h]
    rfl

/-- **An attribute is read as it was written.** -/
theorem tagToken_written (hv : ∀ c ∈ v, isAllowed c = true) :
    ∃ left valueLeft, tagToken
        (' ' :: (q.text.toList ++ '=' :: '"' :: (v.flatMap escapeInValue ++ '"' :: rest))) =
      .ok (.property ⟨q, v.flatMap escapeInValue, left, valueLeft⟩, rest) := by
  rw [tagToken_text hq, tagAttribute_text hq, upTo_value hv]
  exact ⟨_, _, rfl⟩

/-- **No attribute is read with a forbidden character in its value.** -/
theorem fault_of_value (hv : ¬ ∀ c ∈ v, isAllowed c = true) :
    ∃ f, tagToken
        (' ' :: (q.text.toList ++ '=' :: '"' :: (v.flatMap escapeInValue ++ '"' :: rest))) =
      .error f := by
  obtain ⟨f, hf⟩ := upTo_value_forbidden hv rest
  rw [tagToken_text hq, tagAttribute_text hq, hf]
  exact ⟨f, rfl⟩

end

/-! ## 4. Content -/

theorem contentToken_slash (r : List Char) : contentToken ('<' :: '/' :: r) = (do
    let (n, s) ← qname r
    let s ← char '>' (skipSpaces s)
    return (.closed n ('<' :: '/' :: r).length, s)) := rfl

section

variable {q : QName} (hq : q.Valid) (rest : List Char)

include hq

/-- **A start tag is read up to the end of its name.** -/
theorem contentToken_start {c : Char} (hc : isNameChar c = false) :
    ∃ left, contentToken ('<' :: (q.text.toList ++ c :: rest)) = .ok (.start q left, c :: rest) := by
  have hstart : ∃ left, startToken (q.text.toList ++ c :: rest) = .ok (.start q left, c :: rest) := by
    unfold startToken
    rw [qname_text hq hc]
    exact ⟨_, rfl⟩
  obtain ⟨d, ds, hd, hs⟩ := text_eq_cons hq
  rw [hd, List.cons_append] at hstart ⊢
  unfold contentToken
  split
  · rename_i h
    exact absurd (List.cons.inj h).2 (cons_ne_of_isNameStart hs rfl)
  · rename_i h
    exact absurd (List.cons.inj h).2 (cons_ne_of_isNameStart hs rfl)
  · rename_i h
    exact absurd (List.cons.inj h).2 (cons_ne_of_isNameStart hs rfl)
  · rename_i h
    simp at h
  · rename_i h
    rw [List.cons.injEq] at h
    rw [← h.2]
    exact hstart
  · rename_i h
    exact absurd rfl (h _)

/-- **An end tag is one token.** -/
theorem contentToken_closed :
    ∃ left, contentToken ('<' :: '/' :: (q.text.toList ++ '>' :: rest)) =
      .ok (.closed q left, rest) := by
  rw [contentToken_slash, qname_text hq (by decide)]
  exact ⟨_, rfl⟩

end

section

variable {s : List Char} (hne : s ≠ []) (rest : List Char)

include hne

/-- The reading of a text that something is in comes down to that of its run. -/
theorem contentToken_escaped :
    contentToken (s.flatMap escapeInText ++ '<' :: rest) = (do
      let (run, r) ← upTo (fun cs => cs.head? == some '<') (s.flatMap escapeInText ++ '<' :: rest)
      if occursIn "]]>" run then .error ⟨.sectionEndInText, r.length⟩
      else return (.text run (s.flatMap escapeInText ++ '<' :: rest).length, r)) := by
  have hhead : (s.flatMap escapeInText ++ '<' :: rest).head? ≠ some '<' := by
    cases s with
    | nil => exact absurd rfl hne
    | cons c more =>
      rw [List.flatMap_cons, List.append_assoc]
      cases h : isEscaped c with
      | true => rcases isEscaped_iff.mp h with rfl | rfl | rfl <;> simp [escapeInText]
      | false =>
        rw [escapeInText_of_not_isEscaped h]
        intro hc
        rw [List.cons_append, List.head?_cons, Option.some.injEq] at hc
        rw [hc] at h
        exact absurd h (by decide)
  unfold contentToken
  split
  · rename_i h
    exact absurd (h ▸ rfl) hhead
  · rename_i h
    exact absurd (h ▸ rfl) hhead
  · rename_i h
    exact absurd (h ▸ rfl) hhead
  · rename_i h
    exact absurd (h ▸ rfl) hhead
  · rename_i h
    exact absurd (h ▸ rfl) hhead
  · rfl

/-- **A text is one token**, up to the tag behind it, whatever line ends and escapes it has. -/
theorem contentToken_text (hs : ∀ c ∈ s, isAllowed c = true) :
    ∃ left, contentToken (s.flatMap escapeInText ++ '<' :: rest) =
      .ok (.text (s.flatMap escapeInText) left, '<' :: rest) := by
  rw [contentToken_escaped hne, upTo_text hs]
  refine ⟨(s.flatMap escapeInText ++ '<' :: rest).length, ?_⟩
  simp only [bind, Except.bind, not_occursIn_escaped]
  rfl

/-- **No text is read with a forbidden character in it.** -/
theorem fault_of_text (hs : ¬ ∀ c ∈ s, isAllowed c = true) :
    ∃ f, contentToken (s.flatMap escapeInText ++ '<' :: rest) = .error f := by
  obtain ⟨f, hf⟩ := upTo_text_forbidden hs rest
  rw [contentToken_escaped hne, hf]
  exact ⟨f, rfl⟩

end

end LivingDoc.Xml
