import LivingDoc.Xml.Scan

/-!
# Tokens

The tags, texts, sections and asides that an element is written with.  Whether the tags match is not
looked at here: tokens alone decide where an element ends, by the number of tags that are open.
References are left as they stand, because what they mean depends on the document's entities.

A token that can turn out to be wrong later carries the number of characters left at its place.  The
tokens before a fault are given as well: what is wrong with them comes first, as in a library that
builds its tree while it reads.
-/

namespace LivingDoc.Xml

/-- A piece of the text of an element. -/
inductive Token where
  /-- The name of a start tag; `left` counts from behind the `<`. -/
  | start (name : QName) (left : Nat)
  /-- An attribute of the start tag. -/
  | property (a : WrittenAttribute)
  /-- The end of a start tag. -/
  | opened
  /-- The end of a start tag that is an end tag as well. -/
  | emptied
  /-- An end tag. -/
  | closed (name : QName) (left : Nat)
  /-- Text with references. -/
  | text (run : List Char) (left : Nat)
  /-- A section of text without references. -/
  | verbatim (run : List Char)
  /-- A comment or a processing instruction. -/
  | aside
deriving DecidableEq, Repr

namespace Token

/-- After this token a start tag goes on. -/
def staysInTag : Token → Bool
  | .start .. | .property _ => true
  | _ => false

/-- The number of open elements after the token. -/
def depthAfter (depth : Nat) : Token → Nat
  | .opened => depth + 1
  | .closed .. => depth - 1
  | _ => depth

def isStart : Token → Bool
  | .start .. => true
  | _ => false

end Token

/-! ## 1. One token -/

/-- The next piece of a start tag: its end, or an attribute with space in front of it. -/
def tagToken (cs : List Char) : Except Fault (Token × List Char) :=
  match skipSpaces cs with
  | [] => .error ⟨.endOfText, 0⟩
  | '/' :: r => do
    let r ← char '>' r
    return (.emptied, r)
  | '>' :: r => .ok (.opened, r)
  | c :: r =>
    if cs.head?.any isSpace then do
      let (a, s) ← tagAttribute (c :: r)
      return (.property a, s)
    else .error ⟨.wrongKind "a whitespace" c, r.length + 1⟩

/-- A start tag up to the end of its name, behind the `<`. -/
def startToken (cs : List Char) : Except Fault (Token × List Char) := do
  let (n, r) ← qname cs
  return (.start n cs.length, r)

/-- The next piece of the content of an element, by its first characters.  Text must not hold the
end of a section, `]]>`. -/
def contentToken (cs : List Char) : Except Fault (Token × List Char) :=
  match cs with
  | '<' :: '/' :: r => do
    let (n, s) ← qname r
    let s ← char '>' (skipSpaces s)
    return (.closed n cs.length, s)
  | '<' :: '!' :: r =>
    if startsWith "--" r then do
      let s ← comment cs
      return (.aside, s)
    else if startsWith "[CDATA[" r then do
      let (run, s) ← upTo (startsWith "]]>") (r.drop 7)
      let s ← exactly "]]>" s
      return (.verbatim run, s)
    else .error ⟨.unknownToken, cs.length⟩
  | '<' :: '?' :: _ => do
    let s ← instruction cs
    return (.aside, s)
  | ['<'] => .error ⟨.unknownToken, 1⟩
  | '<' :: r => startToken r
  | _ => do
    let (run, s) ← upTo (fun cs => cs.head? == some '<') cs
    if occursIn "]]>" run then .error ⟨.sectionEndInText, s.length⟩
    else return (.text run cs.length, s)

/-! ## 2. Every token takes something away -/

theorem tagToken_length_lt {cs r : List Char} {t : Token} (h : tagToken cs = .ok (t, r)) :
    r.length < cs.length := by
  have hs := skipSpaces_length_le cs
  simp only [tagToken] at h
  split at h
  · simp at h
  · rename_i r1 heq
    simp only [bind_eq_ok] at h
    obtain ⟨r2, h1, h2⟩ := h
    have := char_length_lt h1
    simp only [pure, Except.pure, Except.ok.injEq, Prod.mk.injEq] at h2
    rw [heq] at hs
    rw [← h2.2]
    simp only [List.length_cons] at hs
    omega
  · rename_i r1 heq
    simp only [Except.ok.injEq, Prod.mk.injEq] at h
    rw [heq] at hs
    rw [← h.2]
    simp at hs
    omega
  · rename_i c r1 _ _ heq
    split at h
    · simp only [bind_eq_ok] at h
      obtain ⟨⟨a, s⟩, h1, h2⟩ := h
      have := tagAttribute_length_lt h1
      simp only [pure, Except.pure, Except.ok.injEq, Prod.mk.injEq] at h2
      rw [heq] at hs
      rw [← h2.2]
      exact Nat.lt_of_lt_of_le this hs
    · simp at h

theorem startToken_length_le {cs r : List Char} {t : Token} (h : startToken cs = .ok (t, r)) :
    r.length ≤ cs.length := by
  simp only [startToken, bind_eq_ok] at h
  obtain ⟨⟨n, s⟩, h1, h2⟩ := h
  have := qname_length_le h1
  simp only [pure, Except.pure, Except.ok.injEq, Prod.mk.injEq] at h2
  rw [← h2.2]
  exact this

theorem upTo_less_length_lt {c : Char} {cs run rest : List Char} (hc : c ≠ '<')
    (h : upTo (fun cs => cs.head? == some '<') (c :: cs) = .ok (run, rest)) :
    rest.length < (c :: cs).length := by
  have happ := upTo_append h
  cases run with
  | nil =>
    simp only [upTo] at h
    split at h
    · simp at h
    · simp only [List.head?_cons, beq_iff_eq, Option.some.injEq, hc] at h
      split at h
      · contradiction
      · split at h <;> simp at h
  | cons d run =>
    rw [happ]
    simp only [List.cons_append, List.length_cons, List.length_append]
    omega

theorem contentToken_length_lt {cs r : List Char} {t : Token} (hne : cs ≠ [])
    (h : contentToken cs = .ok (t, r)) : r.length < cs.length := by
  unfold contentToken at h
  split at h
  · simp only [bind_eq_ok] at h
    obtain ⟨⟨n, s⟩, h1, s2, h2, h3⟩ := h
    have := qname_length_le h1
    have := char_length_lt h2
    have := skipSpaces_length_le s
    simp only [pure, Except.pure, Except.ok.injEq, Prod.mk.injEq] at h3
    rw [← h3.2]
    simp only [List.length_cons] at *
    omega
  · split at h
    · simp only [bind_eq_ok] at h
      obtain ⟨s, h1, h2⟩ := h
      have := comment_length_lt h1
      simp only [pure, Except.pure, Except.ok.injEq, Prod.mk.injEq] at h2
      rw [← h2.2]
      exact this
    · split at h
      · simp only [bind_eq_ok] at h
        obtain ⟨⟨run, s⟩, h1, s2, h2, h3⟩ := h
        have := upTo_length_le h1
        have := exactly_length h2
        simp only [pure, Except.pure, Except.ok.injEq, Prod.mk.injEq] at h3
        rw [← h3.2]
        simp only [List.length_drop, List.length_cons] at *
        omega
      · simp at h
  · simp only [bind_eq_ok] at h
    obtain ⟨s, h1, h2⟩ := h
    have := instruction_length_lt h1
    simp only [pure, Except.pure, Except.ok.injEq, Prod.mk.injEq] at h2
    rw [← h2.2]
    exact this
  · simp at h
  · have := startToken_length_le h
    simp only [List.length_cons]
    omega
  · rename_i h1 h2 h3 h4 h5
    cases cs with
    | nil => exact absurd rfl hne
    | cons c cs =>
      have hc : c ≠ '<' := by
        rintro rfl
        exact h5 cs rfl
      simp only [bind_eq_ok] at h
      obtain ⟨⟨run, s⟩, hu, h7⟩ := h
      have := upTo_less_length_lt hc hu
      split at h7
      · simp at h7
      · simp only [pure, Except.pure, Except.ok.injEq, Prod.mk.injEq] at h7
        rw [← h7.2]
        exact this

/-- The next token, in a start tag or in content. -/
def nextToken (inTag : Bool) (cs : List Char) : Except Fault (Token × List Char) :=
  if inTag then tagToken cs else contentToken cs

theorem nextToken_length_lt {inTag : Bool} {cs r : List Char} {t : Token} (hne : cs ≠ [])
    (h : nextToken inTag cs = .ok (t, r)) : r.length < cs.length := by
  unfold nextToken at h
  split at h
  · exact tagToken_length_lt h
  · exact contentToken_length_lt hne h

/-! ## 3. All tokens of an element -/

/-- The tokens up to the end of the outermost open element, or of the text, and either the text that
is left or the fault that stops them.  `depth` elements are open. -/
def tokens (inTag : Bool) (depth : Nat) (cs : List Char) :
    List Token × Except Fault (List Char) :=
  if hne : cs = [] then ([], .ok [])
  else if !inTag && depth == 0 then ([], .ok cs)
  else
    match h : nextToken inTag cs with
    | .error f => ([], .error f)
    | .ok (t, rest) =>
      have := nextToken_length_lt hne h
      let more := tokens t.staysInTag (t.depthAfter depth) rest
      (t :: more.1, more.2)
termination_by cs.length

theorem tokens_of_nextToken {inTag : Bool} {depth : Nat} {cs rest : List Char} {t : Token}
    (hne : cs ≠ []) (hopen : inTag = true ∨ depth ≠ 0)
    (h : nextToken inTag cs = .ok (t, rest)) :
    tokens inTag depth cs =
      (t :: (tokens t.staysInTag (t.depthAfter depth) rest).1,
        (tokens t.staysInTag (t.depthAfter depth) rest).2) := by
  rw [tokens]
  rw [dif_neg hne, if_neg (by rcases hopen with h | h <;> simp [h])]
  split <;> simp_all

/-- The tokens of an element, from behind its `<`. -/
def elementTokens (cs : List Char) : List Token × Except Fault (List Char) :=
  match startToken cs with
  | .error f => ([], .error f)
  | .ok (t, rest) =>
    let more := tokens true 0 rest
    (t :: more.1, more.2)

end LivingDoc.Xml
