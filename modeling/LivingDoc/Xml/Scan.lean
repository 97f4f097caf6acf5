import LivingDoc.Xml.Fault

/-!
# Scanning

The scanners that the grammar of XML is made of.  A scanner takes the text that is left and gives
what it read with the text that is left then, or the fault it met.  None gives back more text than
it was given (the lemmas named `_length_le`), and those that read at least a character give back
less (`_length_lt`); the loops above them end for that reason.
-/

namespace LivingDoc.Xml

/-- A step and its continuation succeed exactly when each does.  With it a scanner of several steps
is taken apart without being unfolded. -/
theorem bind_eq_ok {ε α β : Type} {x : Except ε α} {f : α → Except ε β} {b : β} :
    (x >>= f) = .ok b ↔ ∃ a, x = .ok a ∧ f a = .ok b := by
  cases x <;> simp [bind, Except.bind]

/-! ## 1. Single characters, spaces and fixed texts -/

def skipSpaces (cs : List Char) : List Char := cs.dropWhile isSpace

theorem skipSpaces_length_le (cs : List Char) : (skipSpaces cs).length ≤ cs.length :=
  (List.dropWhile_sublist _).length_le

/-- At least one space. -/
def spaces : List Char → Except Fault (List Char)
  | [] => .error ⟨.endOfText, 0⟩
  | c :: cs =>
    if isSpace c then .ok (skipSpaces cs)
    else .error ⟨.wrongKind "a whitespace" c, cs.length + 1⟩

theorem spaces_length_lt {cs r : List Char} (h : spaces cs = .ok r) : r.length < cs.length := by
  cases cs with
  | nil => simp [spaces] at h
  | cons c cs =>
    have := skipSpaces_length_le cs
    simp only [spaces] at h
    split at h <;> simp at h
    subst h
    simp
    omega

/-- Exactly this character. -/
def char (wanted : Char) : List Char → Except Fault (List Char)
  | [] => .error ⟨.endOfText, 0⟩
  | c :: cs => if c = wanted then .ok cs else .error ⟨.wrongCharacter wanted c, cs.length + 1⟩

theorem char_length_lt {w : Char} {cs r : List Char} (h : char w cs = .ok r) :
    r.length < cs.length := by
  cases cs with
  | nil => simp [char] at h
  | cons c cs =>
    simp only [char] at h
    split at h <;> simp at h
    simp [h]

def startsWith (s : String) (cs : List Char) : Bool := s.toList.isPrefixOf cs

/-- Exactly this text. -/
def exactly (s : String) (cs : List Char) : Except Fault (List Char) :=
  if startsWith s cs then .ok (cs.drop s.length) else .error ⟨.missingText s, cs.length⟩

theorem exactly_length {s : String} {cs r : List Char} (h : exactly s cs = .ok r) :
    r.length + s.length = cs.length := by
  simp only [exactly] at h
  split at h
  · rename_i hp
    have := (List.isPrefixOf_iff_prefix.1 hp).length_le
    simp only [Except.ok.injEq] at h
    subst h
    simp only [String.length_toList, List.length_drop] at *
    omega
  · simp at h

/-- A single or a double quote. -/
def quote : List Char → Except Fault (Char × List Char)
  | [] => .error ⟨.endOfText, 0⟩
  | c :: cs =>
    if c = '"' ∨ c = '\'' then .ok (c, cs) else .error ⟨.wrongKind "a quote" c, cs.length + 1⟩

theorem quote_length_lt {cs r : List Char} {q : Char} (h : quote cs = .ok (q, r)) :
    r.length < cs.length := by
  cases cs with
  | nil => simp [quote] at h
  | cons c cs =>
    simp only [quote] at h
    split at h <;> simp at h
    simp [h.2]

/-! ## 2. Runs of characters -/

/-- The allowed characters up to the first place where `stop` holds of the text that is left.  A
character that no document may hold is a fault wherever it stands, before `stop` is asked. -/
def upTo (stop : List Char → Bool) : List Char → Except Fault (List Char × List Char)
  | [] => .ok ([], [])
  | c :: cs =>
    if !isAllowed c then .error ⟨.forbiddenCharacter c, cs.length + 1⟩
    else if stop (c :: cs) then .ok ([], c :: cs)
    else
      match upTo stop cs with
      | .ok (run, rest) => .ok (c :: run, rest)
      | .error f => .error f

/-- Nothing is lost and nothing is added. -/
theorem upTo_append {stop : List Char → Bool} {cs run rest : List Char}
    (h : upTo stop cs = .ok (run, rest)) : cs = run ++ rest := by
  induction cs generalizing run with
  | nil => simp_all [upTo]
  | cons c cs ih =>
    simp only [upTo] at h
    split at h
    · simp at h
    · split at h
      · simp at h
        simp [h.1, ← h.2]
      · split at h
        · rename_i r s hrec
          simp only [Except.ok.injEq, Prod.mk.injEq] at h
          rw [@ih r (by rw [hrec, h.2]), ← h.1]
          rfl
        · simp at h

theorem upTo_length_le {stop : List Char → Bool} {cs run rest : List Char}
    (h : upTo stop cs = .ok (run, rest)) : rest.length ≤ cs.length := by
  rw [upTo_append h]
  simp

/-- The fixed text stands somewhere in the characters. -/
def occursIn (s : String) : List Char → Bool
  | [] => s.isEmpty
  | c :: cs => startsWith s (c :: cs) || occursIn s cs

/-! ## 3. Names -/

def name : List Char → Except Fault (String × List Char)
  | [] => .error ⟨.invalidName, 0⟩
  | c :: cs =>
    if isNameStart c then
      .ok (String.ofList (c :: cs.takeWhile isNameChar), cs.dropWhile isNameChar)
    else .error ⟨.invalidName, cs.length + 1⟩

theorem name_length_lt {cs r : List Char} {n : String} (h : name cs = .ok (n, r)) :
    r.length < cs.length := by
  cases cs with
  | nil => simp [name] at h
  | cons c cs =>
    have := (List.dropWhile_sublist (l := cs) isNameChar).length_le
    simp only [name] at h
    split at h <;> simp at h
    rw [← h.2]
    simp
    omega

/-- A name that nothing is said about, or the end of the text. -/
def skipName (cs : List Char) : Except Fault (List Char) :=
  if cs.isEmpty then .ok []
  else
    match name cs with
    | .ok (_, r) => .ok r
    | .error f => .error f

theorem skipName_length_le {cs r : List Char} (h : skipName cs = .ok r) :
    r.length ≤ cs.length := by
  simp only [skipName] at h
  split at h
  · simp only [Except.ok.injEq] at h
    simp [← h]
  · split at h
    · rename_i n s hn
      have := name_length_lt hn
      simp only [Except.ok.injEq] at h
      subst h
      omega
    · simp at h

/-- A name in two parts; a name without a colon has the empty qualifier. -/
structure QName where
  qualifier : String
  localName : String
deriving DecidableEq, Repr

/-- The name as it is written. -/
def QName.text (q : QName) : String :=
  if q.qualifier.isEmpty then q.localName else q.qualifier ++ ":" ++ q.localName

/-- The characters begin with one that may start a name. -/
def startsName : List Char → Bool
  | [] => false
  | c :: _ => isNameStart c

/-- A qualified name, by namespaces in XML: name characters with at most one colon, both parts of
which start as names do.  The part before the colon may be empty here, which the rule forbids and
the library lets pass. -/
def qname (cs : List Char) : Except Fault (QName × List Char) :=
  let run := cs.takeWhile isNameChar
  let rest := cs.dropWhile isNameChar
  match run.splitOnP (· == ':') with
  | [l] =>
    if startsName l then .ok (⟨"", String.ofList l⟩, rest) else .error ⟨.invalidName, cs.length⟩
  | [q, l] =>
    if (q.isEmpty || startsName q) && startsName l then
      .ok (⟨String.ofList q, String.ofList l⟩, rest)
    else .error ⟨.invalidName, cs.length⟩
  | _ => .error ⟨.invalidName, cs.length⟩

theorem qname_length_le {cs r : List Char} {q : QName} (h : qname cs = .ok (q, r)) :
    r.length ≤ cs.length := by
  have hd := (List.dropWhile_sublist (l := cs) isNameChar).length_le
  simp only [qname] at h
  split at h
  · split at h <;> simp at h
    rw [← h.2]
    exact hd
  · split at h <;> simp at h
    rw [← h.2]
    exact hd
  · simp at h

/-! ## 4. Attributes -/

/-- An attribute as it stands in a tag.  `left` is the number of characters left at its name and
`valueLeft` that at its value. -/
structure WrittenAttribute where
  name : QName
  value : List Char
  left : Nat
  valueLeft : Nat
deriving DecidableEq, Repr

/-- An attribute: a qualified name, an equals sign, and a quoted value without `<` (the constraint
"no `<` in attribute values"), which no attribute value may hold even inside quotes. -/
def tagAttribute (cs : List Char) : Except Fault (WrittenAttribute × List Char) := do
  let (n, r) ← qname cs
  let r ← char '=' (skipSpaces r)
  let (q, r) ← quote (skipSpaces r)
  let (v, s) ← upTo (fun cs => cs.head? == some q || cs.head? == some '<') r
  let s ← char q s
  return (⟨n, v, cs.length, r.length⟩, s)

theorem tagAttribute_length_lt {cs r : List Char} {a : WrittenAttribute}
    (h : tagAttribute cs = .ok (a, r)) : r.length < cs.length := by
  simp only [tagAttribute, bind_eq_ok] at h
  obtain ⟨⟨n, r1⟩, h1, r2, h2, ⟨q, r3⟩, h3, ⟨v, s⟩, h4, s', h5, h6⟩ := h
  simp only [pure, Except.pure, Except.ok.injEq, Prod.mk.injEq] at h6
  have := qname_length_le h1
  have := char_length_lt h2
  have := skipSpaces_length_le r1
  have := quote_length_lt h3
  have := skipSpaces_length_le r2
  have := upTo_length_le h4
  have := char_length_lt h5
  rw [← h6.2]
  dsimp only at *
  omega

/-! ## 5. Comments and processing instructions -/

/-- A comment.  Two dashes end it, so none stand in it and it does not end in one. -/
def comment (cs : List Char) : Except Fault (List Char) := do
  let (body, r) ← upTo (startsWith "-->") (cs.drop 4)
  let r ← exactly "-->" r
  if occursIn "--" body || body.getLast? == some '-' then .error ⟨.dashesInComment, cs.length⟩
  else .ok r

/-- A processing instruction.  The XML declaration is none: it stands at the very start. -/
def instruction (cs : List Char) : Except Fault (List Char) :=
  if startsWith "<?xml " cs then .error ⟨.misplacedDeclaration, cs.length⟩
  else do
    let (_, r) ← name (cs.drop 2)
    let (_, r) ← upTo (startsWith "?>") (skipSpaces r)
    exactly "?>" r

theorem comment_length_lt {cs r : List Char} (h : comment cs = .ok r) :
    r.length < cs.length := by
  simp only [comment, bind_eq_ok] at h
  obtain ⟨⟨b, r1⟩, h1, r2, h2, h3⟩ := h
  have := upTo_length_le h1
  have hr := exactly_length h2
  have hl : "-->".length = 3 := rfl
  split at h3 <;> simp at h3
  subst h3
  simp only [List.length_drop] at *
  omega

theorem instruction_length_lt {cs r : List Char} (h : instruction cs = .ok r) :
    r.length < cs.length := by
  simp only [instruction] at h
  split at h
  · simp at h
  · simp only [bind_eq_ok] at h
    obtain ⟨⟨n, r1⟩, h1, ⟨b, r2⟩, h2, h3⟩ := h
    have := name_length_lt h1
    have := upTo_length_le h2
    have := skipSpaces_length_le r1
    have := exactly_length h3
    simp at *
    omega

end LivingDoc.Xml
