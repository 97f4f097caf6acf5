import LivingDoc.Xml.Scan

/-!
# The prolog of a document

What stands before the root element: a byte order mark, the XML declaration, comments and processing
instructions, and the document type with its entities.  Document types are allowed (specification,
4.1), and of all this only the entities matter later: nothing is validated, no default of an
attribute is taken from it, and nothing outside the document is read.
-/

namespace LivingDoc.Xml

/-- A named piece of text; the document goes on for `behind` characters behind the value. -/
structure Entity where
  name : String
  value : List Char
  behind : Nat
deriving DecidableEq, Repr

/-! ## 1. Comments and processing instructions between tags -/

/-- Skip spaces, comments and processing instructions. -/
def skipAsides (cs : List Char) : Except Fault (List Char) :=
  let r := skipSpaces cs
  have : r.length ≤ cs.length := skipSpaces_length_le cs
  if startsWith "<!--" r then
    match h : comment r with
    | .error f => .error f
    | .ok s =>
      have := comment_length_lt h
      skipAsides s
  else if startsWith "<?" r then
    match h : instruction r with
    | .error f => .error f
    | .ok s =>
      have := instruction_length_lt h
      skipAsides s
  else .ok r
termination_by cs.length
decreasing_by all_goals omega

/-! ## 2. The declaration -/

/-- Space before the next part of the declaration, which may be left out at its end. -/
def declarationSpace (cs : List Char) : Except Fault (List Char) :=
  match cs with
  | [] => .ok []
  | c :: _ =>
    if isSpace c then .ok (skipSpaces cs)
    else if startsWith "?>" cs then .ok cs
    else .error ⟨.wrongKind "a whitespace" c, cs.length⟩

/-- A part of the declaration, if it starts with the word: it has the form of an attribute. -/
def declarationPart (word : String) (cs : List Char) : Except Fault (List Char) :=
  if startsWith word cs then do
    let (_, r) ← tagAttribute cs
    return r
  else return cs

/-- The XML declaration: a version, then an encoding, then a word on standing alone.  Their values
are read as those of attributes and not looked at. -/
def declaration (cs : List Char) : Except Fault (List Char) := do
  let r := skipSpaces (cs.drop 5)
  let _ ← exactly "version" r
  let (_, r) ← tagAttribute r
  let r ← declarationSpace r
  let s ← declarationPart "encoding" r
  let s ← if startsWith "encoding" r then declarationSpace s else pure s
  let s ← declarationPart "standalone" s
  exactly "?>" (skipSpaces s)

/-! ## 3. The document type -/

/-- A quoted literal that nothing is said about. -/
def skipLiteral (cs : List Char) : Except Fault (List Char) := do
  let (q, r) ← quote cs
  char q (r.dropWhile (· != q))

/-- A reference to something outside the document, if there is one: `SYSTEM` with one literal, or
`PUBLIC` with two. -/
def externalId (cs : List Char) : Except Fault (List Char) :=
  if startsWith "SYSTEM" cs then do
    let r ← spaces (cs.drop 6)
    skipLiteral r
  else if startsWith "PUBLIC" cs then do
    let r ← spaces (cs.drop 6)
    let r ← skipLiteral r
    let r ← spaces r
    skipLiteral r
  else return cs

/-- An entity that stands for something outside the document is read and not kept. -/
def externalEntity (general : Bool) (cs : List Char) : Except Fault (List Char) :=
  if startsWith "SYSTEM" cs || startsWith "PUBLIC" cs then do
    let r ← externalId cs
    if general then
      let r := skipSpaces r
      if startsWith "NDATA" r then
        let r ← spaces (r.drop 5)
        skipName r
      else return r
    else return r
  else .error ⟨.invalidExternalId, cs.length⟩

/-- What an entity stands for: a quoted value, or something outside the document. -/
def entityValue (general : Bool) (cs : List Char) :
    Except Fault (Option (List Char × Nat) × List Char) :=
  match cs with
  | [] => .error ⟨.endOfText, 0⟩
  | c :: r =>
    if c = '"' ∨ c = '\'' then do
      let s ← char c (r.dropWhile (· != c))
      return (some (r.takeWhile (· != c), s.length + 1), s)
    else if c = 'S' ∨ c = 'P' then do
      let s ← externalEntity general cs
      return (none, s)
    else .error ⟨.wrongKind "a quote, SYSTEM or PUBLIC" c, cs.length⟩

/-- The mark of a parameter entity, if it is there; without it the entity is general. -/
def entityMark : List Char → Except Fault (Bool × List Char)
  | '%' :: r => do
    let s ← spaces r
    return (false, s)
  | r => .ok (true, r)

/-- An entity declaration.  A parameter entity is an entity like the others here, and one that
stands for something outside the document is read over. -/
def entityDeclaration (cs : List Char) : Except Fault (List Entity × List Char) := do
  let r ← spaces (cs.drop 8)
  let (general, r) ← entityMark r
  let (n, r) ← name r
  let r ← spaces r
  let (v, r) ← entityValue general r
  let r ← char '>' (skipSpaces r)
  return ((v.map fun v => ⟨n, v.1, v.2⟩).toList, r)

/-- A declaration of another kind, up to its `>`, wherever that stands. -/
def otherDeclaration? (cs : List Char) : Option (List Char) :=
  if startsWith "<!ELEMENT" cs || startsWith "<!ATTLIST" cs || startsWith "<!NOTATION" cs then
    some ((cs.dropWhile (· != '>')).drop 1)
  else none

/-- The end of the document type behind its `]`. -/
def subsetEnd (cs : List Char) : Except Fault (List Char) :=
  match skipSpaces cs with
  | [] => .error ⟨.endOfText, 0⟩
  | '>' :: r => .ok r
  | c :: r => .error ⟨.wrongKind "'>'" c, r.length + 1⟩

theorem skipLiteral_length_lt {cs r : List Char} (h : skipLiteral cs = .ok r) :
    r.length < cs.length := by
  simp only [skipLiteral, bind_eq_ok] at h
  obtain ⟨⟨q, s⟩, h1, h2⟩ := h
  have := quote_length_lt h1
  have := char_length_lt h2
  have := (List.dropWhile_sublist (l := s) (· != q)).length_le
  dsimp only at *
  omega

theorem externalId_length_le {cs r : List Char} (h : externalId cs = .ok r) :
    r.length ≤ cs.length := by
  simp only [externalId] at h
  split at h
  · simp only [bind_eq_ok] at h
    obtain ⟨s, h1, h2⟩ := h
    have := spaces_length_lt h1
    have := skipLiteral_length_lt h2
    simp only [List.length_drop] at *
    omega
  · split at h
    · simp only [bind_eq_ok] at h
      obtain ⟨s, h1, t, h2, u, h3, h4⟩ := h
      have := spaces_length_lt h1
      have := skipLiteral_length_lt h2
      have := spaces_length_lt h3
      have := skipLiteral_length_lt h4
      simp only [List.length_drop] at *
      omega
    · simp only [pure, Except.pure, Except.ok.injEq] at h
      simp [h]

theorem externalEntity_length_le {general : Bool} {cs r : List Char}
    (h : externalEntity general cs = .ok r) : r.length ≤ cs.length := by
  simp only [externalEntity] at h
  split at h
  · simp only [bind_eq_ok] at h
    obtain ⟨s, h1, h2⟩ := h
    have := externalId_length_le h1
    have := skipSpaces_length_le s
    split at h2
    · split at h2
      · simp only [bind_eq_ok] at h2
        obtain ⟨t, h3, h4⟩ := h2
        have := spaces_length_lt h3
        have := skipName_length_le h4
        simp only [List.length_drop] at *
        omega
      · simp only [pure, Except.pure, Except.ok.injEq] at h2
        subst h2
        omega
    · simp only [pure, Except.pure, Except.ok.injEq] at h2
      subst h2
      omega
  · simp at h

theorem entityValue_length_le {general : Bool} {cs r : List Char}
    {v : Option (List Char × Nat)} (h : entityValue general cs = .ok (v, r)) :
    r.length ≤ cs.length := by
  cases cs with
  | nil => simp [entityValue] at h
  | cons c cs =>
    simp only [entityValue] at h
    split at h
    · simp only [bind_eq_ok] at h
      obtain ⟨s, h1, h2⟩ := h
      have := char_length_lt h1
      have := (List.dropWhile_sublist (l := cs) (· != c)).length_le
      simp only [pure, Except.pure, Except.ok.injEq, Prod.mk.injEq] at h2
      rw [← h2.2]
      simp only [List.length_cons]
      omega
    · split at h
      · simp only [bind_eq_ok] at h
        obtain ⟨s, h1, h2⟩ := h
        have := externalEntity_length_le h1
        simp only [pure, Except.pure, Except.ok.injEq, Prod.mk.injEq] at h2
        rw [← h2.2]
        exact this
      · simp at h

theorem entityMark_length_le {cs r : List Char} {g : Bool} (h : entityMark cs = .ok (g, r)) :
    r.length ≤ cs.length := by
  unfold entityMark at h
  split at h
  · simp only [bind_eq_ok] at h
    obtain ⟨s, h1, h2⟩ := h
    have := spaces_length_lt h1
    simp only [pure, Except.pure, Except.ok.injEq, Prod.mk.injEq] at h2
    rw [← h2.2]
    simp only [List.length_cons]
    omega
  · simp only [Except.ok.injEq, Prod.mk.injEq] at h
    simp [h.2]

theorem entityDeclaration_length_lt {cs r : List Char} {es : List Entity}
    (h : entityDeclaration cs = .ok (es, r)) : r.length < cs.length := by
  simp only [entityDeclaration, bind_eq_ok] at h
  obtain ⟨s, h1, ⟨g, t⟩, h2, ⟨n, u⟩, h3, w, h4, ⟨v, x⟩, h5, y, h6, h7⟩ := h
  have := spaces_length_lt h1
  have := entityMark_length_le h2
  have := name_length_lt h3
  have := spaces_length_lt h4
  have := entityValue_length_le h5
  have := char_length_lt h6
  have := skipSpaces_length_le x
  simp only [pure, Except.pure, Except.ok.injEq, Prod.mk.injEq] at h7
  rw [← h7.2]
  simp only [List.length_drop] at *
  omega

theorem otherDeclaration?_length_lt {cs r : List Char} (h : otherDeclaration? cs = some r) :
    r.length < cs.length := by
  simp only [otherDeclaration?] at h
  split at h <;> simp only [Option.some.injEq, reduceCtorEq] at h
  subst h
  rename_i hs
  have := (List.dropWhile_sublist (l := cs) (· != '>')).length_le
  cases cs with
  | nil => simp [startsWith] at hs
  | cons c cs =>
    simp only [List.length_drop, List.length_cons] at *
    omega

/-- The declarations of the document type, which itself starts with `left` characters left.  A
subset that is broken off at its very end is let pass. -/
def subset (left : Nat) (cs : List Char) : Except Fault (List Entity × List Char) :=
  let r := skipSpaces cs
  have : r.length ≤ cs.length := skipSpaces_length_le cs
  if cs.isEmpty then .ok ([], [])
  else if startsWith "<!ENTITY" r then
    match h : entityDeclaration r with
    | .error f => .error f
    | .ok (es, s) =>
      have := entityDeclaration_length_lt h
      match subset left s with
      | .error f => .error f
      | .ok (more, t) => .ok (es ++ more, t)
  else if startsWith "<!--" r then
    match h : comment r with
    | .error f => .error f
    | .ok s =>
      have := comment_length_lt h
      subset left s
  else if startsWith "<?" r then
    match h : instruction r with
    | .error f => .error f
    | .ok s =>
      have := instruction_length_lt h
      subset left s
  else if startsWith "]" r then
    match subsetEnd (r.drop 1) with
    | .error f => .error f
    | .ok s => .ok ([], s)
  else
    match h : otherDeclaration? r with
    | none => .error ⟨.unknownToken, r.length⟩
    | some s =>
      have := otherDeclaration?_length_lt h
      if r.contains '>' then subset left s else .error ⟨.unknownToken, left⟩
termination_by cs.length
decreasing_by all_goals omega

/-- The document type: its entities. -/
def doctype (cs : List Char) : Except Fault (List Entity × List Char) := do
  let r ← spaces (cs.drop 9)
  let r ← skipName r
  let r ← externalId (skipSpaces r)
  match skipSpaces r with
  | [] => .error ⟨.endOfText, 0⟩
  | '>' :: r => return ([], r)
  | '[' :: r => subset cs.length r
  | c :: r => .error ⟨.wrongKind "'[' or '>'" c, r.length + 1⟩

/-! ## 4. The prolog -/

/-- Everything before the root element: the entities, and the text that is left. -/
def prolog (cs : List Char) : Except Fault (List Entity × List Char) := do
  let r := if cs.head? == some '\ufeff' then cs.drop 1 else cs
  let r ← if startsWith "<?xml " r then declaration r else pure r
  let r ← skipAsides r
  if startsWith "<!DOCTYPE" r then
    let (es, r) ← doctype r
    let r ← skipAsides r
    return (es, r)
  else return ([], r)

end LivingDoc.Xml
