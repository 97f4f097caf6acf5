import LivingDoc.Proofs.Expression.Faults

/-!
# Expressions read by their grammar

The reader trims, tries one shape after the other and splits what it was given before it knows
that the parts are any good.  What it accepts in the end is the grammar and nothing else: a text is
read as an expression exactly if the text says it.

* `readValue_eq_ok_iff`: variables, literals and calls.
* `readChars_eq_ok_iff`: expressions.
* `read_accepts_its_grammar`: what follows for the reader as a whole.
-/

namespace LivingDoc.Expression

open Text (isBlank AllBlank IsTrimmed trim)

/-! ## 1. Calls -/

/-- What a call reads behind its name and its parentheses.  The reader asks first whether there is
anything but blank space between them, the grammar has a rule for each answer, and no list of
arguments is blank. -/
theorem readCall_eq_ok_iff_of_split {s : Span} {name rest front inner : List Char}
    (hname : splitIdentifier? s.chars = some (name, rest))
    (hrest : splitParentheses? rest = some (front, inner)) {e : Expression} :
    readCall s = .ok e ↔
      ∃ as, e = .call (String.ofList name) as
        ∧ (AllBlank inner ∧ as = [] ∨ DerivesArguments inner as) := by
  have hargs : ∀ as, (∃ spans, splitArguments (s.behind (name ++ front) inner) = .ok spans
      ∧ readArguments spans = .ok as) ↔ DerivesArguments inner as :=
    fun as => readArguments_splitArguments_iff
  rw [readCall, hname]
  dsimp only
  rw [hrest]
  dsimp only
  split
  case isTrue hempty =>
    have hblank : AllBlank inner := Text.trim_eq_nil_iff_allBlank.mp (List.isEmpty_iff.mp hempty)
    constructor
    · intro h
      exact ⟨[], (Except.ok.inj h).symm, Or.inl ⟨hblank, rfl⟩⟩
    · rintro ⟨as, rfl, ⟨-, rfl⟩ | hderives⟩
      · rfl
      · exact absurd hblank hderives.not_allBlank
  case isFalse hempty =>
    have hvisible : ¬AllBlank inner := fun hblank =>
      hempty (List.isEmpty_iff.mpr (Text.trim_eq_nil_iff_allBlank.mpr hblank))
    constructor
    · intro h
      split at h
      case h_1 => exact absurd h (by simp)
      case h_2 spans hsplit =>
        obtain ⟨as, hread, rfl⟩ := map_eq_ok_iff.mp h
        exact ⟨as, rfl, Or.inr ((hargs as).mp ⟨spans, hsplit, hread⟩)⟩
    · rintro ⟨as, rfl, ⟨hblank, -⟩ | hderives⟩
      · exact absurd hblank hvisible
      · obtain ⟨spans, hsplit, hread⟩ := (hargs as).mpr hderives
        rw [hsplit]
        exact map_eq_ok_iff.mpr ⟨as, hread, rfl⟩

theorem eq_nil_of_isTrimmed_append {cs w : List Char} (h : IsTrimmed (cs ++ w))
    (hw : AllBlank w) : w = [] := by
  by_contra hne
  have hlast := List.getLast?_eq_some_getLast hne
  have hvisible := h.back _ (by rw [List.getLast?_append_of_ne_nil _ hne]; exact hlast)
  rw [hw _ (List.getLast_mem hne)] at hvisible
  exact absurd hvisible (by decide)

/-- What is read as a call is derived, if it is no word.  The reader tries words before calls, so
the condition holds wherever this is used. -/
theorem derivesValue_of_readCall {s : Span} {e : Expression} (h : readCall s = .ok e)
    (htrimmed : IsTrimmed s.chars) (noWord : ∀ v, ¬DerivesWord s.chars v) :
    DerivesValue s.chars e := by
  cases hname : splitIdentifier? s.chars with
  | none =>
    rw [readCall, hname] at h
    exact absurd h (by simp)
  | some split =>
    obtain ⟨name, rest⟩ := split
    obtain ⟨hidentifier, hchars, -⟩ := splitIdentifier?_eq_some_iff.mp hname
    cases hrest : splitParentheses? rest with
    | none =>
      rw [readCall, hname] at h
      dsimp only at h
      rw [hrest] at h
      exact absurd h (by simp)
    | some parentheses =>
      obtain ⟨front, inner⟩ := parentheses
      obtain ⟨as, rfl, hinner⟩ := (readCall_eq_ok_iff_of_split hname hrest).mp h
      rw [hchars] at htrimmed noWord ⊢
      rcases splitParentheses?_eq_some_iff.mp hrest with ⟨hblank, -, rfl⟩ | ⟨a, ha, -, rfl⟩
      · obtain rfl := eq_nil_of_isTrimmed_append htrimmed hblank
        rw [List.append_nil] at noWord ⊢
        rcases hinner with ⟨-, rfl⟩ | hderives
        · exact .bare hidentifier noWord
        · exact absurd (by simp [AllBlank]) hderives.not_allBlank
      · rw [← List.append_assoc]
        rcases hinner with ⟨hblank, rfl⟩ | hderives
        · exact .empty hidentifier ha hblank
        · exact .call hidentifier ha hderives

theorem IsIdentifier.reads_bare {name : List Char} (h : IsIdentifier name) (k : Nat) :
    readCall ⟨k, name⟩ = .ok (.call (String.ofList name) []) := by
  have hrest : splitParentheses? [] = some ([], []) := rfl
  exact (readCall_eq_ok_iff_of_split h.split hrest).mpr
    ⟨[], rfl, Or.inl ⟨by simp [AllBlank], rfl⟩⟩

/-- A name with parentheses is read as a call with what stands between them. -/
theorem IsIdentifier.reads_parentheses {name a inner : List Char} (h : IsIdentifier name)
    (ha : AllBlank a) (k : Nat) {as : List WrittenArgument}
    (has : AllBlank inner ∧ as = [] ∨ DerivesArguments inner as) :
    readCall ⟨k, name ++ (a ++ '(' :: inner) ++ [')']⟩
      = .ok (.call (String.ofList name) as) := by
  have hname : splitIdentifier? (name ++ (a ++ '(' :: inner) ++ [')'])
      = some (name, a ++ '(' :: inner ++ [')']) := by
    rw [List.append_assoc, List.append_assoc, List.cons_append]
    exact h.split_append ha (by decide) _
  have hrest : splitParentheses? (a ++ '(' :: inner ++ [')']) = some (a ++ ['('], inner) :=
    splitParentheses?_eq_some_iff.mpr (Or.inr ⟨a, ha, rfl, rfl⟩)
  exact (readCall_eq_ok_iff_of_split hname hrest).mpr ⟨as, rfl, has⟩

/-! ## 2. Values -/

theorem not_derivesWord_of_mem {cs : List Char} {c : Char} (hc : c ∈ cs)
    (hplain : isPlainChar c = false) (v : Value) : ¬DerivesWord cs v := by
  intro h
  exact absurd ((h.identifier.plain c hc).symm.trans hplain) (by decide)

/-- A text that begins with a name and is no word is read as a call. -/
theorem readValue_of_identifier {s : Span} {name rest : List Char} (h : IsIdentifier name)
    (hs : trim s.chars = name ++ rest) (noWord : ∀ v, ¬DerivesWord (name ++ rest) v) :
    readValue s = readCall s.trimmed := by
  have hliteral : readLiteral ⟨s.trimmed.start, name ++ rest⟩ = .ok none :=
    readLiteral_of_identifier h rfl noWord
  rw [readValue, s.trimmed_eq hs]
  dsimp only
  split
  case h_1 hnil => exact absurd (List.append_eq_nil_iff.mp hnil).1 h.ne_nil
  case h_2 r hcons => exact absurd hcons (h.ne_cons (by decide) rest r)
  case h_3 => rw [hliteral]

/-- **A value is read if and only if what trimming leaves of it is derived.**  By the shapes that
the reader tries in turn: nothing, a variable, a literal, a call.  From right to left each rule of
the grammar has to get past the shapes that are tried before its own. -/
theorem readValue_eq_ok_iff {s : Span} {e : Expression} :
    readValue s = .ok e ↔ DerivesValue (trim s.chars) e := by
  constructor
  · intro h
    have ht : s.trimmed.chars = trim s.chars := rfl
    rw [← ht]
    rw [readValue] at h
    split at h
    case h_1 => exact absurd h (by simp)
    case h_2 name hs =>
      obtain ⟨x, hread, rfl⟩ := map_eq_ok_iff.mp h
      obtain ⟨hname, rfl⟩ := readVariable_eq_ok_iff.mp hread
      rw [hs]
      exact .var hname
    case h_3 =>
      split at h
      case h_1 => exact absurd h (by simp)
      case h_2 v hread =>
        obtain rfl := Except.ok.inj h
        exact .literal (readLiteral_eq_ok_some_iff.mp hread)
      case h_3 hnone =>
        refine derivesValue_of_readCall h (Text.isTrimmed_trim s.chars) ?_
        intro v hword
        rw [readLiteral_eq_ok_some_iff.mpr (.word hword)] at hnone
        exact absurd (Except.ok.inj hnone) (Option.some_ne_none _)
  · intro h
    generalize hcs : trim s.chars = cs at h
    have ht := s.trimmed_eq hcs
    cases h with
    | var hname =>
      rw [readValue, ht]
      exact map_eq_ok_iff.mpr ⟨_, readVariable_eq_ok_iff.mpr ⟨hname, rfl⟩, rfl⟩
    | literal hliteral =>
      have hread : readLiteral ⟨s.trimmed.start, cs⟩ = _ :=
        readLiteral_eq_ok_some_iff.mpr hliteral
      rw [readValue, ht]
      dsimp only
      split
      case h_1 => exact absurd rfl hliteral.token.ne_nil
      case h_2 name => exact absurd rfl (hliteral.ne_cons name)
      case h_3 => rw [hread]
    | bare hname noWord =>
      rw [readValue_of_identifier hname (by rw [hcs, List.append_nil])
        (by rwa [List.append_nil]), ht]
      exact hname.reads_bare _
    | @empty name a b hname ha hb =>
      rw [readValue_of_identifier hname (by rw [hcs, List.append_assoc])
        (not_derivesWord_of_mem (c := '(') (by simp) (by decide)), ht]
      exact hname.reads_parentheses ha _ (Or.inl ⟨hb, rfl⟩)
    | @call name a inner as hname ha has =>
      rw [readValue_of_identifier hname (by rw [hcs, List.append_assoc])
        (not_derivesWord_of_mem (c := '(') (by simp) (by decide)), ht]
      exact hname.reads_parentheses ha _ (Or.inr has)

theorem DerivesValue.reads {cs : List Char} {e : Expression} (h : DerivesValue cs e) (k : Nat) :
    readValue ⟨k, cs⟩ = .ok e := by
  refine readValue_eq_ok_iff.mpr ?_
  rw [h.isTrimmed.trim_self]
  exact h

/-! ## 3. Expressions -/

/-- A value assigns nothing: a variable has no equals sign behind it, and nothing else begins with a
`#`. -/
theorem DerivesValue.splitAssignment?_eq_none {cs : List Char} {e : Expression}
    (h : DerivesValue cs e) (k : Nat) : splitAssignment? ⟨k, cs⟩ = none := by
  have hcall : ∀ {name ds rest : List Char}, IsIdentifier name → ds = name ++ rest →
      splitAssignment? ⟨k, ds⟩ = none := by
    rintro name ds rest hname rfl
    exact Expression.splitAssignment?_eq_none (hname.ne_cons (by decide) rest)
  cases h with
  | var hname => rw [splitAssignment?_cons, hname.splitName?_eq_none]
  | literal hliteral => exact Expression.splitAssignment?_eq_none hliteral.ne_cons
  | bare hname => exact hcall hname (List.append_nil _).symm
  | empty hname => exact hcall hname (List.append_assoc _ _ _)
  | call hname => exact hcall hname (List.append_assoc _ _ _)

/-- An assignment is split at its equals sign. -/
theorem exists_of_splitAssignment? {s value : Span} {x : String}
    (h : splitAssignment? s = some (x, value)) :
    ∃ name a b, IsIdentifier name ∧ AllBlank a ∧ AllBlank b ∧ x = String.ofList name
      ∧ s.chars = '#' :: name ++ (a ++ '=' :: b) ++ value.chars := by
  obtain ⟨k, cs⟩ := s
  by_cases hsharp : ∃ r, cs = '#' :: r
  · obtain ⟨r, rfl⟩ := hsharp
    rw [splitAssignment?_cons] at h
    obtain ⟨name, a, b, hname, ha, hb, hx, hchars⟩ := exists_of_splitName? h
    exact ⟨name, a, b, hname, ha, hb, hx, congrArg ('#' :: ·) hchars⟩
  · rw [splitAssignment?_eq_none fun r hr => hsharp ⟨r, hr⟩] at h
    exact absurd h.symm (Option.some_ne_none _)

theorem splitAssignment?_of_identifier {name a b cs : List Char} (h : IsIdentifier name)
    (ha : AllBlank a) (hb : AllBlank b) (hcs : ∀ c ∈ cs.head?, isBlank c = false) (k : Nat) :
    ∃ k', splitAssignment? ⟨k, '#' :: name ++ (a ++ '=' :: b) ++ cs⟩
      = some (String.ofList name, ⟨k', cs⟩) := by
  obtain ⟨k', hsplit⟩ := splitName?_of_identifier h ha hb hcs (k + 1)
  exact ⟨k', (splitAssignment?_cons k _).trans hsplit⟩

theorem derives_of_readChars {cs : List Char} {e : Expression} (h : readChars cs = .ok e) :
    Derives cs e := by
  obtain ⟨w, v, hw, hv, hcs⟩ := Text.exists_trim cs
  rw [hcs]
  rw [readChars] at h
  split at h
  case isTrue => exact absurd h (by simp)
  case isFalse =>
    split at h
    case h_1 x value hsplit =>
      obtain ⟨name, a, b, hname, ha, hb, rfl, hchars⟩ := exists_of_splitAssignment? hsplit
      obtain ⟨e', hread, rfl⟩ := map_eq_ok_iff.mp h
      obtain ⟨w', v', hw', hv', hvalue⟩ := Text.exists_trim value.chars
      -- The blank space around the value belongs to the equals sign and to the end.
      have hassign := Derives.assign hw hname ha (hb.append hw')
        (readValue_eq_ok_iff.mp hread) (hv'.append hv)
      have htext : trim cs = '#' :: name ++ (a ++ '=' :: b) ++ value.chars := hchars
      rw [htext, hvalue]
      simpa using hassign
    case h_2 =>
      have hvalue : DerivesValue (trim (trim cs)) e := readValue_eq_ok_iff.mp h
      rw [(Text.isTrimmed_trim cs).trim_self] at hvalue
      exact .value hw hvalue hv

theorem Derives.readChars_eq {cs : List Char} {e : Expression} (h : Derives cs e) :
    readChars cs = .ok e := by
  cases h with
  | @value w cs v e hw hvalue hv =>
    have htrim : trim (w ++ cs ++ v) = cs := hvalue.isTrimmed.trim_eq hw hv
    rw [readChars, Span.trimmed_eq ⟨0, _⟩ htrim]
    dsimp only
    rw [if_neg fun hempty => hvalue.ne_nil (List.isEmpty_iff.mp hempty),
      hvalue.splitAssignment?_eq_none]
    exact hvalue.reads _
  | @assign w name a b cs v e hw hname ha hb hvalue hv =>
    have htrimmed : IsTrimmed ('#' :: name ++ (a ++ '=' :: b) ++ cs) :=
      hname.token_variable.isTrimmed.around hvalue.isTrimmed (List.cons_ne_nil _ _)
        hvalue.ne_nil _
    obtain ⟨k, hsplit⟩ := splitAssignment?_of_identifier hname ha hb hvalue.isTrimmed.front
      (Span.trimmed ⟨0, w ++ ('#' :: name ++ (a ++ '=' :: b) ++ cs) ++ v⟩).start
    rw [readChars, Span.trimmed_eq ⟨0, _⟩ (htrimmed.trim_eq hw hv)]
    dsimp only
    rw [if_neg (by simp), hsplit]
    exact map_eq_ok_iff.mpr ⟨e, hvalue.reads k, rfl⟩

/-- **A text is read as an expression if and only if it says it.** -/
theorem readChars_eq_ok_iff {cs : List Char} {e : Expression} :
    readChars cs = .ok e ↔ Derives cs e :=
  ⟨derives_of_readChars, Derives.readChars_eq⟩

-- Commas, parentheses and quotes of the other kind inside a quoted text divide nothing.
example : readChars "#x = say ('a, b)', to = \"it's\")".toList
    = .ok (.assign "x" (.call "say"
        [⟨none, .literal (.text "a, b)")⟩, ⟨some "to", .literal (.text "it's")⟩])) := by
  rfl

/-! ## 4. The reader and its grammar -/

/-- A text says one expression at most, because the reader gives one. -/
theorem Derives.unique {cs : List Char} {e e' : Expression} (h : Derives cs e)
    (h' : Derives cs e') : e = e' :=
  Except.ok.inj (h.readChars_eq.symm.trans h'.readChars_eq)

theorem DerivesValue.ne_assign {cs : List Char} {e : Expression} (h : DerivesValue cs e)
    (x : String) (value : Expression) : e ≠ .assign x value := by
  cases h <;> exact Expression.noConfusion

/-- No text assigns an assignment: what stands behind the equals sign is a value. -/
theorem Derives.not_nested {cs : List Char} {x y : String} {value : Expression} :
    ¬Derives cs (.assign x (.assign y value)) := by
  intro h
  generalize he : Expression.assign x (.assign y value) = e at h
  cases h with
  | value _ h => exact h.ne_assign _ _ he.symm
  | assign _ _ _ _ h =>
    obtain ⟨-, rfl⟩ := Expression.assign.inj he
    exact h.ne_assign _ _ rfl

theorem DerivesValue.unique {cs : List Char} {e e' : Expression} (h : DerivesValue cs e)
    (h' : DerivesValue cs e') : e = e' :=
  Except.ok.inj ((h.reads 0).symm.trans (h'.reads 0))

theorem DerivesOperand.not_call {cs : List Char} {o : Operand} (h : DerivesOperand cs o)
    (operation : String) (as : List WrittenArgument) :
    ¬DerivesValue cs (.call operation as) := by
  intro hcall
  cases h with
  | var h => exact Expression.noConfusion (hcall.unique (.var h))
  | literal h => exact Expression.noConfusion (hcall.unique (.literal h))

/-- **The reader accepts its grammar, with one reading for each text.**  Assignments do not nest,
no argument is a call, and no number is at fault. -/
theorem read_accepts_its_grammar :
    (∀ (text : String) (e : Expression), read text = .ok e ↔ Derives text.toList e)
      ∧ (∀ (cs : List Char) (e e' : Expression), Derives cs e → Derives cs e' → e = e')
      ∧ (∀ (text x y : String) (value : Expression),
          read text ≠ .ok (.assign x (.assign y value)))
      ∧ (∀ (cs : List Char) (o : Operand), DerivesOperand cs o →
          ∀ (operation : String) (as : List WrittenArgument),
            ¬DerivesValue cs (.call operation as))
      ∧ ∀ (text number : String) (place : Nat),
          read text ≠ .error ⟨.invalidNumber number, place⟩ := by
  refine ⟨fun _ _ => readChars_eq_ok_iff, fun _ _ _ => Derives.unique, ?_, ?_, ?_⟩
  · intro text x y value h
    exact Derives.not_nested (readChars_eq_ok_iff.mp h)
  · intro cs o ho operation as
    exact ho.not_call operation as
  · intro text number place
    exact sparesNumbers_readChars text.toList number place

end LivingDoc.Expression
