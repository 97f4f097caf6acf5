import LivingDoc.Proofs.Expression.Faults

/-!
# Blank space in front of an expression

A reader looks at the characters of its span and never at the place where it begins, which it only
hands on to the faults.  So the same characters further on are read in the same way, and every fault
is as much further on.  Blank space in front of a text is no more than such a distance.

* `readValue_moved`: a value is read alike wherever it is.
* `readChars_append`: so is a text, behind blank space.
* `read_reports_places`: what is to be said of the places of faults in a text.
-/

namespace LivingDoc.Expression

open Text (isBlank AllBlank trim)

/-! ## 1. Distances -/

/-- The same fault further on. -/
def Fault.moved (n : Nat) (f : Fault) : Fault := ⟨f.problem, n + f.position⟩

/-- The same characters further on. -/
def Span.moved (n : Nat) (s : Span) : Span := ⟨n + s.start, s.chars⟩

variable {α β : Type}

/-- The outcome with the fault further on, if it is one. -/
def movedOn (n : Nat) (r : Except Fault α) : Except Fault α := r.mapError (·.moved n)

@[simp] theorem movedOn_ok (n : Nat) (a : α) : movedOn n (.ok a) = .ok a := rfl

@[simp] theorem movedOn_error (n : Nat) (f : Fault) :
    movedOn n (.error f : Except Fault α) = .error (f.moved n) := rfl

theorem movedOn_map (n : Nat) (r : Except Fault α) (g : α → β) :
    movedOn n (r.map g) = (movedOn n r).map g := by
  cases r <;> rfl

@[simp] theorem Span.chars_moved (n : Nat) (s : Span) : (s.moved n).chars = s.chars := rfl

@[simp] theorem Span.fault_moved (n : Nat) (s : Span) (p : Problem) :
    (s.moved n).fault p = (s.fault p).moved n := rfl

@[simp] theorem Span.trimmed_moved (n : Nat) (s : Span) :
    (s.moved n).trimmed = s.trimmed.moved n := by
  simp only [Span.trimmed, Span.moved, Nat.add_assoc]

@[simp] theorem Span.behind_moved (n : Nat) (s : Span) (front rest : List Char) :
    (s.moved n).behind front rest = (s.behind front rest).moved n := by
  simp only [Span.behind, Span.moved, Nat.add_assoc]

/-! ## 2. Variables and literals -/

theorem readVariable_moved (n : Nat) (s : Span) (name : List Char) :
    readVariable (s.moved n) name = movedOn n (readVariable s name) := by
  rw [readVariable, readVariable]
  split <;> rfl

theorem readQuoted_moved (n : Nat) (s : Span) (q : Char) (cs : List Char) :
    readQuoted (s.moved n) q cs = movedOn n (readQuoted s q cs) := by
  rw [readQuoted, readQuoted]
  split
  · rfl
  · rfl
  · simp only [movedOn_error, Fault.moved, Span.moved, Nat.add_assoc]

theorem readNumber_moved (n : Nat) (s : Span) :
    readNumber (s.moved n) = movedOn n (readNumber s) := by
  rw [readNumber, readNumber, Span.chars_moved]
  split
  · split
    · rfl
    · split <;> rfl
  · rfl

theorem readLiteral_moved (n : Nat) (s : Span) :
    readLiteral (s.moved n) = movedOn n (readLiteral s) := by
  rw [readLiteral, readLiteral, Span.chars_moved]
  split
  · rw [readQuoted_moved, movedOn_map]
  · rw [readQuoted_moved, movedOn_map]
  · split
    · rfl
    · exact readNumber_moved n s

/-! ## 3. Arguments -/

/-- The splitter hands the places on to the pieces and to the fault, also the place of a quote that
is open to begin with.  By induction on the characters. -/
theorem splitAtCommas_moved (n here : Nat) (quote : Option (Char × Nat)) (cs : List Char) :
    splitAtCommas (n + here) (quote.map fun (q, place) => (q, n + place)) cs
      = (movedOn n (splitAtCommas here quote cs)).map fun (first, more) =>
          (first, more.map (·.moved n)) := by
  induction cs generalizing here quote with
  | nil => cases quote <;> rfl
  | cons c cs ih =>
    cases quote with
    | some open' =>
      obtain ⟨q, place⟩ := open'
      have hrest := ih (here + c.utf8Size) (if c = q then none else some (q, place))
      rw [apply_ite (Option.map _), ← Nat.add_assoc] at hrest
      rw [Option.map_some, splitAtCommas, splitAtCommas]
      dsimp only at hrest ⊢
      rw [Option.map_some, Option.map_none] at hrest
      rw [hrest]
      cases splitAtCommas (here + c.utf8Size) _ cs <;> rfl
    | none =>
      rw [Option.map_none, splitAtCommas, splitAtCommas]
      dsimp only
      split
      · have hrest := ih (here + c.utf8Size) none
        rw [Option.map_none, ← Nat.add_assoc] at hrest
        rw [hrest]
        cases splitAtCommas (here + c.utf8Size) none cs with
        | error f => rfl
        | ok r => simp [Except.map, Span.moved, Nat.add_assoc]
      · have hrest := ih (here + c.utf8Size) (if c = '\'' ∨ c = '"' then some (c, here) else none)
        rw [apply_ite (Option.map _), Option.map_some, Option.map_none, ← Nat.add_assoc] at hrest
        rw [hrest]
        cases splitAtCommas (here + c.utf8Size) _ cs <;> rfl

theorem splitArguments_moved (n : Nat) (s : Span) :
    splitArguments (s.moved n) = (movedOn n (splitArguments s)).map (·.map (·.moved n)) := by
  have hcut : splitAtCommas (s.moved n).start none s.chars = _ :=
    splitAtCommas_moved n s.start none s.chars
  rw [splitArguments, splitArguments, Span.chars_moved, hcut]
  cases splitAtCommas s.start none s.chars <;> rfl

theorem readOperand_moved (n : Nat) (s : Span) :
    readOperand (s.moved n) = movedOn n (readOperand s) := by
  rw [readOperand, readOperand, Span.trimmed_moved, Span.chars_moved]
  split
  · rfl
  · rw [readVariable_moved, movedOn_map]
  · rw [readLiteral_moved]
    rcases readLiteral s.trimmed with f | _ | v <;> rfl

theorem splitName?_moved (n : Nat) (s : Span) :
    splitName? (s.moved n) = (splitName? s).map fun (x, value) => (x, value.moved n) := by
  rw [splitName?, splitName?, Span.chars_moved]
  split
  · rfl
  · rename_i name rest _
    cases splitEquals? rest <;> simp

theorem readArgument_moved (n : Nat) (s : Span) :
    readArgument (s.moved n) = movedOn n (readArgument s) := by
  rw [readArgument, readArgument, Span.trimmed_moved, splitName?_moved]
  cases splitName? s.trimmed with
  | none => rw [Option.map_none, readOperand_moved, movedOn_map]
  | some split =>
    rw [Option.map_some, movedOn_map]
    dsimp only
    rw [readOperand_moved]

theorem readArguments_moved (n : Nat) (spans : List Span) :
    readArguments (spans.map (·.moved n)) = movedOn n (readArguments spans) := by
  induction spans with
  | nil => rfl
  | cons s rest ih =>
    rw [List.map_cons, readArguments, readArguments, readArgument_moved, ih]
    cases readArgument s with
    | error f => rfl
    | ok a => exact (movedOn_map n _ _).symm

/-! ## 4. Values and expressions -/

theorem readCall_moved (n : Nat) (s : Span) :
    readCall (s.moved n) = movedOn n (readCall s) := by
  rw [readCall, readCall, Span.chars_moved]
  split
  · rfl
  · split
    · rfl
    · rw [Span.behind_moved, splitArguments_moved]
      split
      · rfl
      · cases splitArguments (s.behind _ _) with
        | error f => rfl
        | ok spans =>
          rw [movedOn_map]
          exact congrArg (Except.map _) (readArguments_moved n spans)

/-- **A value is read alike wherever it is.**  Each reader below it has the lemma of the same name,
and none of them asks where its span begins. -/
theorem readValue_moved (n : Nat) (s : Span) :
    readValue (s.moved n) = movedOn n (readValue s) := by
  rw [readValue, readValue, Span.trimmed_moved, Span.chars_moved]
  split
  · rfl
  · rw [readVariable_moved, movedOn_map]
  · rw [readLiteral_moved]
    rcases readLiteral s.trimmed with f | _ | v
    · rfl
    · exact readCall_moved n s.trimmed
    · rfl

theorem splitAssignment?_moved (n : Nat) (s : Span) :
    splitAssignment? (s.moved n)
      = (splitAssignment? s).map fun (x, value) => (x, value.moved n) := by
  obtain ⟨k, cs⟩ := s
  by_cases hsharp : ∃ r, cs = '#' :: r
  · obtain ⟨r, rfl⟩ := hsharp
    have hname := splitName?_moved n ⟨k + 1, r⟩
    rw [Span.moved, splitAssignment?_cons, splitAssignment?_cons, ← hname, Span.moved,
      Nat.add_assoc]
  · rw [splitAssignment?_eq_none fun r hr => hsharp ⟨r, hr⟩,
      splitAssignment?_eq_none fun r hr => hsharp ⟨r, hr⟩]
    rfl

/-- Blank space in front of a text is trimmed off, and its length is kept as the place of what is
left. -/
theorem Span.trimmed_append {w : List Char} (h : AllBlank w) (cs : List Char) :
    Span.trimmed ⟨0, w ++ cs⟩ = (Span.trimmed ⟨0, cs⟩).moved (byteLength w) := by
  have htrim : trim (w ++ cs) = trim cs := by
    rw [trim, trim, Text.trimStart_blank_append h]
  simp only [Span.trimmed, Span.moved, htrim, List.takeWhile_append_of_pos h, byteLength_append,
    Nat.zero_add]

/-- **A text is read alike behind blank space.**  Only the first trimming sees the difference. -/
theorem readChars_append {w : List Char} (h : AllBlank w) (cs : List Char) :
    readChars (w ++ cs) = movedOn (byteLength w) (readChars cs) := by
  rw [readChars, readChars, Span.trimmed_append h, Span.chars_moved, splitAssignment?_moved]
  split
  · rfl
  · cases splitAssignment? (Span.trimmed ⟨0, cs⟩) with
    | none => exact readValue_moved _ _
    | some split =>
      rw [Option.map_some, movedOn_map]
      dsimp only
      rw [readValue_moved]

/-! ## 5. Texts -/

theorem byteLength_eq (cs : List Char) : byteLength cs = (String.ofList cs).utf8ByteSize := by
  induction cs with
  | nil => rfl
  | cons c cs ih =>
    rw [String.ofList_cons, String.utf8ByteSize_append, String.utf8ByteSize_singleton, ← ih]
    rfl

/-- A fault of a text lies between two parts of it, at what its problem is about. -/
theorem exists_parts_of_read {text : String} {f : Fault} (h : read text = .error f) :
    ∃ front rest : String, text = front ++ rest ∧ f.position = front.utf8ByteSize ∧
      f.problem.StandsAt front.toList rest.toList := by
  obtain ⟨front, rest, hchars, hplace, hstands⟩ := faultsIn_readChars text.toList f h
  dsimp only at hchars hplace
  refine ⟨String.ofList front, String.ofList rest, ?_, ?_, ?_⟩
  · rw [← String.ofList_append, ← hchars, String.ofList_toList]
  · rw [hplace, Nat.zero_add, byteLength_eq]
  · rw [String.toList_ofList, String.toList_ofList]
    exact hstands

/-- **A reader says where it is at fault.**  The place is in the text, between two characters of it,
and what the problem is about stands there: a variable, a value or an argument that is none, or the
quote that is not closed; behind a text with more to follow it is the place right after the closing
quote.  Blank space in front of the text changes nothing but the place, by as many bytes as it
has. -/
theorem read_reports_places (text : String) :
    (∀ f, read text = .error f →
      f.position ≤ text.utf8ByteSize ∧ (⟨f.position⟩ : String.Pos.Raw).IsValid text ∧
      ∃ front rest : String, text = front ++ rest ∧ f.position = front.utf8ByteSize ∧
        f.problem.StandsAt front.toList rest.toList) ∧
    ∀ w : String, AllBlank w.toList → read (w ++ text) = movedOn w.utf8ByteSize (read text) := by
  constructor
  · intro f hf
    obtain ⟨front, rest, htext, hplace, hstands⟩ := exists_parts_of_read hf
    have hvalid : (⟨f.position⟩ : String.Pos.Raw).IsValid text :=
      String.Pos.Raw.isValid_iff_exists_append.mpr
        ⟨front, rest, htext, congrArg String.Pos.Raw.mk hplace⟩
    exact ⟨hvalid.le_rawEndPos, hvalid, front, rest, htext, hplace, hstands⟩
  · intro w hw
    have hsize : byteLength w.toList = w.utf8ByteSize := by
      rw [byteLength_eq, String.ofList_toList]
    rw [read, String.toList_append, readChars_append hw, hsize, read]

-- Two bytes for the letter: the variable that is none stands at byte 8.
example : read "f('é', #1)" = .error ⟨.invalidVariable "#1", 8⟩ := by rfl

end LivingDoc.Expression
