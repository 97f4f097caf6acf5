import LivingDoc.Proofs.Expression.Arguments

/-!
# Where faults are

A reader trims its span, cuts off what it has read and goes on with a span of the rest, so that a
fault is found in a span of a span.  Each time the place where the span begins is counted anew.  The
count is right: a fault lies between two characters of the whole text, at what its problem is about.

A text that looks like a number and is no integer in range is read as a float, and the reader has a
problem for one that cannot be.  There is none, so this problem stands nowhere.

* `Span.Within.locates`: what is in a part of a span is in the span.
* `faultsIn_readChars`: the faults of a text are where they are said to be.
* `sparesNumbers_readChars`: no text is at fault for a number in it.
-/

namespace LivingDoc.Expression

open Text (isBlank trim)

/-! ## 1. Places -/

/-- What stands where a problem is found, with `front` before the place and `rest` behind it: the
text that is no variable, value or argument; the quote that is not closed; or, before the place, the
quote that closes a text although something follows.  An empty expression, value or argument has
nothing that could stand there. -/
def Problem.StandsAt (front rest : List Char) : Problem → Prop
  | .invalidVariable t | .unsupported t | .unsupportedArgument t => t.toList <+: rest
  | .unterminatedText => ∃ q, (q = '\'' ∨ q = '"') ∧ ∃ others, rest = q :: others
  | .textAfterLiteral => ∃ q body others, (q = '\'' ∨ q = '"') ∧ q ∉ body ∧
      front = others ++ (q :: body ++ [q]) ∧ rest ≠ []
  | .empty | .valueMissing | .argumentMissing => True
  | .invalidNumber _ => False

theorem Problem.StandsAt.around {p : Problem} {front rest : List Char}
    (h : p.StandsAt front rest) (before behind : List Char) :
    p.StandsAt (before ++ front) (rest ++ behind) := by
  cases p with
  | empty | valueMissing | argumentMissing => trivial
  | invalidVariable | unsupported | unsupportedArgument => exact h.trans (List.prefix_append _ _)
  | unterminatedText =>
    obtain ⟨q, hq, others, rfl⟩ := h
    exact ⟨q, hq, others ++ behind, rfl⟩
  | textAfterLiteral =>
    obtain ⟨q, body, others, hq, hbody, rfl, hrest⟩ := h
    exact ⟨q, body, before ++ others, hq, hbody, (List.append_assoc _ _ _).symm,
      List.append_ne_nil_of_left_ne_nil hrest _⟩
  | invalidNumber => exact h

/-- The fault lies between two characters of the span, at what its problem is about.  The span knows
its own place in the text, so the whole text is a span like its parts. -/
def Span.Locates (s : Span) (f : Fault) : Prop :=
  ∃ front rest, s.chars = front ++ rest ∧ f.position = s.start + byteLength front ∧
    f.problem.StandsAt front rest

theorem Span.locates_fault {s : Span} {p : Problem} (h : p.StandsAt [] s.chars) :
    s.Locates (s.fault p) :=
  ⟨[], s.chars, rfl, rfl, h⟩

/-- A span is a part of another, and both count their places in one text. -/
def Span.Within (inner outer : Span) : Prop :=
  ∃ front rest, outer.chars = front ++ inner.chars ++ rest ∧
    inner.start = outer.start + byteLength front

/-- **What is in a part of a span is in the span.**  It is the one step of the argument: the readers
below give their faults in parts of parts, and this hands them on to the whole text. -/
theorem Span.Within.locates {inner outer : Span} (h : inner.Within outer) {f : Fault}
    (hf : inner.Locates f) : outer.Locates f := by
  obtain ⟨before, behind, hchars, hstart⟩ := h
  obtain ⟨front, rest, hinner, hplace, hstands⟩ := hf
  refine ⟨before ++ front, rest ++ behind, ?_, ?_, hstands.around before behind⟩
  · rw [hchars, hinner]
    simp only [List.append_assoc]
  · rw [hplace, hstart, byteLength_append, Nat.add_assoc]

theorem Span.Within.trans {a b c : Span} (hab : a.Within b) (hbc : b.Within c) : a.Within c := by
  obtain ⟨front, rest, hb, ha⟩ := hab
  obtain ⟨before, behind, hc, hstart⟩ := hbc
  refine ⟨before ++ front, rest ++ behind, ?_, ?_⟩
  · rw [hc, hb]
    simp only [List.append_assoc]
  · rw [ha, hstart, byteLength_append, Nat.add_assoc]

theorem Span.trimmed_within (s : Span) : s.trimmed.Within s := by
  obtain ⟨v, -, hchars⟩ := Text.exists_trim_behind s.chars
  exact ⟨s.chars.takeWhile isBlank, v, hchars, rfl⟩

theorem Span.behind_within {s : Span} {front inner : List Char} (rest : List Char)
    (h : s.chars = front ++ inner ++ rest) : (s.behind front inner).Within s :=
  ⟨front, rest, h, rfl⟩

/-! ## 2. Outcomes -/

variable {α β : Type}

theorem map_eq_error_iff {r : Except Fault α} {g : α → β} {f : Fault} :
    r.map g = .error f ↔ r = .error f := by
  cases r <;> simp [Except.map]

/-- If the outcome is a fault, it is in the span. -/
def FaultsIn (s : Span) (r : Except Fault α) : Prop := ∀ f, r = .error f → s.Locates f

@[simp] theorem faultsIn_ok (s : Span) (a : α) : FaultsIn s (.ok a : Except Fault α) :=
  fun f h => absurd h (by simp)

@[simp] theorem faultsIn_error_iff {s : Span} {f : Fault} :
    FaultsIn s (.error f : Except Fault α) ↔ s.Locates f := by
  constructor
  · exact fun h => h f rfl
  · intro h g hg
    obtain rfl := Except.error.inj hg
    exact h

@[simp] theorem faultsIn_map_iff {s : Span} {r : Except Fault α} {g : α → β} :
    FaultsIn s (r.map g) ↔ FaultsIn s r := by
  simp only [FaultsIn, map_eq_error_iff]

theorem FaultsIn.handOn {s : Span} {r : Except Fault α} {f : Fault} (h : FaultsIn s r)
    (hr : r = .error f) : FaultsIn s (.error f : Except Fault β) :=
  faultsIn_error_iff.mpr (h f hr)

theorem Span.Within.faultsIn {inner outer : Span} (h : inner.Within outer) {r : Except Fault α}
    (hr : FaultsIn inner r) : FaultsIn outer r :=
  fun f hf => h.locates (hr f hf)

/-! ## 3. Variables and literals -/

theorem Span.text_prefix (s : Span) : s.text.toList <+: s.chars := by
  have htext : s.text.toList = s.chars := String.toList_ofList
  exact ⟨[], (List.append_nil _).trans htext⟩

theorem faultsIn_readVariable (s : Span) (name : List Char) : FaultsIn s (readVariable s name) := by
  rw [readVariable]
  split
  · exact faultsIn_ok s _
  · exact faultsIn_error_iff.mpr (s.locates_fault s.text_prefix)

/-- A text is at fault at its first quote, or behind its second, which both have one byte: the place
behind the second is two bytes and the body from the first. -/
theorem faultsIn_readQuoted {s : Span} {q : Char} {cs : List Char} (hq : q = '\'' ∨ q = '"')
    (hs : s.chars = q :: cs) : FaultsIn s (readQuoted s q cs) := by
  rw [readQuoted]
  split
  case h_1 => exact faultsIn_error_iff.mpr (s.locates_fault ⟨q, hq, cs, hs⟩)
  case h_2 => exact faultsIn_ok s _
  case h_3 c d rest hdrop =>
    obtain ⟨hcs, hbody, hclose⟩ := Text.takeWhile_and_dropWhile_iff.mp ⟨rfl, hdrop⟩
    have hc : c = q := by simpa using hclose c rfl
    subst hc
    have hsize : c.utf8Size = 1 := by rcases hq with rfl | rfl <;> rfl
    have hinside : c ∉ cs.takeWhile (· != c) := fun hmem => by simpa using hbody c hmem
    refine faultsIn_error_iff.mpr ⟨c :: cs.takeWhile (· != c) ++ [c], d :: rest, ?_, ?_, ?_⟩
    · rw [hs, List.append_assoc, List.cons_append, List.singleton_append, ← hcs]
    · rw [byteLength_append]
      simp only [byteLength, List.foldr_cons, List.foldr_nil, hsize]
      omega
    · exact ⟨c, _, [], hq, hinside, rfl, List.cons_ne_nil _ _⟩

theorem faultsIn_readLiteral (s : Span) : FaultsIn s (readLiteral s) := by
  rw [readLiteral]
  split
  case h_1 cs hs => exact faultsIn_map_iff.mpr (faultsIn_readQuoted (.inl rfl) hs)
  case h_2 cs hs => exact faultsIn_map_iff.mpr (faultsIn_readQuoted (.inr rfl) hs)
  case h_3 =>
    split
    · exact faultsIn_ok s _
    · exact fun f hf => absurd hf (readNumber_ne_error s f)

/-! ## 4. Arguments -/

theorem Span.tail_within (here : Nat) (c : Char) (cs : List Char) :
    Span.Within ⟨here + c.utf8Size, cs⟩ ⟨here, c :: cs⟩ := by
  refine ⟨[c], [], (List.append_nil _).symm, ?_⟩
  simp [byteLength]

/-- The splitter is at fault for a quote that is open to begin with, or in the span.  By induction
on the characters; the quote that is open carries its place along. -/
theorem splitAtCommas_error {here : Nat} {quote : Option (Char × Nat)} {cs : List Char}
    {f : Fault} (h : splitAtCommas here quote cs = .error f) :
    (∃ q place, quote = some (q, place) ∧ f = ⟨.unterminatedText, place⟩) ∨
      Span.Locates ⟨here, cs⟩ f := by
  induction cs generalizing here quote with
  | nil =>
    cases quote with
    | some open' => exact .inl ⟨open'.1, open'.2, rfl, (Except.error.inj h).symm⟩
    | none => exact absurd h (by simp [splitAtCommas])
  | cons c cs ih =>
    have htail := Span.tail_within here c cs
    cases quote with
    | some open' =>
      have hrest := map_eq_error_iff.mp h
      rcases ih hrest with ⟨q, place, hopen, rfl⟩ | hlocated
      · split at hopen
        · exact absurd hopen (Option.some_ne_none _).symm
        · exact .inl ⟨open'.1, open'.2, rfl, by rw [(Prod.mk.inj (Option.some.inj hopen)).2]⟩
      · exact .inr (htail.locates hlocated)
    | none =>
      refine .inr ?_
      simp only [splitAtCommas] at h
      split at h
      · rcases ih (map_eq_error_iff.mp h) with ⟨_, _, hnone, -⟩ | hlocated
        · exact absurd hnone (Option.some_ne_none _).symm
        · exact htail.locates hlocated
      · rcases ih (map_eq_error_iff.mp h) with ⟨q, place, hopen, rfl⟩ | hlocated
        · split at hopen
          case isTrue hquote =>
            obtain ⟨rfl, rfl⟩ := Prod.mk.inj (Option.some.inj hopen)
            exact Span.locates_fault ⟨c, hquote, cs, rfl⟩
          case isFalse => exact absurd hopen (Option.some_ne_none _).symm
        · exact htail.locates hlocated

/-- The pieces between the commas are parts of the span.  By induction on the characters. -/
theorem within_of_splitAtCommas {here : Nat} {quote : Option (Char × Nat)} {cs first : List Char}
    {more : List Span} (h : splitAtCommas here quote cs = .ok (first, more)) :
    ∀ t ∈ more, t.Within ⟨here, cs⟩ := by
  induction cs generalizing here quote first more with
  | nil =>
    cases quote with
    | some open' => exact absurd h (by simp [splitAtCommas])
    | none =>
      obtain ⟨-, rfl⟩ := Prod.mk.inj (Except.ok.inj h)
      simp
  | cons c cs ih =>
    have htail := Span.tail_within here c cs
    cases quote with
    | some open' =>
      obtain ⟨⟨first', more'⟩, hrest, heq⟩ := map_eq_ok_iff.mp h
      obtain ⟨-, rfl⟩ := Prod.mk.inj heq
      exact fun t ht => (ih hrest t ht).trans htail
    | none =>
      simp only [splitAtCommas] at h
      split at h
      · obtain ⟨⟨first', more'⟩, hrest, heq⟩ := map_eq_ok_iff.mp h
        obtain ⟨-, rfl⟩ := Prod.mk.inj heq
        intro t ht
        rcases List.mem_cons.mp ht with rfl | ht
        · exact Span.Within.trans ⟨[], _, eq_of_splitAtCommas hrest, rfl⟩ htail
        · exact (ih hrest t ht).trans htail
      · obtain ⟨⟨first', more'⟩, hrest, heq⟩ := map_eq_ok_iff.mp h
        obtain ⟨-, rfl⟩ := Prod.mk.inj heq
        exact fun t ht => (ih hrest t ht).trans htail

theorem faultsIn_splitArguments (s : Span) : FaultsIn s (splitArguments s) := by
  refine faultsIn_map_iff.mpr fun f hf => ?_
  rcases splitAtCommas_error hf with ⟨_, _, hnone, -⟩ | hlocated
  · exact absurd hnone (Option.some_ne_none _).symm
  · exact hlocated

theorem within_of_splitArguments {s : Span} {spans : List Span}
    (h : splitArguments s = .ok spans) : ∀ t ∈ spans, t.Within s := by
  obtain ⟨⟨first, more⟩, hcut, rfl⟩ := map_eq_ok_iff.mp h
  intro t ht
  rcases List.mem_cons.mp ht with rfl | ht
  · exact ⟨[], _, eq_of_splitAtCommas hcut, rfl⟩
  · exact within_of_splitAtCommas hcut t ht

theorem faultsIn_readOperand (s : Span) : FaultsIn s (readOperand s) := by
  apply s.trimmed_within.faultsIn
  rw [readOperand]
  split
  · exact faultsIn_error_iff.mpr (Span.locates_fault trivial)
  · exact faultsIn_map_iff.mpr (faultsIn_readVariable _ _)
  · split
    case h_1 f hread => exact (faultsIn_readLiteral _).handOn hread
    case h_2 => exact faultsIn_ok _ _
    case h_3 => exact faultsIn_error_iff.mpr (Span.locates_fault (Span.text_prefix _))

theorem within_of_splitName? {s value : Span} {x : String}
    (h : splitName? s = some (x, value)) : value.Within s := by
  rw [splitName?] at h
  split at h
  case h_1 => exact absurd h.symm (Option.some_ne_none _)
  case h_2 name rest hname =>
    obtain ⟨-, hchars, -⟩ := splitIdentifier?_eq_some_iff.mp hname
    obtain ⟨⟨equals, rest'⟩, hequals, heq⟩ := Option.map_eq_some_iff.mp h
    obtain ⟨-, rfl⟩ := Prod.mk.inj heq
    obtain ⟨_, _, -, -, -, hrest, -⟩ := splitEquals?_eq_some_iff.mp hequals
    refine Span.behind_within [] ?_
    rw [hchars, hrest, List.append_nil, List.append_assoc]

theorem faultsIn_readArgument (s : Span) : FaultsIn s (readArgument s) := by
  apply s.trimmed_within.faultsIn
  rw [readArgument]
  split
  case h_1 x value hname =>
    exact faultsIn_map_iff.mpr ((within_of_splitName? hname).faultsIn (faultsIn_readOperand value))
  case h_2 => exact faultsIn_map_iff.mpr (faultsIn_readOperand _)

theorem faultsIn_readArguments {s : Span} {spans : List Span} (h : ∀ t ∈ spans, t.Within s) :
    FaultsIn s (readArguments spans) := by
  induction spans with
  | nil => exact faultsIn_ok s _
  | cons t rest ih =>
    have hfirst := (h t List.mem_cons_self).faultsIn (faultsIn_readArgument t)
    rw [readArguments]
    split
    case h_1 f hread => exact hfirst.handOn hread
    case h_2 => exact faultsIn_map_iff.mpr (ih fun u hu => h u (List.mem_cons_of_mem t hu))

/-! ## 5. Values and expressions -/

theorem faultsIn_readCall (s : Span) : FaultsIn s (readCall s) := by
  have hunsupported : s.Locates (s.fault (.unsupported s.text)) := s.locates_fault s.text_prefix
  rw [readCall]
  split
  case h_1 => exact faultsIn_error_iff.mpr hunsupported
  case h_2 name rest hname =>
    split
    case h_1 => exact faultsIn_error_iff.mpr hunsupported
    case h_2 front inner hrest =>
      have hinner : (s.behind (name ++ front) inner).Within s := by
        obtain ⟨-, hchars, -⟩ := splitIdentifier?_eq_some_iff.mp hname
        rcases splitParentheses?_eq_some_iff.mp hrest with ⟨-, rfl, rfl⟩ | ⟨a, -, rfl, rfl⟩
        · exact Span.behind_within [] (by rw [hchars]; simp)
        · exact Span.behind_within [')'] (by rw [hchars]; simp)
      split
      · exact faultsIn_ok s _
      · split
        case h_1 f hsplit => exact (hinner.faultsIn (faultsIn_splitArguments _)).handOn hsplit
        case h_2 spans hsplit =>
          refine faultsIn_map_iff.mpr (faultsIn_readArguments fun t ht => ?_)
          exact (within_of_splitArguments hsplit t ht).trans hinner

theorem faultsIn_readValue (s : Span) : FaultsIn s (readValue s) := by
  apply s.trimmed_within.faultsIn
  rw [readValue]
  split
  · exact faultsIn_error_iff.mpr (Span.locates_fault trivial)
  · exact faultsIn_map_iff.mpr (faultsIn_readVariable _ _)
  · split
    case h_1 f hread => exact (faultsIn_readLiteral _).handOn hread
    case h_2 => exact faultsIn_ok _ _
    case h_3 => exact faultsIn_readCall _

/-- The target of an assignment is split off as the name of an argument is, behind its `#`. -/
theorem splitAssignment?_cons (k : Nat) (cs : List Char) :
    splitAssignment? ⟨k, '#' :: cs⟩ = splitName? ⟨k + 1, cs⟩ := by
  have hplace : ∀ front, k + byteLength ('#' :: front) = k + 1 + byteLength front :=
    fun front => (Nat.add_assoc _ _ _).symm
  cases hname : splitIdentifier? cs with
  | none => simp only [splitAssignment?, splitName?, hname]
  | some split =>
    simp only [splitAssignment?, splitName?, hname, Span.behind, List.cons_append, hplace]

theorem splitAssignment?_eq_none {s : Span} (h : ∀ r, s.chars ≠ '#' :: r) :
    splitAssignment? s = none := by
  rw [splitAssignment?]
  split
  case h_1 r heq => exact absurd heq (h r)
  case h_2 => rfl

theorem within_of_splitAssignment? {s value : Span} {x : String}
    (h : splitAssignment? s = some (x, value)) : value.Within s := by
  obtain ⟨k, cs⟩ := s
  by_cases hsharp : ∃ r, cs = '#' :: r
  · obtain ⟨r, rfl⟩ := hsharp
    rw [splitAssignment?_cons] at h
    exact (within_of_splitName? h).trans (Span.tail_within k '#' r)
  · rw [splitAssignment?_eq_none fun r hr => hsharp ⟨r, hr⟩] at h
    exact absurd h.symm (Option.some_ne_none _)

/-- **The faults of a text are where they are said to be.** -/
theorem faultsIn_readChars (cs : List Char) : FaultsIn ⟨0, cs⟩ (readChars cs) := by
  apply (Span.trimmed_within ⟨0, cs⟩).faultsIn
  rw [readChars]
  split
  · exact faultsIn_error_iff.mpr (Span.locates_fault trivial)
  · split
    case h_1 x value hsplit =>
      exact faultsIn_map_iff.mpr
        ((within_of_splitAssignment? hsplit).faultsIn (faultsIn_readValue value))
    case h_2 => exact faultsIn_readValue _

/-- **No text is at fault for a number in it.**  It is a matter of places too: the problem is one
that stands nowhere, and every fault of a text stands where it is. -/
theorem sparesNumbers_readChars (cs : List Char) (t : String) (place : Nat) :
    readChars cs ≠ .error ⟨.invalidNumber t, place⟩ := by
  intro h
  obtain ⟨_, _, -, -, hstands⟩ := faultsIn_readChars cs _ h
  exact hstands

end LivingDoc.Expression
