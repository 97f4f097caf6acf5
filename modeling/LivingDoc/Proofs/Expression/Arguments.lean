import LivingDoc.Proofs.Expression.Literals

/-!
# Arguments read by their grammar

The span between the parentheses of a call is cut at its commas before anything in it is read, and
an argument may hold commas between quotes.  What keeps the two apart is that an argument closes
each quote that it opens: the splitter is outside quotes again behind it.

* `splitAtCommas_append`: a part that closes its quotes is passed over as a whole.
* `readArgument_eq_ok_iff`: one argument.
* `readArguments_splitArguments_iff`: all of them.
-/

namespace LivingDoc.Expression

open Text (isBlank AllBlank IsTrimmed trim)

/-! ## 1. Parentheses -/

/-- **Behind the name of an operation stands nothing, or parentheses up to the end.** -/
theorem splitParentheses?_eq_some_iff {cs front inner : List Char} :
    splitParentheses? cs = some (front, inner) ↔
      AllBlank cs ∧ front = cs ∧ inner = [] ∨
        ∃ a, AllBlank a ∧ front = a ++ ['('] ∧ cs = a ++ '(' :: inner ++ [')'] := by
  constructor
  · intro h
    rw [splitParentheses?] at h
    split at h
    case h_1 hdrop =>
      obtain ⟨rfl, rfl⟩ := Prod.mk.inj (Option.some.inj h)
      exact Or.inl ⟨List.dropWhile_eq_nil_iff.mp hdrop, rfl, rfl⟩
    case h_2 r hdrop =>
      split at h
      case isTrue hlast =>
        obtain ⟨rfl, rfl⟩ := Prod.mk.inj (Option.some.inj h)
        obtain ⟨hcs, hleft, -⟩ := Text.takeWhile_and_dropWhile_iff.mp ⟨rfl, hdrop⟩
        have hr : r.dropLast ++ [')'] = r :=
          List.dropLast_append_getLast? ')' (Option.mem_def.mpr (beq_iff_eq.mp hlast))
        refine Or.inr ⟨_, hleft, rfl, ?_⟩
        rw [List.append_assoc, List.cons_append, hr]
        exact hcs
      case isFalse => exact absurd h.symm (Option.some_ne_none _)
    case h_3 => exact absurd h.symm (Option.some_ne_none _)
  · rintro (⟨hblank, rfl, rfl⟩ | ⟨a, ha, rfl, rfl⟩)
    · rw [splitParentheses?, List.dropWhile_eq_nil_iff.mpr hblank]
    · have hopen : ∀ c ∈ ('(' :: (inner ++ [')'])).head?, isBlank c = false :=
        Text.head?_cons_of (by decide) _
      obtain ⟨htake, hdrop⟩ := Text.takeWhile_and_dropWhile_iff.mpr ⟨rfl, ha, hopen⟩
      rw [List.append_assoc, List.cons_append, splitParentheses?, hdrop]
      simp [htake]

/-! ## 2. Commas -/

theorem byteLength_append (as bs : List Char) :
    byteLength (as ++ bs) = byteLength as + byteLength bs := by
  induction as with
  | nil => simp [byteLength]
  | cons a as ih =>
    simp only [byteLength, List.cons_append, List.foldr_cons] at ih ⊢
    rw [ih, Nat.add_assoc]

/-- The pieces with the commas back between them are the text that was cut, whether a quote is open
or not.  By induction on the text. -/
theorem eq_of_splitAtCommas {here : Nat} {quote : Option (Char × Nat)} {cs first : List Char}
    {more : List Span} (h : splitAtCommas here quote cs = .ok (first, more)) :
    cs = first ++ more.flatMap fun s => ',' :: s.chars := by
  induction cs generalizing here quote first more with
  | nil =>
    cases quote with
    | none =>
      obtain ⟨rfl, rfl⟩ := Prod.mk.inj (Except.ok.inj h)
      rfl
    | some open' => exact absurd h (by simp [splitAtCommas])
  | cons c cs ih =>
    cases quote with
    | some open' =>
      obtain ⟨⟨first', more'⟩, hrest, heq⟩ := map_eq_ok_iff.mp h
      obtain ⟨rfl, rfl⟩ := Prod.mk.inj heq
      rw [List.cons_append, ← ih hrest]
    | none =>
      simp only [splitAtCommas] at h
      split at h
      case isTrue hcomma =>
        obtain ⟨⟨first', more'⟩, hrest, heq⟩ := map_eq_ok_iff.mp h
        obtain ⟨rfl, rfl⟩ := Prod.mk.inj heq
        rw [hcomma, ih hrest]
        rfl
      case isFalse =>
        obtain ⟨⟨first', more'⟩, hrest, heq⟩ := map_eq_ok_iff.mp h
        obtain ⟨rfl, rfl⟩ := Prod.mk.inj heq
        rw [List.cons_append, ← ih hrest]

/-- The splitter passes over the characters, and is outside quotes behind them as before them.  The
statement has the rest of the text in it, so two such parts can be put together. -/
def PassedOver (cs : List Char) : Prop :=
  ∀ (here : Nat) (rest : List Char),
    splitAtCommas here none (cs ++ rest) =
      (splitAtCommas (here + byteLength cs) none rest).map fun (first, more) =>
        (cs ++ first, more)

theorem PassedOver.append {as bs : List Char} (ha : PassedOver as) (hb : PassedOver bs) :
    PassedOver (as ++ bs) := by
  intro here rest
  rw [List.append_assoc, ha, hb, byteLength_append, Nat.add_assoc]
  cases splitAtCommas (here + (byteLength as + byteLength bs)) none rest with
  | error => rfl
  | ok r => simp [Except.map]

theorem passedOver_of_forall {cs : List Char} (h : ∀ c ∈ cs, c ≠ ',' ∧ c ≠ '\'' ∧ c ≠ '"') :
    PassedOver cs := by
  induction cs with
  | nil =>
    intro here rest
    rw [List.nil_append, byteLength, List.foldr_nil, Nat.add_zero]
    cases splitAtCommas here none rest <;> rfl
  | cons c cs ih =>
    intro here rest
    obtain ⟨hcomma, hsingle, hdouble⟩ := h c List.mem_cons_self
    have hcs := ih (fun d hd => h d (List.mem_cons_of_mem c hd)) (here + c.utf8Size) rest
    have hnext : here + byteLength (c :: cs) = here + c.utf8Size + byteLength cs :=
      (Nat.add_assoc _ _ _).symm
    rw [List.cons_append, splitAtCommas, if_neg hcomma, if_neg (not_or.mpr ⟨hsingle, hdouble⟩),
      hcs, hnext]
    cases splitAtCommas (here + c.utf8Size + byteLength cs) none rest <;> rfl

/-- The end of a quoted text is passed over, up to its quote.  By induction on the body, with the
quote open. -/
theorem splitAtCommas_quoted {q : Char} {body : List Char} (h : q ∉ body) (place here : Nat)
    (rest : List Char) :
    splitAtCommas here (some (q, place)) (body ++ q :: rest) =
      (splitAtCommas (here + byteLength (body ++ [q])) none rest).map fun (first, more) =>
        (body ++ q :: first, more) := by
  induction body generalizing here with
  | nil =>
    rw [List.nil_append, splitAtCommas, if_pos rfl]
    rfl
  | cons c body ih =>
    have hc : c ≠ q := fun hcq => h (hcq ▸ List.mem_cons_self)
    have hbody := ih (fun hq => h (List.mem_cons_of_mem c hq)) (here + c.utf8Size)
    have hnext : here + byteLength (c :: body ++ [q])
        = here + c.utf8Size + byteLength (body ++ [q]) := (Nat.add_assoc _ _ _).symm
    rw [List.cons_append, splitAtCommas, if_neg hc, hbody, hnext]
    cases splitAtCommas (here + c.utf8Size + byteLength (body ++ [q])) none rest <;> rfl

theorem IsToken.passedOver {cs : List Char} (h : IsToken cs) : PassedOver cs := by
  cases h with
  | @quoted q body quote inside =>
    intro here rest
    have hcomma : q ≠ ',' := by rcases quote with rfl | rfl <;> decide
    have hbody := splitAtCommas_quoted inside here (here + q.utf8Size) rest
    have hnext : here + byteLength (q :: body ++ [q])
        = here + q.utf8Size + byteLength (body ++ [q]) := (Nat.add_assoc _ _ _).symm
    rw [List.append_assoc, List.cons_append, List.singleton_append, splitAtCommas,
      if_neg hcomma, if_pos quote, hbody, hnext]
    cases splitAtCommas (here + q.utf8Size + byteLength (body ++ [q])) none rest with
    | error => rfl
    | ok r => simp [Except.map]
  | plain _ h =>
    apply passedOver_of_forall
    intro c hc
    refine ⟨?_, ne_quote_of_isPlainChar (h c hc)⟩
    rintro rfl
    exact absurd (h _ hc) (by decide)

theorem passedOver_of_allBlank {w : List Char} (h : AllBlank w) : PassedOver w := by
  apply passedOver_of_forall
  intro c hc
  refine ⟨?_, ?_, ?_⟩ <;>
  · rintro rfl
    exact absurd (h _ hc) (by decide)

/-- **An argument is passed over**: it has no comma outside its quotes.  It is made of blank space,
tokens and an equals sign, each of which is passed over. -/
theorem DerivesArgument.passedOver {cs : List Char} {a : WrittenArgument}
    (h : DerivesArgument cs a) : PassedOver cs := by
  cases h with
  | positional before operand behind =>
    exact ((passedOver_of_allBlank before).append operand.token.passedOver).append
      (passedOver_of_allBlank behind)
  | named before identifier left right operand behind =>
    have hsign : PassedOver ['='] := by
      apply passedOver_of_forall
      intro c hc
      obtain rfl := List.mem_singleton.mp hc
      decide
    have hequals := (passedOver_of_allBlank left).append
      (hsign.append (passedOver_of_allBlank right))
    have hargument := (identifier.token.passedOver.append hequals).append operand.token.passedOver
    exact ((passedOver_of_allBlank before).append hargument).append
      (passedOver_of_allBlank behind)

/-! ## 3. One argument -/

theorem Span.trimmed_eq (s : Span) {cs : List Char}
    (h : trim s.chars = cs) : s.trimmed = ⟨s.trimmed.start, cs⟩ := by
  subst h
  rfl

theorem DerivesLiteral.ne_cons {cs : List Char} {v : Value} (h : DerivesLiteral cs v)
    (name : List Char) : cs ≠ '#' :: name := by
  rintro rfl
  have hread : readLiteral ⟨0, '#' :: name⟩ = .ok (some v) := readLiteral_eq_ok_some_iff.mpr h
  have hdecimal : isDecimal '#' = false := by decide
  simp [readLiteral, readWord?, readNumber, isNumber, hdecimal] at hread

/-- **An operand is read if and only if what trimming leaves of it is derived.**  Where the span
starts does not matter to success, only to the places of faults. -/
theorem readOperand_eq_ok_iff {s : Span} {o : Operand} :
    readOperand s = .ok o ↔ DerivesOperand (trim s.chars) o := by
  have ht : s.trimmed.chars = trim s.chars := rfl
  rw [← ht, readOperand]
  generalize s.trimmed = t
  obtain ⟨k, cs⟩ := t
  dsimp only
  constructor
  · intro h
    split at h
    case h_1 => exact absurd h (by simp)
    case h_2 name =>
      obtain ⟨x, hread, rfl⟩ := map_eq_ok_iff.mp h
      obtain ⟨hname, rfl⟩ := readVariable_eq_ok_iff.mp hread
      exact .var hname
    case h_3 =>
      split at h
      case h_1 => exact absurd h (by simp)
      case h_2 v hread =>
        obtain rfl := Except.ok.inj h
        exact .literal (readLiteral_eq_ok_some_iff.mp hread)
      case h_3 => exact absurd h (by simp)
  · intro h
    cases h with
    | var hname => exact map_eq_ok_iff.mpr ⟨_, readVariable_eq_ok_iff.mpr ⟨hname, rfl⟩, rfl⟩
    | literal hliteral =>
      split
      case h_1 => exact absurd rfl hliteral.token.ne_nil
      case h_2 name => exact absurd rfl (hliteral.ne_cons name)
      case h_3 =>
        have hread : readLiteral ⟨k, cs⟩ = _ := readLiteral_eq_ok_some_iff.mpr hliteral
        rw [hread]

theorem DerivesOperand.reads {cs : List Char} {o : Operand} (h : DerivesOperand cs o) (k : Nat) :
    readOperand ⟨k, cs⟩ = .ok o := by
  refine readOperand_eq_ok_iff.mpr ?_
  rw [h.token.isTrimmed.trim_self]
  exact h

/-- The name of an argument is an identifier with an equals sign behind it. -/
theorem exists_of_splitName? {s value : Span} {x : String}
    (h : splitName? s = some (x, value)) :
    ∃ name a b, IsIdentifier name ∧ AllBlank a ∧ AllBlank b ∧ x = String.ofList name
      ∧ s.chars = name ++ (a ++ '=' :: b) ++ value.chars := by
  rw [splitName?] at h
  split at h
  case h_1 => exact absurd h.symm (Option.some_ne_none _)
  case h_2 name rest hname =>
    obtain ⟨hidentifier, hchars, -⟩ := splitIdentifier?_eq_some_iff.mp hname
    obtain ⟨⟨equals, rest'⟩, hequals, heq⟩ := Option.map_eq_some_iff.mp h
    obtain ⟨rfl, rfl⟩ := Prod.mk.inj heq
    obtain ⟨a, b, ha, hb, rfl, rfl, -⟩ := splitEquals?_eq_some_iff.mp hequals
    rw [← List.append_assoc] at hchars
    exact ⟨name, a, b, hidentifier, ha, hb, rfl, hchars⟩

theorem splitName?_of_identifier {name a b cs : List Char} (h : IsIdentifier name)
    (ha : AllBlank a) (hb : AllBlank b) (hcs : ∀ c ∈ cs.head?, isBlank c = false) (k : Nat) :
    ∃ k', splitName? ⟨k, name ++ (a ++ '=' :: b) ++ cs⟩ = some (String.ofList name, ⟨k', cs⟩) := by
  have hname : splitIdentifier? (name ++ (a ++ '=' :: b) ++ cs)
      = some (name, a ++ '=' :: (b ++ cs)) := by
    rw [List.append_assoc, List.append_assoc, List.cons_append]
    exact h.split_append ha (by decide) _
  have hequals : splitEquals? (a ++ '=' :: (b ++ cs)) = some (a ++ '=' :: b, cs) :=
    splitEquals?_eq_some_iff.mpr ⟨a, b, ha, hb, rfl, by simp, hcs⟩
  exact ⟨_, by rw [splitName?, hname]; exact Option.map_eq_some_iff.mpr ⟨_, hequals, rfl⟩⟩

theorem IsIdentifier.splitName?_eq_none {name : List Char} (h : IsIdentifier name) (k : Nat) :
    splitName? ⟨k, name⟩ = none := by
  rw [splitName?, h.split]
  rfl

/-- An operand has no name in front of it, for no identifier in it has an equals sign behind it.  So
an argument by position is not taken for one by name. -/
theorem DerivesOperand.splitName?_eq_none {cs : List Char} {o : Operand}
    (h : DerivesOperand cs o) (k : Nat) : splitName? ⟨k, cs⟩ = none := by
  have hhead : ∀ {ds : List Char}, (∀ c ∈ ds.head?, isIdentifierStart c = false) →
      splitName? ⟨k, ds⟩ = none := by
    intro ds hds
    rw [splitName?, splitIdentifier?_eq_none hds]
  cases h with
  | var => exact hhead (Text.head?_cons_of (by decide) _)
  | literal h =>
    cases h with
    | text quote =>
      refine hhead (Text.head?_cons_of ?_ _)
      rcases quote with rfl | rfl <;> decide
    | word h => exact h.identifier.splitName?_eq_none k
    | number h => exact hhead h.numeral.head

/-- **An argument is read if and only if it is derived.** -/
theorem readArgument_eq_ok_iff {s : Span} {a : WrittenArgument} :
    readArgument s = .ok a ↔ DerivesArgument s.chars a := by
  constructor
  · intro h
    obtain ⟨w, v, hw, hv, hs⟩ := Text.exists_trim s.chars
    rw [readArgument] at h
    rw [hs]
    split at h
    case h_1 x value hname =>
      obtain ⟨name, l, r, hidentifier, hl, hr, rfl, hchars⟩ := exists_of_splitName? hname
      obtain ⟨o, hread, rfl⟩ := map_eq_ok_iff.mp h
      obtain ⟨w', v', hw', hv', hvalue⟩ := Text.exists_trim value.chars
      -- The blank space around the operand belongs to the equals sign and to the end.
      have hargument := DerivesArgument.named hw hidentifier hl (hr.append hw')
        (readOperand_eq_ok_iff.mp hread) (hv'.append hv)
      have htext : trim s.chars = name ++ (l ++ '=' :: r) ++ value.chars := hchars
      rw [htext, hvalue]
      simpa using hargument
    case h_2 =>
      obtain ⟨o, hread, rfl⟩ := map_eq_ok_iff.mp h
      have hoperand : DerivesOperand (trim (trim s.chars)) o := readOperand_eq_ok_iff.mp hread
      rw [(Text.isTrimmed_trim s.chars).trim_self] at hoperand
      exact .positional hw hoperand hv
  · intro h
    generalize hcs : s.chars = text at h
    cases h with
    | @positional w cs v o hw hoperand hv =>
      have htrim : trim s.chars = cs := hcs ▸ hoperand.token.isTrimmed.trim_eq hw hv
      rw [readArgument, s.trimmed_eq htrim, hoperand.splitName?_eq_none]
      exact map_eq_ok_iff.mpr ⟨o, hoperand.reads _, rfl⟩
    | @named w name l r cs v o hw hidentifier hl hr hoperand hv =>
      have htrimmed : IsTrimmed (name ++ (l ++ '=' :: r) ++ cs) :=
        hidentifier.token.isTrimmed.around hoperand.token.isTrimmed hidentifier.ne_nil
          hoperand.token.ne_nil _
      have htrim : trim s.chars = name ++ (l ++ '=' :: r) ++ cs := hcs ▸ htrimmed.trim_eq hw hv
      obtain ⟨k, hsplit⟩ := splitName?_of_identifier hidentifier hl hr
        hoperand.token.isTrimmed.front s.trimmed.start
      rw [readArgument, s.trimmed_eq htrim, hsplit]
      exact map_eq_ok_iff.mpr ⟨o, hoperand.reads _, rfl⟩

/-! ## 4. All arguments -/

theorem readArguments_cons_eq_ok_iff {s : Span} {rest : List Span}
    {as : List WrittenArgument} :
    readArguments (s :: rest) = .ok as ↔
      ∃ a more, readArgument s = .ok a ∧ readArguments rest = .ok more ∧ as = a :: more := by
  rw [readArguments]
  constructor
  · intro h
    split at h
    case h_1 => exact absurd h (by simp)
    case h_2 a ha =>
      obtain ⟨more, hmore, rfl⟩ := map_eq_ok_iff.mp h
      exact ⟨a, more, ha, hmore, rfl⟩
  · rintro ⟨a, more, ha, hmore, rfl⟩
    rw [ha]
    exact map_eq_ok_iff.mpr ⟨more, hmore, rfl⟩

/-- What is read from the pieces is derived from the text that they make up.  By induction on the
pieces behind the first. -/
theorem derivesArguments_of_readArguments {s : Span} {more : List Span}
    {as : List WrittenArgument} (h : readArguments (s :: more) = .ok as) :
    DerivesArguments (s.chars ++ more.flatMap fun t => ',' :: t.chars) as := by
  induction more generalizing s as with
  | nil =>
    obtain ⟨a, as', ha, has, rfl⟩ := readArguments_cons_eq_ok_iff.mp h
    obtain rfl := Except.ok.inj has
    rw [List.flatMap_nil, List.append_nil]
    exact .one (readArgument_eq_ok_iff.mp ha)
  | cons t more ih =>
    obtain ⟨a, as', ha, has, rfl⟩ := readArguments_cons_eq_ok_iff.mp h
    rw [List.flatMap_cons, List.cons_append]
    exact .more (readArgument_eq_ok_iff.mp ha) (ih has)

/-- What is derived is cut into pieces from which it is read.  By induction on the derivation: the
first argument is passed over, and the splitter stops at the comma behind it. -/
theorem DerivesArguments.exists_pieces {cs : List Char} {as : List WrittenArgument}
    (h : DerivesArguments cs as) (here : Nat) :
    ∃ first more, splitAtCommas here none cs = .ok (first, more)
      ∧ readArguments (⟨here, first⟩ :: more) = .ok as := by
  induction h generalizing here with
  | @one cs a h =>
    refine ⟨cs, [], ?_, ?_⟩
    · have hcut := h.passedOver here []
      rw [List.append_nil] at hcut
      rw [hcut]
      simp [splitAtCommas, Except.map]
    · exact readArguments_cons_eq_ok_iff.mpr ⟨a, [], readArgument_eq_ok_iff.mpr h, rfl, rfl⟩
  | @more cs ds a as h _ ih =>
    obtain ⟨first, more, hcut, hread⟩ := ih (here + byteLength cs + (',' : Char).utf8Size)
    refine ⟨cs, ⟨here + byteLength cs + (',' : Char).utf8Size, first⟩ :: more, ?_, ?_⟩
    · rw [h.passedOver, splitAtCommas, if_pos rfl, hcut]
      simp [Except.map]
    · exact readArguments_cons_eq_ok_iff.mpr ⟨a, as, readArgument_eq_ok_iff.mpr h, hread, rfl⟩

/-- **The arguments of a call are read if and only if they are derived**, although they are cut
apart before any of them is looked at. -/
theorem readArguments_splitArguments_iff {s : Span} {as : List WrittenArgument} :
    (∃ spans, splitArguments s = .ok spans ∧ readArguments spans = .ok as) ↔
      DerivesArguments s.chars as := by
  constructor
  · rintro ⟨spans, hsplit, hread⟩
    obtain ⟨⟨first, more⟩, hcut, rfl⟩ := map_eq_ok_iff.mp hsplit
    rw [eq_of_splitAtCommas hcut]
    exact derivesArguments_of_readArguments hread
  · intro h
    obtain ⟨first, more, hcut, hread⟩ := h.exists_pieces s.start
    exact ⟨_, map_eq_ok_iff.mpr ⟨_, hcut, rfl⟩, hread⟩

end LivingDoc.Expression
