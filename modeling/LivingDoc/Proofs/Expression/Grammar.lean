import LivingDoc.Expression.Reader
import LivingDoc.Proofs.Text.Trimming

/-!
# The grammar of expressions

Which texts are expressions, said without a reader: one rule for each way to write something, and
with it what was written.  Blank space may stand between any two parts but behind a `#`, and a
quoted text holds anything but its own quote.

* `Derives`: a text says an expression.
* `DerivesOperand.token`: what stands for an argument is a quoted text or has plain characters only.
* `DerivesValue.isTrimmed`: a value has no blank space around it.
-/

namespace LivingDoc.Expression

open Text (isBlank AllBlank IsTrimmed)

/-! ## 1. Names and numbers -/

/-- A letter or an underscore, and behind it letters, digits and underscores. -/
inductive IsIdentifier : List Char → Prop where
  | mk {c : Char} {cs : List Char} (start : isIdentifierStart c = true)
      (others : ∀ d ∈ cs, isIdentifierChar d = true) : IsIdentifier (c :: cs)

/-- One digit or more. -/
structure IsDigits (ds : List Char) : Prop where
  nonempty : ds ≠ []
  decimal : ∀ d ∈ ds, isDecimal d = true

/-- A minus sign or none. -/
def minus (negative : Bool) : List Char := if negative then ['-'] else []

/-- The number with that sign. -/
def signed (negative : Bool) (n : Nat) : Int := if negative then -n else n

/-- A whole number as it is written, and which it is. -/
inductive SpellsInteger : List Char → Int → Prop where
  | mk {ds : List Char} (negative : Bool) (digits : IsDigits ds) :
      SpellsInteger (minus negative ++ ds) (signed negative (digitsValue 10 ds))

/-- What a number looks like, with a point or without. -/
inductive IsNumeral : List Char → Prop where
  | whole {cs : List Char} {i : Int} (h : SpellsInteger cs i) : IsNumeral cs
  | pointed {cs fs : List Char} {i : Int} (h : SpellsInteger cs i) (fraction : IsDigits fs) :
      IsNumeral (cs ++ '.' :: fs)

/-- A number is an integer where it is one in range, and the float that its text reads as otherwise.
The second rule excludes the first, so a number has one value; which float a text reads as is a
matter of binary64 and no rule of this grammar. -/
inductive DerivesNumber : List Char → Value → Prop where
  | int {cs : List Char} {n : Int64} (h : SpellsInteger cs n.toInt) : DerivesNumber cs (.int n)
  | float {cs : List Char} {x : Binary64} (h : IsNumeral cs)
      (outside : ∀ n : Int64, ¬SpellsInteger cs n.toInt) (reads : Binary64.read? cs = some x) :
      DerivesNumber cs (.float x)

/-! ## 2. Expressions -/

/-- A word that is a literal: a truth value, or null. -/
inductive DerivesWord : List Char → Value → Prop where
  | isTrue : DerivesWord "true".toList (.bool true)
  | isFalse : DerivesWord "false".toList (.bool false)
  | null : DerivesWord "null".toList .null

/-- A literal: a quoted text, a word or a number.  Between the quotes stands anything but that
quote. -/
inductive DerivesLiteral : List Char → Value → Prop where
  | text {q : Char} {body : List Char} (quote : q = '\'' ∨ q = '"') (inside : q ∉ body) :
      DerivesLiteral (q :: body ++ [q]) (.text (String.ofList body))
  | word {cs : List Char} {v : Value} (h : DerivesWord cs v) : DerivesLiteral cs v
  | number {cs : List Char} {v : Value} (h : DerivesNumber cs v) : DerivesLiteral cs v

/-- What can stand for an argument: a variable or a literal.  There is no rule for a call, so calls
do not nest. -/
inductive DerivesOperand : List Char → Operand → Prop where
  | var {name : List Char} (h : IsIdentifier name) :
      DerivesOperand ('#' :: name) (.var (String.ofList name))
  | literal {cs : List Char} {v : Value} (h : DerivesLiteral cs v) :
      DerivesOperand cs (.literal v)

/-- An argument, with the blank space around it, by position or behind the name of a parameter. -/
inductive DerivesArgument : List Char → WrittenArgument → Prop where
  | positional {w cs v : List Char} {o : Operand} (before : AllBlank w)
      (operand : DerivesOperand cs o) (behind : AllBlank v) :
      DerivesArgument (w ++ cs ++ v) ⟨none, o⟩
  | named {w name a b cs v : List Char} {o : Operand} (before : AllBlank w)
      (identifier : IsIdentifier name) (left : AllBlank a) (right : AllBlank b)
      (operand : DerivesOperand cs o) (behind : AllBlank v) :
      DerivesArgument (w ++ (name ++ (a ++ '=' :: b) ++ cs) ++ v) ⟨some (String.ofList name), o⟩

/-- One argument or more with commas between them. -/
inductive DerivesArguments : List Char → List WrittenArgument → Prop where
  | one {cs : List Char} {a : WrittenArgument} (h : DerivesArgument cs a) :
      DerivesArguments cs [a]
  | more {cs ds : List Char} {a : WrittenArgument} {as : List WrittenArgument}
      (h : DerivesArgument cs a) (rest : DerivesArguments ds as) :
      DerivesArguments (cs ++ ',' :: ds) (a :: as)

/-- What can be assigned to a variable: a variable, a literal or a call.  There is no rule for an
assignment, so assignments do not nest. -/
inductive DerivesValue : List Char → Expression → Prop where
  | var {name : List Char} (h : IsIdentifier name) :
      DerivesValue ('#' :: name) (.var (String.ofList name))
  | literal {cs : List Char} {v : Value} (h : DerivesLiteral cs v) : DerivesValue cs (.literal v)
  | bare {name : List Char} (h : IsIdentifier name) (noWord : ∀ v, ¬DerivesWord name v) :
      DerivesValue name (.call (String.ofList name) [])
  | empty {name a b : List Char} (h : IsIdentifier name) (left : AllBlank a)
      (inside : AllBlank b) :
      DerivesValue (name ++ (a ++ '(' :: b) ++ [')']) (.call (String.ofList name) [])
  | call {name a cs : List Char} {as : List WrittenArgument} (h : IsIdentifier name)
      (left : AllBlank a) (arguments : DerivesArguments cs as) :
      DerivesValue (name ++ (a ++ '(' :: cs) ++ [')']) (.call (String.ofList name) as)

/-- A text says an expression: a value or an assignment, with blank space around it.  It is the
grammar of the specification (4.2), with the blank space that the reader allows. -/
inductive Derives : List Char → Expression → Prop where
  | value {w cs v : List Char} {e : Expression} (before : AllBlank w) (h : DerivesValue cs e)
      (behind : AllBlank v) : Derives (w ++ cs ++ v) e
  | assign {w name a b cs v : List Char} {e : Expression} (before : AllBlank w)
      (identifier : IsIdentifier name) (left : AllBlank a) (right : AllBlank b)
      (h : DerivesValue cs e) (behind : AllBlank v) :
      Derives (w ++ ('#' :: name ++ (a ++ '=' :: b) ++ cs) ++ v)
        (.assign (String.ofList name) e)

/-! ## 3. The characters outside quotes -/

/-- The characters of variables, words and numbers. -/
def isPlainChar (c : Char) : Bool := isIdentifierChar c || c == '#' || c == '-' || c == '.'

theorem isIdentifierChar_of_isIdentifierStart {c : Char} (h : isIdentifierStart c = true) :
    isIdentifierChar c = true := by
  simp only [isIdentifierStart, isIdentifierChar, Char.isAlphanum, Bool.or_eq_true] at *
  exact h.imp_left Or.inl

theorem isDigit_of_isDecimal {c : Char} (h : isDecimal c = true) : c.isDigit = true := by
  simp only [isDecimal, isDigitOf, Bool.or_eq_true, Bool.and_eq_true, decide_eq_true_eq] at h
  rcases h with ⟨hrange, -⟩ | ⟨hbase, -⟩
  · simpa [Char.isDigit, Char.le_def] using hrange
  · exact absurd hbase (by decide)

theorem isIdentifierChar_of_isDecimal {c : Char} (h : isDecimal c = true) :
    isIdentifierChar c = true := by
  simp [isIdentifierChar, Char.isAlphanum, isDigit_of_isDecimal h]

theorem toNat_of_isAlpha {c : Char} (h : c.isAlpha = true) :
    65 ≤ c.toNat ∧ c.toNat ≤ 90 ∨ 97 ≤ c.toNat ∧ c.toNat ≤ 122 := by
  have halpha : c.isAlpha = (decide (c.val ≥ 'A'.val ∧ c.val ≤ 'Z'.val) ||
      decide (c.val ≥ 'a'.val) && decide (c.val ≤ 'z'.val)) := rfl
  have hval : c.toNat = c.val.toNat := rfl
  simp only [halpha, Bool.or_eq_true, Bool.and_eq_true, decide_eq_true_eq, ge_iff_le,
    UInt32.le_iff_toNat_le, Char.reduceVal, UInt32.reduceToNat] at h
  omega

theorem toNat_of_isDigit {c : Char} (h : c.isDigit = true) : 48 ≤ c.toNat ∧ c.toNat ≤ 57 := by
  have hval : c.toNat = c.val.toNat := rfl
  simp only [Char.isDigit, Bool.and_eq_true, decide_eq_true_eq, ge_iff_le,
    UInt32.le_iff_toNat_le, Char.reduceVal, UInt32.reduceToNat] at h
  omega

theorem isIdentifierStart_of_isDecimal {c : Char} (h : isDecimal c = true) :
    isIdentifierStart c = false := by
  have hdigit := toNat_of_isDigit (isDigit_of_isDecimal h)
  by_contra hstart
  rw [Bool.not_eq_false, isIdentifierStart, Bool.or_eq_true, beq_iff_eq] at hstart
  rcases hstart with halpha | rfl
  · have hletter := toNat_of_isAlpha halpha
    omega
  · exact absurd h (by decide)

/-- Plain characters stand between the blank space and the other controls of the first 128, so none
of them is blank and none is a quote, a comma or a parenthesis. -/
theorem toNat_of_isPlainChar {c : Char} (h : isPlainChar c = true) :
    32 < c.toNat ∧ c.toNat < 127 := by
  simp only [isPlainChar, isIdentifierChar, Char.isAlphanum, Bool.or_eq_true, beq_iff_eq] at h
  rcases h with ((((halpha | hdigit) | rfl) | rfl) | rfl) | rfl
  · have hletter := toNat_of_isAlpha halpha
    omega
  · have hrange := toNat_of_isDigit hdigit
    omega
  · decide
  · decide
  · decide
  · decide

theorem isBlank_of_isPlainChar {c : Char} (h : isPlainChar c = true) : isBlank c = false := by
  have hrange := toNat_of_isPlainChar h
  by_contra hblank
  simp only [isBlank, Bool.not_eq_false, Bool.or_eq_true, Bool.and_eq_true, decide_eq_true_eq,
    beq_iff_eq] at hblank
  omega

theorem IsIdentifier.plain {cs : List Char} (h : IsIdentifier cs) :
    ∀ c ∈ cs, isPlainChar c = true := by
  obtain ⟨start, others⟩ := h
  intro d hd
  have hchar : isIdentifierChar d = true := by
    rcases List.mem_cons.mp hd with rfl | hd
    · exact isIdentifierChar_of_isIdentifierStart start
    · exact others d hd
  simp [isPlainChar, hchar]

theorem IsIdentifier.ne_nil {cs : List Char} (h : IsIdentifier cs) : cs ≠ [] := by
  cases h
  exact List.cons_ne_nil _ _

theorem IsDigits.plain {ds : List Char} (h : IsDigits ds) : ∀ d ∈ ds, isPlainChar d = true := by
  intro d hd
  simp [isPlainChar, isIdentifierChar_of_isDecimal (h.decimal d hd)]

theorem SpellsInteger.plain {cs : List Char} {i : Int} (h : SpellsInteger cs i) :
    ∀ c ∈ cs, isPlainChar c = true := by
  obtain ⟨negative, digits⟩ := h
  intro c hc
  rcases List.mem_append.mp hc with hminus | hdigit
  · cases negative with
    | false => exact absurd hminus List.not_mem_nil
    | true =>
      obtain rfl := List.mem_singleton.mp hminus
      decide
  · exact digits.plain c hdigit

theorem IsNumeral.plain {cs : List Char} (h : IsNumeral cs) :
    ∀ c ∈ cs, isPlainChar c = true := by
  cases h with
  | whole h => exact h.plain
  | pointed h fraction =>
    intro c hc
    rcases List.mem_append.mp hc with hc | hc
    · exact h.plain c hc
    · rcases List.mem_cons.mp hc with rfl | hc
      · decide
      · exact fraction.plain c hc

theorem SpellsInteger.ne_nil {cs : List Char} {i : Int} (h : SpellsInteger cs i) : cs ≠ [] := by
  obtain ⟨negative, digits⟩ := h
  exact List.append_ne_nil_of_right_ne_nil _ digits.nonempty

theorem IsNumeral.ne_nil {cs : List Char} (h : IsNumeral cs) : cs ≠ [] := by
  cases h with
  | whole h => exact h.ne_nil
  | pointed h => exact List.append_ne_nil_of_left_ne_nil h.ne_nil _

theorem DerivesNumber.numeral {cs : List Char} {v : Value} (h : DerivesNumber cs v) :
    IsNumeral cs := by
  cases h with
  | int h => exact .whole h
  | float h => exact h

theorem DerivesWord.identifier {cs : List Char} {v : Value} (h : DerivesWord cs v) :
    IsIdentifier cs := by
  cases h <;> exact ⟨by decide, List.all_eq_true.mp (by decide)⟩

/-- A quoted text, or plain characters.  It is all that the reader of arguments needs to know of an
operand: where it has blank space, quotes and commas. -/
inductive IsToken : List Char → Prop where
  | quoted {q : Char} {body : List Char} (quote : q = '\'' ∨ q = '"') (inside : q ∉ body) :
      IsToken (q :: body ++ [q])
  | plain {cs : List Char} (nonempty : cs ≠ []) (h : ∀ c ∈ cs, isPlainChar c = true) : IsToken cs

theorem IsIdentifier.token {cs : List Char} (h : IsIdentifier cs) : IsToken cs :=
  .plain h.ne_nil h.plain

theorem IsIdentifier.token_variable {name : List Char} (h : IsIdentifier name) :
    IsToken ('#' :: name) := by
  refine .plain (List.cons_ne_nil _ _) ?_
  intro c hc
  rcases List.mem_cons.mp hc with rfl | hc
  · decide
  · exact h.plain c hc

theorem DerivesLiteral.token {cs : List Char} {v : Value} (h : DerivesLiteral cs v) :
    IsToken cs := by
  cases h with
  | text quote inside => exact .quoted quote inside
  | word h => exact h.identifier.token
  | number h => exact .plain h.numeral.ne_nil h.numeral.plain

theorem DerivesOperand.token {cs : List Char} {o : Operand} (h : DerivesOperand cs o) :
    IsToken cs := by
  cases h with
  | var h => exact h.token_variable
  | literal h => exact h.token

/-! ## 4. The ends of what is derived -/

theorem IsToken.ne_nil {cs : List Char} (h : IsToken cs) : cs ≠ [] := by
  cases h with
  | quoted => exact List.cons_ne_nil _ _
  | plain nonempty => exact nonempty

theorem IsToken.isTrimmed {cs : List Char} (h : IsToken cs) : IsTrimmed cs := by
  cases h with
  | @quoted q body quote _ =>
    have hquote : IsTrimmed [q] := by
      apply Text.isTrimmed_singleton
      rcases quote with rfl | rfl <;> decide
    exact hquote.around hquote (List.cons_ne_nil _ _) (List.cons_ne_nil _ _) body
  | plain _ h =>
    apply Text.isTrimmed_of_visible
    intro c hc
    exact isBlank_of_isPlainChar (h c hc)

/-- A value has no blank space around it: it begins with a plain character or a quote, and ends with
one or with a parenthesis. -/
theorem DerivesValue.isTrimmed {cs : List Char} {e : Expression} (h : DerivesValue cs e) :
    IsTrimmed cs := by
  have hcall : ∀ {name : List Char}, IsIdentifier name → ∀ inner : List Char,
      IsTrimmed (name ++ inner ++ [')']) := by
    intro name hname inner
    have hclose : IsTrimmed [')'] := Text.isTrimmed_singleton (by decide)
    exact hname.token.isTrimmed.around hclose hname.ne_nil (List.cons_ne_nil _ _) inner
  cases h with
  | var h => exact h.token_variable.isTrimmed
  | literal h => exact h.token.isTrimmed
  | bare h => exact h.token.isTrimmed
  | empty h => exact hcall h _
  | call h => exact hcall h _

theorem DerivesValue.ne_nil {cs : List Char} {e : Expression} (h : DerivesValue cs e) :
    cs ≠ [] := by
  cases h with
  | var => exact List.cons_ne_nil _ _
  | literal h => exact h.token.ne_nil
  | bare h => exact h.ne_nil
  | empty => exact List.append_ne_nil_of_right_ne_nil _ (List.cons_ne_nil _ _)
  | call => exact List.append_ne_nil_of_right_ne_nil _ (List.cons_ne_nil _ _)

theorem DerivesArgument.not_allBlank {cs : List Char} {a : WrittenArgument}
    (h : DerivesArgument cs a) : ¬AllBlank cs := by
  have hoperand : ∀ {ds : List Char} {o : Operand}, DerivesOperand ds o → ¬AllBlank ds := by
    intro ds o ho hblank
    obtain ⟨c, rest, rfl⟩ := List.exists_cons_of_ne_nil ho.token.ne_nil
    have hvisible := ho.token.isTrimmed.front c rfl
    rw [hblank c List.mem_cons_self] at hvisible
    exact absurd hvisible (by decide)
  intro hblank
  cases h with
  | positional _ operand =>
    exact hoperand operand fun c hc => hblank c (by simp [hc])
  | named _ _ _ _ operand =>
    exact hoperand operand fun c hc => hblank c (by simp [hc])

theorem DerivesArguments.not_allBlank {cs : List Char} {as : List WrittenArgument}
    (h : DerivesArguments cs as) : ¬AllBlank cs := by
  cases h with
  | one h => exact h.not_allBlank
  | more h => exact fun hblank => h.not_allBlank fun c hc => hblank c (by simp [hc])

end LivingDoc.Expression
