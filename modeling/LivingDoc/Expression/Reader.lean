import LivingDoc.Expression.Basic

/-!
# Reading expressions

An expression is read from spans of its text (`parse_expression`).  A span knows where it starts,
counted in bytes of the whole text, so that a fault can say where it is, whatever was trimmed or
split off before.

expression  =  [ "#" identifier "=" ] value value       =  "#" identifier  |  literal  |  identifier
[ "(" [ arguments ] ")" ] arguments   =  argument { "," argument } argument    =  [ identifier "=" ]
( "#" identifier  |  literal )

with blank space between any two parts, except behind a `#`.
-/

namespace LivingDoc.Expression

open Text (isBlank trim)

/-! ## 1. Spans -/

def byteLength (cs : List Char) : Nat := cs.foldr (fun c n => c.utf8Size + n) 0

/-- A part of a text, and the number of bytes before it. -/
structure Span where
  start : Nat
  chars : List Char
deriving DecidableEq, Repr

/-- The span without the blank space around it; what is dropped in front moves its start. -/
def Span.trimmed (s : Span) : Span :=
  ⟨s.start + byteLength (s.chars.takeWhile isBlank), trim s.chars⟩

/-- What is behind the first characters `front` of the span. -/
def Span.behind (s : Span) (front rest : List Char) : Span := ⟨s.start + byteLength front, rest⟩

def Span.text (s : Span) : String := String.ofList s.chars

def Span.fault (s : Span) (p : Problem) : Fault := ⟨p, s.start⟩

/-! ## 2. Identifiers -/

/-- A letter of ASCII or an underscore. -/
def isIdentifierStart (c : Char) : Bool := c.isAlpha || c == '_'

/-- A letter or a digit of ASCII, or an underscore. -/
def isIdentifierChar (c : Char) : Bool := c.isAlphanum || c == '_'

/-- An identifier in front of the characters, as long as it goes, and the others. -/
def splitIdentifier? : List Char → Option (List Char × List Char)
  | [] => none
  | c :: cs =>
    if isIdentifierStart c then
      some (c :: cs.takeWhile isIdentifierChar, cs.dropWhile isIdentifierChar)
    else none

/-- An equals sign with blank space around it, and the others. -/
def splitEquals? (cs : List Char) : Option (List Char × List Char) :=
  match cs.dropWhile isBlank with
  | '=' :: r =>
    some (cs.takeWhile isBlank ++ '=' :: r.takeWhile isBlank, r.dropWhile isBlank)
  | _ => none

/-- The variable that a span behind a `#` names (`variable_name`); the whole span with its `#` is at
fault if it names none. -/
def readVariable (s : Span) (name : List Char) : Except Fault String :=
  match splitIdentifier? name with
  | some (n, []) => .ok (String.ofList n)
  | _ => .error (s.fault (.invalidVariable s.text))

/-! ## 3. Literals -/

/-- A quoted text without its first quote `q`: the body, up to the next such quote, which has to be
the last character.  There are no escapes, so a text holds one kind of quote at most. -/
def readQuoted (s : Span) (q : Char) (cs : List Char) : Except Fault Value :=
  let body := cs.takeWhile (· != q)
  match cs.dropWhile (· != q) with
  | [] => .error (s.fault .unterminatedText)
  | [_] => .ok (.text (String.ofList body))
  | _ :: _ :: _ => .error ⟨.textAfterLiteral, s.start + byteLength body + 2⟩

/-- Digits, behind a minus sign or not, with or without a point and more digits: what counts as a
number before it is read as one. -/
def isNumber (cs : List Char) : Bool :=
  let ds := match cs with
    | '-' :: r => r
    | r => r
  !(ds.takeWhile isDecimal).isEmpty &&
    match ds.dropWhile isDecimal with
    | [] => true
    | '.' :: fs => !fs.isEmpty && fs.all isDecimal
    | _ => false

/-- The number that a span is, if it looks like one: an integer if it is one in range, and a float
otherwise. -/
def readNumber (s : Span) : Except Fault (Option Value) :=
  if isNumber s.chars then
    match readInt64? s.chars with
    | some n => .ok (some (.int n))
    | none =>
      match Binary64.read? s.chars with
      | some x => .ok (some (.float x))
      | none => .error (s.fault (.invalidNumber s.text))
  else .ok none

/-- The words that are literals. -/
def readWord? (cs : List Char) : Option Value :=
  if cs = "true".toList then some (.bool true)
  else if cs = "false".toList then some (.bool false)
  else if cs = "null".toList then some .null
  else none

/-- The literal that a span is, if it looks like one (`literal`).  A text in quotes that is broken
is a fault at once and not tried as something else. -/
def readLiteral (s : Span) : Except Fault (Option Value) :=
  match s.chars with
  | '\'' :: cs => (readQuoted s '\'' cs).map some
  | '"' :: cs => (readQuoted s '"' cs).map some
  | cs =>
    match readWord? cs with
    | some v => .ok (some v)
    | none => readNumber s

/-! ## 4. Arguments -/

/-- The characters up to the first comma outside quotes, and the spans between the other such
commas.  The characters start at byte `here`; `quote` is the open quote with its place, which is the
place at fault if it stays open. -/
def splitAtCommas (here : Nat) (quote : Option (Char × Nat)) :
    List Char → Except Fault (List Char × List Span)
  | [] =>
    match quote with
    | some (_, place) => .error ⟨.unterminatedText, place⟩
    | none => .ok ([], [])
  | c :: cs =>
    let next := here + c.utf8Size
    match quote with
    | some (q, place) =>
      (splitAtCommas next (if c = q then none else some (q, place)) cs).map
        fun (first, more) => (c :: first, more)
    | none =>
      if c = ',' then
        (splitAtCommas next none cs).map fun (first, more) => ([], ⟨next, first⟩ :: more)
      else
        (splitAtCommas next (if c = '\'' ∨ c = '"' then some (c, here) else none) cs).map
          fun (first, more) => (c :: first, more)

/-- The spans between the commas of a span (`split_arguments`), before any of them is read. -/
def splitArguments (s : Span) : Except Fault (List Span) :=
  (splitAtCommas s.start none s.chars).map fun (first, more) => ⟨s.start, first⟩ :: more

/-- A variable or a literal (`parse_operand`); a call is neither, so calls do not nest. -/
def readOperand (s : Span) : Except Fault Operand :=
  let t := s.trimmed
  match t.chars with
  | [] => .error (t.fault .argumentMissing)
  | '#' :: name => (readVariable t name).map .var
  | _ =>
    match readLiteral t with
    | .error f => .error f
    | .ok (some v) => .ok (.literal v)
    | .ok none => .error (t.fault (.unsupportedArgument t.text))

/-- The name in front of an argument with the span behind it, if the argument has one.  Without an
equals sign behind it a name is no name of an argument, and then the whole is read as an operand. -/
def splitName? (s : Span) : Option (String × Span) :=
  match splitIdentifier? s.chars with
  | none => none
  | some (name, rest) =>
    (splitEquals? rest).map fun (equals, value) =>
      (String.ofList name, s.behind (name ++ equals) value)

def readArgument (s : Span) : Except Fault WrittenArgument :=
  let t := s.trimmed
  match splitName? t with
  | some (name, value) => (readOperand value).map fun o => ⟨some name, o⟩
  | none => (readOperand t).map fun o => ⟨none, o⟩

/-- Arguments from left to right. -/
def readArguments : List Span → Except Fault (List WrittenArgument)
  | [] => .ok []
  | s :: rest =>
    match readArgument s with
    | .error f => .error f
    | .ok a => (readArguments rest).map fun more => a :: more

/-! ## 5. Values and expressions -/

/-- The parentheses behind an operation's name, with what stands before the span between them:
nothing at all, or an opening one and a closing one at the very end.  What is in between is not
looked at. -/
def splitParentheses? (cs : List Char) : Option (List Char × List Char) :=
  match cs.dropWhile isBlank with
  | [] => some (cs, [])
  | '(' :: r =>
    if r.getLast? == some ')' then some (cs.takeWhile isBlank ++ ['('], r.dropLast) else none
  | _ => none

/-- A call of an operation.  A name alone is a call without arguments, and a closing parenthesis has
to be the last character of the span. -/
def readCall (s : Span) : Except Fault Expression :=
  match splitIdentifier? s.chars with
  | none => .error (s.fault (.unsupported s.text))
  | some (name, rest) =>
    match splitParentheses? rest with
    | none => .error (s.fault (.unsupported s.text))
    | some (front, inner) =>
      if (trim inner).isEmpty then .ok (.call (String.ofList name) [])
      else
        match splitArguments (s.behind (name ++ front) inner) with
        | .error f => .error f
        | .ok spans => (readArguments spans).map fun as => .call (String.ofList name) as

/-- A variable, a literal or a call (`parse_value`). -/
def readValue (s : Span) : Except Fault Expression :=
  let t := s.trimmed
  match t.chars with
  | [] => .error (t.fault .valueMissing)
  | '#' :: name => (readVariable t name).map .var
  | _ =>
    match readLiteral t with
    | .error f => .error f
    | .ok (some v) => .ok (.literal v)
    | .ok none => readCall t

/-- The variable that a span assigns to with the span behind the equals sign, if it does.  This much
decides that the text is an assignment; the rest is read as a value, where a second equals sign
finds no place. -/
def splitAssignment? (s : Span) : Option (String × Span) :=
  match s.chars with
  | '#' :: cs =>
    match splitIdentifier? cs with
    | none => none
    | some (name, rest) =>
      (splitEquals? rest).map fun (equals, value) =>
        (String.ofList name, s.behind ('#' :: name ++ equals) value)
  | _ => none

def readChars (cs : List Char) : Except Fault Expression :=
  let t := Span.trimmed ⟨0, cs⟩
  if t.chars.isEmpty then .error (t.fault .empty)
  else
    match splitAssignment? t with
    | some (name, value) => (readValue value).map fun e => .assign name e
    | none => readValue t

/-- Read an expression, or find the first fault in it. -/
def read (text : String) : Except Fault Expression := readChars text.toList

end LivingDoc.Expression
