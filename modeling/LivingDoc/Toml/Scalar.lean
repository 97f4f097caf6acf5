import LivingDoc.Toml.Basic

/-!
# Strings, numbers and dates in TOML

Each function reads one thing at the start of a text and gives the rest, or gives nothing if the
thing is not there.  The grammar is that of TOML 1.0.  Where the library that reads it departs from
it, the function says so.
-/

namespace LivingDoc.Toml

/-! ## 1. Characters -/

/-- Blank space within a line. -/
def isSpace (c : Char) : Bool := c == ' ' || c == '\t'

/-- Stands for itself in strings and comments: anything but control characters, and the tab. -/
def isPlain (c : Char) : Bool := c == '\t' || (0x20 ≤ c.toNat && c.toNat != 0x7F)

/-- Stands in a key without quotes. -/
def isBare (c : Char) : Bool := c.isAlphanum || c == '_' || c == '-'

/-- The character of a code point in hexadecimal digits; surrogates are none. -/
def codePoint? (ds : List Char) : Option Char :=
  let n := digitsValue 16 ds
  if ds.all (isDigitOf 16) && n.isValidChar then some (Char.ofNat n) else none

/-- The character that an escape letter stands for. -/
def escaped? : Char → Option Char
  | 'b' => some '\x08'
  | 't' => some '\t'
  | 'n' => some '\n'
  | 'f' => some '\x0c'
  | 'r' => some '\r'
  | '"' => some '"'
  | '\\' => some '\\'
  | _ => none

/-! ## 2. Strings -/

/-- What a reader of characters gives: the characters, and the rest of the text. -/
abbrev Chars := Option (List Char × List Char)

def Chars.cons (c : Char) (r : Chars) : Chars := r.map fun p => (c :: p.1, p.2)

/-- The inside of a string in double quotes, and the quote. -/
def readBasic : List Char → Chars
  | '"' :: cs => some ([], cs)
  | '\\' :: 'u' :: a :: b :: c :: d :: cs =>
    (codePoint? [a, b, c, d]).bind fun x => Chars.cons x (readBasic cs)
  | '\\' :: 'U' :: a :: b :: c :: d :: e :: f :: g :: h :: cs =>
    (codePoint? [a, b, c, d, e, f, g, h]).bind fun x => Chars.cons x (readBasic cs)
  | '\\' :: e :: cs => (escaped? e).bind fun x => Chars.cons x (readBasic cs)
  | c :: cs => if isPlain c then Chars.cons c (readBasic cs) else none
  | [] => none

/-- The inside of a string in single quotes, and the quote. -/
def readLiteral : List Char → Chars
  | '\'' :: cs => some ([], cs)
  | c :: cs => if isPlain c then Chars.cons c (readLiteral cs) else none
  | [] => none

/-- A backslash at the end of a line stands here. -/
def isContinued (cs : List Char) : Bool :=
  match cs.dropWhile isSpace with
  | '\n' :: _ => true
  | '\r' :: '\n' :: _ => true
  | _ => false

/-- The inside of a string in three double quotes, and the quotes.  Up to two quotes stand for
themselves, also before the quotes at the end.  A backslash at the end of a line takes the line end
and all blank space behind it away. -/
def readBasicLines : (skipping : Bool) → List Char → Chars
  | _, '"' :: '"' :: '"' :: '"' :: '"' :: cs => some (['"', '"'], cs)
  | _, '"' :: '"' :: '"' :: '"' :: cs => some (['"'], cs)
  | _, '"' :: '"' :: '"' :: cs => some ([], cs)
  | _, '\\' :: 'u' :: a :: b :: c :: d :: cs =>
    (codePoint? [a, b, c, d]).bind fun x => Chars.cons x (readBasicLines false cs)
  | _, '\\' :: 'U' :: a :: b :: c :: d :: e :: f :: g :: h :: cs =>
    (codePoint? [a, b, c, d, e, f, g, h]).bind fun x => Chars.cons x (readBasicLines false cs)
  | _, '\\' :: e :: cs =>
    if isContinued (e :: cs) then readBasicLines true (e :: cs)
    else (escaped? e).bind fun x => Chars.cons x (readBasicLines false cs)
  | true, '\r' :: '\n' :: cs => readBasicLines true cs
  | false, '\r' :: '\n' :: cs => Chars.cons '\n' (readBasicLines false cs)
  | skipping, c :: cs =>
    if skipping && (isSpace c || c == '\n') then readBasicLines true cs
    else if isPlain c || c == '\n' then Chars.cons c (readBasicLines false cs)
    else none
  | _, [] => none

/-- The inside of a string in three single quotes, and the quotes. -/
def readLiteralLines : List Char → Chars
  | '\'' :: '\'' :: '\'' :: '\'' :: '\'' :: cs => some (['\'', '\''], cs)
  | '\'' :: '\'' :: '\'' :: '\'' :: cs => some (['\''], cs)
  | '\'' :: '\'' :: '\'' :: cs => some ([], cs)
  | '\r' :: '\n' :: cs => Chars.cons '\n' (readLiteralLines cs)
  | c :: cs =>
    if isPlain c || c == '\n' then Chars.cons c (readLiteralLines cs) else none
  | [] => none

/-- The text without a line end at its start. -/
def dropLineEnd : List Char → List Char
  | '\n' :: cs => cs
  | '\r' :: '\n' :: cs => cs
  | cs => cs

/-- A string of one of the four kinds. -/
def readString : List Char → Chars
  | '"' :: '"' :: '"' :: cs => readBasicLines false (dropLineEnd cs)
  | '"' :: cs => readBasic cs
  | '\'' :: '\'' :: '\'' :: cs => readLiteralLines (dropLineEnd cs)
  | '\'' :: cs => readLiteral cs
  | _ => none

/-! ## 3. Numbers -/

/-- Digits, where single underscores may stand between two of them; they are left out. -/
def digitRun (base : Nat) : List Char → List Char × List Char
  | '_' :: d :: cs =>
    if isDigitOf base d then
      let more := digitRun base cs
      (d :: more.1, more.2)
    else ([], '_' :: d :: cs)
  | d :: cs =>
    if isDigitOf base d then
      let more := digitRun base cs
      (d :: more.1, more.2)
    else ([], d :: cs)
  | [] => ([], [])

/-- One digit or more. -/
def readDigits (base : Nat) : List Char → Chars
  | d :: cs => if isDigitOf base d then some (digitRun base (d :: cs)) else none
  | [] => none

def readSign : List Char → List Char × List Char
  | '+' :: cs => (['+'], cs)
  | '-' :: cs => (['-'], cs)
  | cs => ([], cs)

/-- An integer in decimal digits, with a sign or not; only zero itself starts with a zero. -/
def readDecimal (cs : List Char) : Chars :=
  let (sign, cs) := readSign cs
  match cs with
  | '0' :: cs => some (sign ++ ['0'], cs)
  | cs => (readDigits 10 cs).map fun p => (sign ++ p.1, p.2)

/-- The point and the digits of a fraction. -/
def readFraction : List Char → Chars
  | '.' :: cs => Chars.cons '.' (readDigits 10 cs)
  | _ => none

/-- An exponent with its letter. -/
def readExponent : List Char → Chars
  | c :: cs =>
    if c == 'e' || c == 'E' then
      let (sign, cs) := readSign cs
      (readDigits 10 cs).map fun p => ('e' :: sign ++ p.1, p.2)
    else none
  | [] => none

/-- A fraction, an exponent, or both. -/
def readDecimals (cs : List Char) : Chars :=
  match readFraction cs with
  | some (f, cs) =>
    match readExponent cs with
    | some (e, cs) => some (f ++ e, cs)
    | none => some (f, cs)
  | none => readExponent cs

/-- A number that is no integer.  One too large is none, unless it is negative: that is the
library's way with a number that overflows. -/
def readFloat (cs : List Char) : Option (Toml × List Char) := do
  let (whole, cs) ← readDecimal cs
  let (decimals, cs) ← readDecimals cs
  let x ← Binary64.read? (whole ++ decimals)
  guard (x ≠ .infinite false)
  return (.float x, cs)

/-- The infinities, and what is no number. -/
def readSpecial (cs : List Char) : Option (Toml × List Char) :=
  let (sign, cs) := readSign cs
  match cs with
  | 'i' :: 'n' :: 'f' :: cs => some (.float (.infinite (sign = ['-'])), cs)
  | 'n' :: 'a' :: 'n' :: cs => some (.float .nan, cs)
  | _ => none

/-- An integer in range of the given digits. -/
def ofDigits (base : Nat) (p : List Char × List Char) : Option (Toml × List Char) :=
  (int64? (digitsValue base p.1)).map fun n => (.integer n, p.2)

/-- An integer in one of the four notations. -/
def readInteger : List Char → Option (Toml × List Char)
  | '0' :: 'x' :: cs => (readDigits 16 cs).bind (ofDigits 16)
  | '0' :: 'o' :: cs => (readDigits 8 cs).bind (ofDigits 8)
  | '0' :: 'b' :: cs => (readDigits 2 cs).bind (ofDigits 2)
  | cs => do
    let (ds, cs) ← readDecimal cs
    let n ← readInt64? ds
    return (.integer n, cs)

/-! ## 4. Dates and times -/

/-- A number of exactly this many digits, between two bounds. -/
def readField (width low high : Nat) (cs : List Char) : Option (Nat × List Char) := do
  let ds := cs.take width
  guard (ds.length = width ∧ ds.all isDecimal ∧ low ≤ digitsValue 10 ds ∧ digitsValue 10 ds ≤ high)
  return (digitsValue 10 ds, cs.drop width)

def behind (c : Char) : List Char → Option (List Char)
  | d :: cs => if d = c then some cs else none
  | [] => none

/-- The number of days of a month. -/
def daysIn (year month : Nat) : Nat :=
  if month = 2 then
    if year % 4 = 0 ∧ (year % 100 ≠ 0 ∨ year % 400 = 0) then 29 else 28
  else if month = 4 ∨ month = 6 ∨ month = 9 ∨ month = 11 then 30
  else 31

def skipDate (cs : List Char) : Option (List Char) := do
  let (year, cs) ← readField 4 0 9999 cs
  let (month, cs) ← readField 2 1 12 (← behind '-' cs)
  let (_, cs) ← readField 2 1 (daysIn year month) (← behind '-' cs)
  return cs

/-- Skip a fraction of a second, if there is one. -/
def skipFraction : List Char → List Char
  | '.' :: d :: cs => if isDecimal d then cs.dropWhile isDecimal else '.' :: d :: cs
  | cs => cs

/-- Skip a time of day, in which a leap second may stand. -/
def skipTime (cs : List Char) : Option (List Char) := do
  let (_, cs) ← readField 2 0 23 cs
  let (_, cs) ← readField 2 0 59 (← behind ':' cs)
  let (_, cs) ← readField 2 0 60 (← behind ':' cs)
  return skipFraction cs

/-- Skip the distance from universal time. -/
def skipOffset : List Char → Option (List Char)
  | c :: cs =>
    if c == 'Z' || c == 'z' then some cs
    else if c == '+' || c == '-' then do
      let (_, cs) ← readField 2 0 23 cs
      let (_, cs) ← readField 2 0 59 (← behind ':' cs)
      return cs
    else none
  | [] => none

/-- Skip what stands behind a date: a time of day, with or without an offset, or nothing. -/
def skipTimeOfDate : List Char → List Char
  | c :: cs =>
    if c == 'T' || c == 't' || c == ' ' then
      match skipTime cs with
      | some cs => (skipOffset cs).getD cs
      | none => c :: cs
    else c :: cs
  | [] => []

/-- Skip a date, a time of day, or both. -/
def skipDatetime (cs : List Char) : Option (List Char) :=
  match skipDate cs with
  | some cs => some (skipTimeOfDate cs)
  | none => skipTime cs

def readDatetime (cs : List Char) : Option (Toml × List Char) :=
  (skipDatetime cs).map fun rest => (.datetime (cs.take (cs.length - rest.length)), rest)

/-! ## 5. Scalars -/

/-- A value that holds no other.  What could be a date is tried before what could be a number. -/
def readScalar : List Char → Option (Toml × List Char)
  | 't' :: 'r' :: 'u' :: 'e' :: cs => some (.boolean true, cs)
  | 'f' :: 'a' :: 'l' :: 's' :: 'e' :: cs => some (.boolean false, cs)
  | cs =>
    ((readString cs).map fun p => (.string (String.ofList p.1), p.2))
      <|> readDatetime cs <|> readFloat cs <|> readSpecial cs <|> readInteger cs

end LivingDoc.Toml
