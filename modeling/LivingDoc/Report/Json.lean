import LivingDoc.Number.Digits

/-!
# JSON

Reports as JSON text: an indentation of two spaces, a line for every item and every member, and
everything but quotes, backslashes and control characters written as it is.  An empty array or
object is written without a line.  The escapes are those of the grammar of JSON, the short ones
where there is one; beyond ASCII nothing is escaped.
-/

namespace LivingDoc

/-- The JSON values that reports are made of. -/
inductive Json where
  | number (n : Nat)
  | string (s : String)
  | array (items : List Json)
  | object (members : List (String × Json))
deriving Repr, Inhabited

namespace Json

def hexDigit (n : Nat) : Char := Nat.digitChar n

/-- A character in a quoted string. -/
def escape (c : Char) : List Char :=
  if c = '"' then ['\\', '"']
  else if c = '\\' then ['\\', '\\']
  else if c.toNat = 0x08 then ['\\', 'b']
  else if c.toNat = 0x0C then ['\\', 'f']
  else if c = '\n' then ['\\', 'n']
  else if c = '\r' then ['\\', 'r']
  else if c = '\t' then ['\\', 't']
  else if c.toNat < 0x20 then
    ['\\', 'u', '0', '0', hexDigit (c.toNat / 16), hexDigit (c.toNat % 16)]
  else [c]

/-- A quoted string. -/
def quoted (s : String) : List Char := '"' :: s.toList.flatMap escape ++ ['"']

def newLine (depth : Nat) : List Char := '\n' :: List.replicate (2 * depth) ' '

mutual
/-- A value, where the lines inside it are one deeper than `depth`. -/
def pretty (depth : Nat) : Json → List Char
  | .number n => decimalDigits n
  | .string s => quoted s
  | .array [] => ['[', ']']
  | .array (i :: rest) => '[' :: prettyItems (depth + 1) (i :: rest) ++ newLine depth ++ [']']
  | .object [] => ['\x7b', '\x7d']
  | .object (m :: rest) =>
    '\x7b' :: prettyMembers (depth + 1) (m :: rest) ++ newLine depth ++ ['\x7d']
/-- Items, each on a line of its own. -/
def prettyItems (depth : Nat) : List Json → List Char
  | [] => []
  | [i] => newLine depth ++ pretty depth i
  | i :: rest => newLine depth ++ pretty depth i ++ ',' :: prettyItems depth rest
/-- A member on a line of its own. -/
def prettyMember (depth : Nat) : String × Json → List Char
  | (k, v) => newLine depth ++ quoted k ++ ':' :: ' ' :: pretty depth v
/-- Members, each on a line of its own. -/
def prettyMembers (depth : Nat) : List (String × Json) → List Char
  | [] => []
  | [m] => prettyMember depth m
  | m :: rest => prettyMember depth m ++ ',' :: prettyMembers depth rest
end

def text (j : Json) : String := String.ofList (pretty 0 j)

end Json

end LivingDoc
