import LivingDoc.Number.Binary64
import LivingDoc.Text.Blank

/-!
# Values

What an operation is given and what it returns (specification, 3).  Every value can be displayed,
and a text that says `true` or `false` can serve as a truth value.
-/

namespace LivingDoc

/-- A dynamically typed value.  Integers have 64 bits and a sign, floats are the numbers of
binary64. -/
inductive Value where
  | null
  | bool (b : Bool)
  | int (n : Int64)
  | float (x : Binary64)
  | text (s : String)
deriving DecidableEq, Repr, Inhabited

namespace Value

/-- The value as text, as failures show it and comparators compare it; null is `(null)` there. -/
def display : Value → String
  | .null => "(null)"
  | .bool b => if b then "true" else "false"
  | .int n => String.ofList (integerDigits n.toInt)
  | .float x => String.ofList x.digits
  | .text s => s

def kind : Value → String
  | .null => "null"
  | .bool _ => "bool"
  | .int _ => "int"
  | .float _ => "float"
  | .text _ => "text"

/-- The truth value that a text says, in any letter case and with blank space around it. -/
def truthOf? (s : String) : Option Bool :=
  let word := Text.asciiLower (Text.trim s.toList)
  if word = "true".toList then some true
  else if word = "false".toList then some false
  else none

/-- The truth value of a value (`as_bool`): of truth values and of texts that say one.  Numbers have
none, and neither has null. -/
def asBool? : Value → Option Bool
  | .bool b => some b
  | .text s => truthOf? s
  | _ => none

def isNull : Value → Bool
  | .null => true
  | _ => false

/-- A count as a value: an integer if it is in range, and the nearest float otherwise. -/
def ofCount (n : Nat) : Value :=
  match int64? n with
  | some i => .int i
  | none => .float (Binary64.ofInt n)

/-- An optional value, absent as null. -/
def ofOption : Option Value → Value
  | some v => v
  | none => .null

/-- Equality of values, that of floats as numbers: not-a-number equals nothing, itself included. -/
def sameValue : Value → Value → Bool
  | .float x, .float y => x.sameNumber y
  | v, w => v == w

end Value

end LivingDoc
