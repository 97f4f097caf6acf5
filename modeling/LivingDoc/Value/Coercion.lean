import LivingDoc.Value.Basic

/-!
# Coercion

An argument is converted to the declared type of its parameter (`coerce`; specification, 4.3).
Either the conversion succeeds or the value comes back as it was, for the message that says so.
Each type has a function of its own below; `Value.coerce` puts them together.
-/

namespace LivingDoc

/-- The declared type of a parameter. -/
inductive ParamType where
  | text
  | int
  | float
  | bool
  /-- Takes any value as it is. -/
  | any
deriving DecidableEq, Repr

def ParamType.name : ParamType → String
  | .text => "text"
  | .int => "int"
  | .float => "float"
  | .bool => "bool"
  | .any => "any"

/-- The value belongs to the type; null is a text as well, since coercing to a text leaves it
alone. -/
def ParamType.Accepts : ParamType → Value → Prop
  | .any, _ => True
  | .text, .text _ => True
  | .text, .null => True
  | .int, .int _ => True
  | .float, .float _ => True
  | .bool, .bool _ => True
  | _, _ => False

namespace Value

/-- To a text: anything but null is displayed, so this never fails. -/
def toText : Value → Value
  | .null => .null
  | v => .text v.display

/-- To an integer: floats without a fraction that are in range, and texts that are integers with
blank space around them or not.  A text that is a float is no integer, whatever its value. -/
def toInt? : Value → Option Value
  | .int n => some (.int n)
  | .float x => (x.toInt?.bind int64?).map .int
  | .text s => (readInt64? (Text.trim s.toList)).map .int
  | _ => none

/-- To a float: integers, rounded to the nearest, and texts that are numbers. -/
def toFloat? : Value → Option Value
  | .float x => some (.float x)
  | .int n => some (.float (Binary64.ofInt n.toInt))
  | .text s => (Binary64.read? (Text.trim s.toList)).map .float
  | _ => none

/-- Convert a value to a type, or give it back. -/
def coerce (type : ParamType) (v : Value) : Except Value Value :=
  let converted := match type with
    | .any => some v
    | .text => some v.toText
    | .int => v.toInt?
    | .float => v.toFloat?
    | .bool => v.asBool?.map .bool
  match converted with
  | some w => .ok w
  | none => .error v

end Value

end LivingDoc
