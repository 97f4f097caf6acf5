import LivingDoc.Value.Basic

/-!
# Expressions

A command carries a small expression (specification, 4.2): it reads a variable, states a literal,
calls an operation of the fixture, or stores the value of one of these in a variable.  Arguments are
variables and literals only, so calls do not nest.
-/

namespace LivingDoc

/-- What can stand for an argument. -/
inductive Operand where
  | var (name : String)
  | literal (value : Value)
deriving DecidableEq, Repr

/-- An argument as it is written, by position or by the name of its parameter. -/
structure WrittenArgument where
  name : Option String
  operand : Operand
deriving DecidableEq, Repr

/-- An expression.  The type lets assignments nest; the reader never makes one inside another. -/
inductive Expression where
  | var (name : String)
  | literal (value : Value)
  | call (operation : String) (arguments : List WrittenArgument)
  | assign (target : String) (value : Expression)
deriving DecidableEq, Repr

namespace Expression

/-- Why a text is no expression.  `invalidNumber` is there because the reader tests the look of a
number before it reads it; no text comes to it. -/
inductive Problem where
  | empty
  | valueMissing
  | invalidVariable (text : String)
  | unsupported (text : String)
  | argumentMissing
  | unsupportedArgument (text : String)
  | unterminatedText
  | textAfterLiteral
  | invalidNumber (text : String)
deriving DecidableEq, Repr

def Problem.reason : Problem → String
  | .empty => "empty expression"
  | .valueMissing => "expected a value"
  | .invalidVariable t => "invalid variable '" ++ t ++ "'"
  | .unsupported t => "unsupported expression '" ++ t ++ "'"
  | .argumentMissing => "empty argument"
  | .unsupportedArgument t => "unsupported argument '" ++ t ++ "'"
  | .unterminatedText => "unterminated string literal"
  | .textAfterLiteral => "unexpected text after string literal"
  | .invalidNumber t => "invalid number '" ++ t ++ "': invalid float literal"

/-- A problem and its place, in bytes from the start of the text. -/
structure Fault where
  problem : Problem
  position : Nat
deriving DecidableEq, Repr

def Fault.message (f : Fault) : String :=
  "Parse error at position " ++ String.ofList (decimalDigits f.position) ++ ": " ++ f.problem.reason

end Expression

end LivingDoc
