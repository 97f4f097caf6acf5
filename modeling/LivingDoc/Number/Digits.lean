/-!
# Digits

Numbers as rows of digits to a base of at most sixteen, the most significant first, and whole
numbers with a sign to the base ten.  `readInt64?` is the reading of an integer from a text: one
optional sign, at least one digit, nothing else, and the number in the range of 64 bits.
-/

namespace LivingDoc

/-- A digit to the base. -/
def isDigitOf (base : Nat) (c : Char) : Bool :=
  ('0' ≤ c && c ≤ '9' && c.toNat - '0'.toNat < base)
    || (base == 16 && (('a' ≤ c && c ≤ 'f') || ('A' ≤ c && c ≤ 'F')))

def isDecimal (c : Char) : Bool := isDigitOf 10 c

/-- What a digit is worth. -/
def digitValue (c : Char) : Nat :=
  if c ≤ '9' then c.toNat - '0'.toNat
  else if 'a' ≤ c then c.toNat - 'a'.toNat + 10
  else c.toNat - 'A'.toNat + 10

/-- The number that a row of digits stands for, by Horner's rule from the most significant one
on. -/
def digitsValue (base : Nat) (ds : List Char) : Nat :=
  ds.foldl (fun n d => base * n + digitValue d) 0

/-- The decimal digits of a number, without leading zeros. -/
def decimalDigits (n : Nat) : List Char := Nat.toDigits 10 n

/-- A whole number in decimal, with a minus sign when it is negative and no sign otherwise. -/
def integerDigits (i : Int) : List Char :=
  if i < 0 then '-' :: decimalDigits i.natAbs else decimalDigits i.natAbs

/-- A sign in front of the characters, if there is one: whether it is a minus, and the others. -/
def splitSign : List Char → Bool × List Char
  | '-' :: cs => (true, cs)
  | '+' :: cs => (false, cs)
  | cs => (false, cs)

/-- The whole number that an optional sign and digits stand for, however many they are. -/
def readInteger? (cs : List Char) : Option Int :=
  let (negative, ds) := splitSign cs
  if ds.isEmpty || !ds.all isDecimal then none
  else if negative then some (-(digitsValue 10 ds : Int))
  else some (digitsValue 10 ds)

/-- A whole number in the range of 64 bits with a sign. -/
def int64? (i : Int) : Option Int64 :=
  if Int64.minValue.toInt ≤ i ∧ i ≤ Int64.maxValue.toInt then some (Int64.ofInt i) else none

/-- The number in the range of 64 bits that an optional sign and digits stand for.  Out of range
there is none: nothing wraps around. -/
def readInt64? (cs : List Char) : Option Int64 := (readInteger? cs).bind int64?

end LivingDoc
