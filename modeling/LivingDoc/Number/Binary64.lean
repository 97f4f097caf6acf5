import LivingDoc.Number.Digits

/-!
# Binary64 numbers

The double-precision numbers as data.  Every finite one is a whole multiple of the least positive
one, 2^-1074, so a sign and a count of these units say everything, and all that is done with them is
exact arithmetic on natural numbers.

The rules embedded are those of IEEE 754 for the format binary64: reading rounds to the nearest
representable number, of two as near to the one with an even significand, and to infinity beyond the
largest.  Writing gives the fewest digits that read back as the number.

* `roundQuotient`: the whole number nearest to a quotient; of two as near the even one.
* `Binary64.nearest`: the number nearest to a quotient of units, infinity beyond the largest.
-/

namespace LivingDoc

/-- A double-precision number.  All not-a-numbers count as one, since neither reading, writing nor
comparing tells them apart. -/
inductive Binary64 where
  | nan
  | infinite (negative : Bool)
  /-- So many times 2^-1074. -/
  | finite (negative : Bool) (units : Nat)
deriving DecidableEq, Repr

/-- The whole number nearest to `num / den`; of two as near, the even one. -/
def roundQuotient (num den : Nat) : Nat :=
  let q := num / den
  let twice := 2 * (num % den)
  if twice < den then q
  else if den < twice then q + 1
  else if q % 2 = 0 then q
  else q + 1

namespace Binary64

def unitsPerOne : Nat := Nat.pow 2 1074

/-- The first power of two that is too large, in units. -/
def limit : Nat := Nat.pow 2 2098

/-- The distance between the representable numbers at a magnitude: 53 binary digits are kept.  Below
the least normal number the logarithm is under 52, the subtraction gives zero, and the distance is
one unit, which is how the subnormal numbers come in. -/
def spacing (units : Nat) : Nat := Nat.pow 2 (units.log2 - 52)

/-- The representable magnitude nearest to `num / den` units, large ones included. -/
def nearestUnits (num den : Nat) : Nat :=
  let step := spacing (num / den)
  roundQuotient num (den * step) * step

/-- The number nearest to `num / den` units.  A magnitude that rounds up to the next power of two is
representable there too, so one rounding is enough. -/
def nearest (negative : Bool) (num den : Nat) : Binary64 :=
  let u := nearestUnits num den
  if u < limit then .finite negative u else .infinite negative

/-- The number nearest to a whole number. -/
def ofInt (i : Int) : Binary64 := nearest (i < 0) (i.natAbs * unitsPerOne) 1

/-- The whole number that this is, if it is one: the condition under which a float converts to an
integer. -/
def toInt? : Binary64 → Option Int
  | .finite negative units =>
    if units % unitsPerOne = 0 then
      let n : Int := (units / unitsPerOne : Nat)
      some (if negative then -n else n)
    else none
  | _ => none

/-- Equality of numbers: the two zeros are equal, and not-a-number equals nothing. -/
def sameNumber : Binary64 → Binary64 → Bool
  | .finite n u, .finite m v => u == v && (n == m || u == 0)
  | .infinite n, .infinite m => n == m
  | _, _ => false

/-! ## Decimal text to number -/

/-- The number nearest to `m · 10 ^ e`.  Magnitudes far out of range are settled by their number
of digits, without forming the power. -/
def ofDecimal (negative : Bool) (m : Nat) (e : Int) : Binary64 :=
  let digits : Int := (decimalDigits m).length
  if m = 0 then .finite negative 0
  else if digits + e > 400 then .infinite negative
  else if digits + e < -400 then .finite negative 0
  else if 0 ≤ e then nearest negative (m * Nat.pow 10 e.toNat * unitsPerOne) 1
  else nearest negative (m * unitsPerOne) (Nat.pow 10 e.natAbs)

/-- The exponent behind the digits: nothing, or `e` with an optional sign and digits. -/
def readExponent? : List Char → Option Int
  | [] => some 0
  | c :: cs => if c = 'e' ∨ c = 'E' then readInteger? cs else none

/-- The digits behind a point, and what follows them. -/
def splitFraction : List Char → List Char × List Char
  | '.' :: cs => (cs.takeWhile isDecimal, cs.dropWhile isDecimal)
  | cs => ([], cs)

/-- Digits with at most one point among or around them, then an exponent; at least one digit has to
stand on one side of the point. -/
def readUnsigned? (negative : Bool) (cs : List Char) : Option Binary64 :=
  let whole := cs.takeWhile isDecimal
  let (fraction, rest) := splitFraction (cs.dropWhile isDecimal)
  if whole.isEmpty && fraction.isEmpty then none
  else
    (readExponent? rest).map fun e =>
      ofDecimal negative (digitsValue 10 (whole ++ fraction)) (e - fraction.length)

/-- The number that a text stands for: an optional sign, and digits or one of the words for infinity
and not-a-number in any letter case. -/
def read? (cs : List Char) : Option Binary64 :=
  let (negative, rest) := splitSign cs
  let word := rest.map Char.toLower
  if word = "inf".toList ∨ word = "infinity".toList then some (.infinite negative)
  else if word = "nan".toList then some .nan
  else readUnsigned? negative rest

/-! ## Number to decimal text -/

/-- The number of digits before the point of a positive magnitude; not positive when the first
digit stands behind it. -/
def decimalPlaces (units : Nat) : Int :=
  (decimalDigits (units * Nat.pow 10 400 / unitsPerOne)).length - 400

/-- The decimal `c · 10 ^ e` reads back as the magnitude. -/
def readsBack (units c : Nat) (e : Int) : Bool :=
  if 0 ≤ e then nearestUnits (c * Nat.pow 10 e.toNat * unitsPerOne) 1 == units
  else nearestUnits (c * unitsPerOne) (Nat.pow 10 e.natAbs) == units

/-- Of the two multiples of `10 ^ e` around the magnitude the one that reads back; of two the
nearer, and of two as near the larger. -/
def onGrid? (units : Nat) (e : Int) : Option Nat :=
  let num := if 0 ≤ e then units else units * Nat.pow 10 e.natAbs
  let den := if 0 ≤ e then unitsPerOne * Nat.pow 10 e.toNat else unitsPerOne
  let low := num / den
  let nearLow := 2 * (num % den) < den
  match readsBack units low e, readsBack units (low + 1) e with
  | true, true => some (if nearLow then low else low + 1)
  | true, false => some low
  | false, true => some (low + 1)
  | false, false => none

/-- The shortest decimal that reads back as a positive magnitude: its digits and its exponent.
Grids of decimals are tried from coarse to fine; seventeen digits are always enough. -/
def shortest (units : Nat) : Nat × Int :=
  let places := decimalPlaces units
  let grids := (List.range 17).map fun (n : Nat) => places - (n + 1)
  (grids.findSome? fun e => (onGrid? units e).map fun c => (c, e)).getD (0, 0)

/-- A decimal `c · 10 ^ e` written out: never with an exponent, and behind the point without
zeros at the end. -/
def positional (c : Nat) (e : Int) : List Char :=
  let ds := decimalDigits c
  if 0 ≤ e then ds ++ List.replicate e.toNat '0'
  else
    let k := e.natAbs
    let padded := List.replicate (k + 1 - ds.length) '0' ++ ds
    let whole := padded.take (padded.length - k)
    let fraction := ((padded.drop (padded.length - k)).reverse.dropWhile (· == '0')).reverse
    if fraction.isEmpty then whole else whole ++ '.' :: fraction

def magnitudeDigits (units : Nat) : List Char :=
  if units = 0 then ['0'] else positional (shortest units).1 (shortest units).2

/-- The text of a number: the fewest digits that read back, with a minus sign also for the
negative zero. -/
def digits : Binary64 → List Char
  | .nan => "NaN".toList
  | .infinite negative => if negative then "-inf".toList else "inf".toList
  | .finite negative units =>
    if negative then '-' :: magnitudeDigits units else magnitudeDigits units

end Binary64

end LivingDoc
