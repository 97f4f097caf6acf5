/-!
# Character classes of XML

Which characters may occur in a document, which may start a name, and which may continue one: the
productions `Char`, `NameStartChar` and `NameChar` of XML 1.0 in its fifth edition.  White space
between tags is four characters only, fewer than the blank characters of a text.
-/

namespace LivingDoc.Xml

/-- White space of the grammar: space, tab, line feed, carriage return. -/
def isSpace (c : Char) : Bool := c == ' ' || c == '\t' || c == '\n' || c == '\r'

/-- A character that a document may hold (`Char`): no control character but tab, line feed and
carriage return, and neither of the two noncharacters that end the first plane. -/
def isAllowed (c : Char) : Bool :=
  (c.toNat ≥ 0x20 || c == '\t' || c == '\n' || c == '\r') && c.toNat != 0xFFFE && c.toNat != 0xFFFF

/-- The ranges of the characters that may start a name. -/
def nameStartRanges : List (Nat × Nat) :=
  [(0x3A, 0x3A), (0x41, 0x5A), (0x5F, 0x5F), (0x61, 0x7A), (0xC0, 0xD6), (0xD8, 0xF6),
   (0xF8, 0x2FF), (0x370, 0x37D), (0x37F, 0x1FFF), (0x200C, 0x200D), (0x2070, 0x218F),
   (0x2C00, 0x2FEF), (0x3001, 0xD7FF), (0xF900, 0xFDCF), (0xFDF0, 0xFFFD), (0x10000, 0xEFFFF)]

/-- The ranges of the characters that may continue a name and not start it. -/
def nameContinueRanges : List (Nat × Nat) :=
  [(0x2D, 0x2E), (0x30, 0x39), (0xB7, 0xB7), (0x300, 0x36F), (0x203F, 0x2040)]

def inRanges (rs : List (Nat × Nat)) (n : Nat) : Bool := rs.any fun r => r.1 ≤ n && n ≤ r.2

def isNameStart (c : Char) : Bool := inRanges nameStartRanges c.toNat

/-- A character that may stand in a name. -/
def isNameChar (c : Char) : Bool := isNameStart c || inRanges nameContinueRanges c.toNat

/-- The first byte of the character in UTF-8, as the character with that code point: messages about
a wrong character show no more of it. -/
def firstByte (c : Char) : Char :=
  let n := c.toNat
  if n < 0x80 then c
  else if n < 0x800 then Char.ofNat (0xC0 + n / 0x40)
  else if n < 0x10000 then Char.ofNat (0xE0 + n / 0x1000)
  else Char.ofNat (0xF0 + n / 0x40000)

/-- The namespace that the prefix `xml` stands for without being declared. -/
def xmlUri : String := "http://www.w3.org/XML/1998/namespace"

/-- The namespace that the prefix `xmlns` stands for, which may not be declared at all. -/
def xmlnsUri : String := "http://www.w3.org/2000/xmlns/"

end LivingDoc.Xml
