import LivingDoc.Xml.Character

/-!
# What can be wrong with a document

Reading XML is delegated to a library (specification, 4.1), whose faults reach the user with their
message, line and column.  They are embedded here with the texts of that library.

A fault is a problem and a place.  While a document is read, the place is the number of characters
that are left to read there: that number needs no knowledge of what was read before, and stays right
when a part of the document is read on its own once the characters behind the part are added
(`Fault.behind`).  For the report the place becomes a line and a column.
-/

namespace LivingDoc.Xml

/-! ## 1. Problems and faults -/

/-- Why a text is no document, with one constructor for a kind of message. -/
inductive Problem where
  | xmlPrefixRebound
  | xmlUriMisused
  | xmlnsUriDeclared
  | xmlnsPrefixUsed
  | namespaceRepeated (name : String)
  | unknownPrefix (name : String)
  | wrongCloseTag (wanted found : String)
  | unexpectedCloseTag
  | malformedReference
  | unknownReference (name : String)
  | referenceLoop
  | unescapedLess
  | attributeRepeated (localName : String)
  | noRoot
  | rootNotClosed
  | misplacedDeclaration
  | invalidName
  | forbiddenCharacter (c : Char)
  | wrongCharacter (wanted found : Char)
  | wrongKind (wanted : String) (found : Char)
  | missingText (wanted : String)
  | invalidExternalId
  | dashesInComment
  | sectionEndInText
  | unknownToken
  | endOfText
deriving DecidableEq, Repr

/-- A problem with the number of characters left to read at its place. -/
structure Fault where
  problem : Problem
  left : Nat
deriving DecidableEq, Repr

/-- The fault of a part of a text that goes on for `n` more characters. -/
def Fault.behind (n : Nat) (f : Fault) : Fault := { f with left := f.left + n }

/-! ## 2. Lines and columns -/

/-- A place in a text; lines and columns count from one. -/
structure Position where
  line : Nat
  column : Nat
deriving DecidableEq, Repr

/-- The position behind the text: a line ends at a line feed, and a column is one character. -/
def Position.after (cs : List Char) : Position :=
  ⟨cs.count '\n' + 1, (cs.reverse.takeWhile (· != '\n')).length + 1⟩

/-- The position in the text at which `left` characters are left. -/
def Position.withLeft (cs : List Char) (left : Nat) : Position :=
  .after (cs.take (cs.length - left))

def Position.text (p : Position) : String := toString p.line ++ ":" ++ toString p.column

/-! ## 3. Reports -/

/-- The problem is reported with its place; three are about the whole text and have none. -/
def Problem.hasPlace : Problem → Bool
  | .noRoot | .rootNotClosed | .endOfText => false
  | _ => true

/-- A forbidden character as it is reported. -/
def shown (c : Char) : String :=
  if c.toNat = 0 then "'\\0'"
  else "'\\u\x7b" ++ String.ofList (Nat.toDigits 16 c.toNat) ++ "\x7d'"

/-- The sentence for a problem at a place. -/
def Problem.reason (p : Problem) (place : String) : String :=
  match p with
  | .xmlPrefixRebound => "'xml' namespace prefix mapped to wrong URI at " ++ place
  | .xmlUriMisused => "the 'xml' namespace URI is used for not 'xml' prefix at " ++ place
  | .xmlnsUriDeclared =>
    "the 'xmlns' URI is used at " ++ place ++ ", but it must not be declared"
  | .xmlnsPrefixUsed => "the 'xmlns' prefix is used at " ++ place ++ ", but it must not be"
  | .namespaceRepeated n => "namespace '" ++ n ++ "' at " ++ place ++ " is already defined"
  | .unknownPrefix n => "an unknown namespace prefix '" ++ n ++ "' at " ++ place
  | .wrongCloseTag w f => "expected '" ++ w ++ "' tag, not '" ++ f ++ "' at " ++ place
  | .unexpectedCloseTag => "unexpected close tag at " ++ place
  | .malformedReference => "malformed entity reference at " ++ place
  | .unknownReference n => "unknown entity reference '" ++ n ++ "' at " ++ place
  | .referenceLoop => "a possible entity reference loop is detected at " ++ place
  | .unescapedLess => "unescaped '<' found at " ++ place
  | .attributeRepeated l => "attribute '" ++ l ++ "' at " ++ place ++ " is already defined"
  | .noRoot => "the document does not have a root node"
  | .rootNotClosed => "the root node was opened but never closed"
  | .misplacedDeclaration => "unexpected XML declaration at " ++ place
  | .invalidName => "invalid name token at " ++ place
  | .forbiddenCharacter c => "a non-XML character " ++ shown c ++ " found at " ++ place
  | .wrongCharacter w f =>
    "expected '" ++ w.toString ++ "' not '" ++ (firstByte f).toString ++ "' at " ++ place
  | .wrongKind w f => "expected " ++ w ++ " not '" ++ (firstByte f).toString ++ "' at " ++ place
  | .missingText w => "expected '" ++ w ++ "' at " ++ place
  | .invalidExternalId => "invalid ExternalID at " ++ place
  | .dashesInComment => "comment at " ++ place ++ " contains '--'"
  | .sectionEndInText => "']]>' at " ++ place ++ " is not allowed inside a character data"
  | .unknownToken => "unknown token at " ++ place
  | .endOfText => "unexpected end of stream"

/-- The report on a text that is no document (specification, 4.1: message, line and column). -/
structure Malformed where
  reason : String
  position : Position
deriving DecidableEq, Repr

def Malformed.message (m : Malformed) : String :=
  "malformed document at " ++ m.position.text ++ ": " ++ m.reason

/-- The report of a fault in a text.  A fault without a place is reported at the start. -/
def Fault.report (cs : List Char) (f : Fault) : Malformed :=
  let place := if f.problem.hasPlace then Position.withLeft cs f.left else ⟨1, 1⟩
  ⟨f.problem.reason place.text, place⟩

end LivingDoc.Xml
