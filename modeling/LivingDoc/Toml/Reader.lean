import LivingDoc.Toml.Scalar

/-!
# Reading TOML

A text is a sequence of lines.  Each defines what a key names, opens a table, or does nothing; the
statements are then carried out from top to bottom.  Whatever goes wrong, there is no document: the
messages of the library that reads TOML are not modelled, as nothing depends on them.

* `Toml.read`: the table that a text describes.
-/

namespace LivingDoc.Toml

/-! ## 1. Sequences -/

variable {α : Type}

/-- Read items for as long as there are some.  An item that takes nothing away counts as none, which
is why this ends. -/
def readMany (item : List Char → Option (α × List Char)) (cs : List Char) : List α × List Char :=
  match item cs with
  | some (a, rest) =>
    if rest.length < cs.length then
      let more := readMany item rest
      (a :: more.1, more.2)
    else ([], cs)
  | none => ([], cs)
termination_by cs.length

def readNext (separator : Char) (item : List Char → Option (α × List Char)) (cs : List Char) :
    Option (α × List Char) :=
  (behind separator cs).bind item

/-- Items with separators between them. -/
def readSeparated (separator : Char) (item : List Char → Option (α × List Char))
    (cs : List Char) : List α × List Char :=
  match item cs with
  | some (a, cs) =>
    let more := readMany (readNext separator item) cs
    (a :: more.1, more.2)
  | none => ([], cs)

/-! ## 2. Keys -/

def skipSpace (cs : List Char) : List Char := cs.dropWhile isSpace

/-- A name in quotes of either kind, or without quotes. -/
def readName : List Char → Chars
  | '"' :: cs => readBasic cs
  | '\'' :: cs => readLiteral cs
  | cs => if (cs.takeWhile isBare).isEmpty then none else some (cs.span isBare)

/-- A name of a key with the blank space around it. -/
def readKeyPart (cs : List Char) : Option (String × List Char) :=
  (readName (skipSpace cs)).map fun p => (String.ofList p.1, skipSpace p.2)

/-- Things may lie this deep inside each other, by a limit of the library. -/
def depthLimit : Nat := 79

/-- A key: names with dots between them, at most as many as things may lie inside each other. -/
def readKey (cs : List Char) : Option (Key × List Char) := do
  let (names, cs) := readSeparated '.' readKeyPart cs
  guard (names.length ≤ depthLimit)
  let name ← names.getLast?
  return (⟨names.dropLast, name⟩, cs)

/-! ## 3. Values -/

/-- Skip blank space, line ends and comments. -/
def skipFiller : (inComment : Bool) → List Char → List Char
  | false, '#' :: cs => skipFiller true cs
  | _, '\r' :: '\n' :: cs => skipFiller false cs
  | false, c :: cs => if isSpace c || c == '\n' then skipFiller false cs else c :: cs
  | true, c :: cs =>
    if c == '\n' then skipFiller false cs
    else if isPlain c then skipFiller true cs
    else c :: cs
  | _, [] => []

/-- A value with the blank space, line ends and comments around it. -/
def readItem (value : List Char → Option (Toml × List Char)) (cs : List Char) :
    Option (Toml × List Char) :=
  (value (skipFiller false cs)).map fun p => (p.1, skipFiller false p.2)

/-- The inside of an array, and its bracket. -/
def readArray (value : List Char → Option (Toml × List Char)) (cs : List Char) :
    Option (Toml × List Char) :=
  let (items, cs) := readSeparated ',' (readItem value) cs
  let cs := if items.isEmpty then cs else (behind ',' cs).getD cs
  (behind ']' (skipFiller false cs)).map fun cs => (.array items, cs)

/-- A key with its value, and the blank space behind. -/
def readPair (value : List Char → Option (Toml × List Char)) (cs : List Char) :
    Option ((Key × Toml) × List Char) := do
  let (key, cs) ← readKey cs
  let (v, cs) ← value (skipSpace (← behind '=' cs))
  return ((key, v), skipSpace cs)

/-- The inside of a table between braces, and its brace. -/
def readInlineTable (value : List Char → Option (Toml × List Char)) (cs : List Char) :
    Option (Toml × List Char) := do
  let (pairs, cs) := readSeparated ',' (readPair value) cs
  let cs ← behind '\x7d' (skipSpace cs)
  let entries ← Entries.ofPairs pairs
  return (.table .inline entries, cs)

/-- A value in which arrays and tables lie at most so deep inside each other.  The recursion is on
the depth, as an array reads its items with this function one level less. -/
def readValue : (depth : Nat) → List Char → Option (Toml × List Char)
  | 0, cs => readScalar cs
  | depth + 1, '[' :: cs => readArray (readValue depth) cs
  | depth + 1, '\x7b' :: cs => readInlineTable (readValue depth) cs
  | _ + 1, cs => readScalar cs

/-! ## 4. Statements -/

/-- What a line says. -/
inductive Statement where
  | define (key : Key) (value : Toml)
  /-- The table with this header is opened. -/
  | tableHeader (key : Key)
  /-- One more of the tables with this header is opened. -/
  | elementHeader (key : Key)
deriving Repr

/-- What a line says, if it says something; the rest starts behind that. -/
def readStatement : List Char → Option (Statement × List Char)
  | '[' :: '[' :: cs => do
    let (key, cs) ← readKey cs
    return (.elementHeader key, ← behind ']' (← behind ']' cs))
  | '[' :: cs => do
    let (key, cs) ← readKey cs
    return (.tableHeader key, ← behind ']' cs)
  | cs => (readPair (readValue depthLimit) cs).map fun p => (.define p.1.1 p.1.2, p.2)

/-- The rest of a text behind the end of a line, where a comment may stand. -/
def readLineEnd (cs : List Char) : Option (List Char) :=
  let rest := match skipSpace cs with
    | '#' :: cs => cs.dropWhile isPlain
    | cs => cs
  match rest with
  | '\n' :: cs => some cs
  | '\r' :: '\n' :: cs => some cs
  | [] => some []
  | _ => none

/-- A line, with a statement or without. -/
def readLine (cs : List Char) : Option (Option Statement × List Char) :=
  match readLineEnd cs with
  | some rest => some (none, rest)
  | none => do
    let (statement, cs) ← readStatement (skipSpace cs)
    return (some statement, ← readLineEnd cs)

/-! ## 5. Documents -/

/-- The tables so far, and the path of the table that is open. -/
structure Draft where
  root : Entries
  path : List String

/-- Carry a statement out: definitions go into the table opened last. -/
def Draft.perform (d : Draft) : Statement → Option Draft
  | .define key v =>
    (Entries.change .implied (Entries.define key v) d.path .header d.root).map
      fun root => { d with root := root }
  | .tableHeader key =>
    (Entries.openTable key d.root).map fun root => ⟨root, key.path ++ [key.name]⟩
  | .elementHeader key =>
    (Entries.openElement key d.root).map fun root => ⟨root, key.path ++ [key.name]⟩

def dropMark : List Char → List Char
  | '\ufeff' :: cs => cs
  | cs => cs

/-- The table that a text describes, if it is a TOML document. -/
def read (text : String) : Option Entries := do
  let (lines, rest) := readMany readLine (dropMark text.toList)
  guard rest.isEmpty
  let d ← (lines.filterMap id).foldlM Draft.perform ⟨[], []⟩
  return d.root

end LivingDoc.Toml
