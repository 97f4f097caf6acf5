import LivingDoc.Xml.Token
import LivingDoc.Xml.Reference
import LivingDoc.Xml.Prolog

/-!
# The tree of a document with its namespaces resolved

Tokens become a tree in which an element has the URI its prefix stands for, its attributes theirs,
and the list of all bindings in scope on it.  The tree under construction is a place in it: the
nodes already read at the innermost level, and for every open element what is needed to finish it.

The rules that take several tokens together:

* an element's own declarations come first in its list of bindings, then those of its parent that it
  does not hide, and the first binding of a prefix in the list counts;
* texts that follow each other are one text; a comment, an instruction or the start of a tag between
  them keeps them apart;
* an entity's value is read in place of the reference, up to ten deep and with at most 255
  references inside the outermost one.

They are rules of the library that reads XML for the engine, beside those of XML itself: line ends
are line feeds (XML 1.0, 2.11), attribute values are normalized (3.3.3), start and end tag have one
name, attributes of an element differ in expanded name, and the prefixes `xml` and `xmlns` are
reserved.
-/

namespace LivingDoc.Xml

/-! ## 1. The tree -/

/-- A prefix, or none for the default namespace, and the URI it stands for. -/
structure Binding where
  qualifier : Option String
  uri : String
deriving DecidableEq, Repr

/-- An attribute with its namespace. -/
structure Property where
  uri : Option String
  localName : String
  value : String
deriving DecidableEq, Repr

/-- A node of a document as it was read, with namespaces in place of prefixes. -/
inductive Item where
  /-- An element with its namespace, local name, bindings in scope, attributes and children. -/
  | element (uri : Option String) (localName : String) (bindings : List Binding)
      (properties : List Property) (children : List Item)
  | text (content : String)
deriving Repr

/-! ## 2. Bindings in scope -/

/-- The own declarations of an element, and behind them the inherited bindings of the prefixes that
have none yet. -/
def inherit (own : List Binding) (inherited : List Binding) : List Binding :=
  inherited.foldl
    (fun bs b => if bs.any (·.qualifier == b.qualifier) then bs else bs ++ [b]) own

/-- The bindings in scope on an element with these declarations; one that declares nothing has the
list of its parent. -/
def inScope (own : List Binding) (inherited : List Binding) : List Binding :=
  if own.isEmpty then inherited else inherit own inherited

/-- The URI of a prefix: that of its first binding. -/
def uriOf? (bs : List Binding) (q : Option String) : Option String :=
  (bs.find? (·.qualifier == q)).map (·.uri)

/-! ## 3. The tree under construction -/

/-- An element whose end has not been read, and what was read before it at its level, the latest
first. -/
structure OpenElement where
  name : QName
  uri : Option String
  bindings : List Binding
  properties : List Property
  before : List Item
deriving Repr

/-- An attribute with its value read and its prefix not yet resolved; `left` characters of the
document are left at it. -/
structure PendingProperty where
  name : QName
  value : String
  left : Nat
deriving Repr

/-- A tree under construction. -/
structure Partial where
  /-- The nodes of the innermost level, the latest first. -/
  nodes : List Item
  /-- The open elements, the innermost first. -/
  openElements : List OpenElement
  /-- The name of the latest start tag, and the characters left at it. -/
  tag : QName
  tagLeft : Nat
  /-- The declarations and attributes read for the next end of a tag. -/
  declared : List Binding
  pending : List PendingProperty
  /-- How many entities have been used inside the outermost one. -/
  references : Nat
  /-- The next text does not join the text before it. -/
  apart : Bool

namespace Partial

def start : Partial := ⟨[], [], ⟨"", ""⟩, 0, [], [], 0, false⟩

/-- Add text; it joins the text right before it, unless a tag or an aside stood between. -/
def addText (p : Partial) (s : String) : Partial :=
  match p.nodes, p.apart with
  | .text t :: rest, false => { p with nodes := .text (t ++ s) :: rest }
  | nodes, _ => { p with nodes := .text s :: nodes, apart := false }

def add (p : Partial) (i : Item) : Partial := { p with nodes := i :: p.nodes }

/-- The bindings of the innermost open element. -/
def bindings (p : Partial) : List Binding :=
  match p.openElements with
  | [] => []
  | e :: _ => e.bindings

end Partial

/-- The namespace of an attribute: an attribute without a prefix has none, the default namespace
notwithstanding, and the prefix `xml` needs no declaration. -/
def propertyUri (bs : List Binding) (a : PendingProperty) : Except Fault (Option String) :=
  if a.name.qualifier = "xml" then .ok (some xmlUri)
  else if a.name.qualifier = "" then .ok none
  else
    match uriOf? bs (some a.name.qualifier) with
    | some u => .ok (some u)
    | none => .error ⟨.unknownPrefix a.name.qualifier, a.left⟩

/-- Resolve the attributes of a tag from left to right; no two have the same namespace and local
name. -/
def resolve (bs : List Binding) : List PendingProperty → List Property →
    Except Fault (List Property)
  | [], done => .ok done
  | a :: rest, done =>
    match propertyUri bs a with
    | .error f => .error f
    | .ok u =>
      if done.any (fun d => d.uri == u && d.localName == a.name.localName) then
        .error ⟨.attributeRepeated a.name.localName, a.left⟩
      else resolve bs rest (done ++ [⟨u, a.name.localName, a.value⟩])

/-- The namespace of an element; without a prefix it is the default one, if there is one. -/
def elementUri (bs : List Binding) (tag : QName) (left : Nat) : Except Fault (Option String) :=
  if tag.qualifier = "" then .ok (uriOf? bs none)
  else
    match uriOf? bs (some tag.qualifier) with
    | some u => .ok (some u)
    | none => .error ⟨.unknownPrefix tag.qualifier, left⟩

namespace Partial

/-- At the end of a tag its declarations come into scope and its attributes are resolved.  Only
there can this be done: a declaration counts for the whole tag, wherever in it it stands. -/
def settle (p : Partial) : Except Fault (List Binding × List Property × Partial) := do
  let bs := inScope p.declared p.bindings
  let properties ← Xml.resolve bs p.pending []
  return (bs, properties, { p with declared := [], pending := [] })

/-- The end of a start tag: the element is open. -/
def openTag (p : Partial) : Except Fault Partial := do
  let (bs, properties, q) ← p.settle
  let uri ← elementUri bs p.tag p.tagLeft
  return { q with
    nodes := []
    openElements := ⟨p.tag, uri, bs, properties, q.nodes⟩ :: q.openElements }

/-- The end of a start tag that is an end tag as well: the element is complete. -/
def emptyTag (p : Partial) : Except Fault Partial := do
  let (bs, properties, q) ← p.settle
  let uri ← elementUri bs p.tag p.tagLeft
  return q.add (.element uri p.tag.localName bs properties [])

/-- An end tag: it closes the innermost open element, whose name it has to repeat as it was written,
prefix included. -/
def closeTag (p : Partial) (n : QName) (left : Nat) : Except Fault Partial := do
  let (_, _, q) ← p.settle
  match q.openElements with
  | [] => .error ⟨.unexpectedCloseTag, left⟩
  | e :: outer =>
    if n = e.name then
      return { q with
        nodes := .element e.uri n.localName e.bindings e.properties q.nodes.reverse :: e.before
        openElements := outer }
    else .error ⟨.wrongCloseTag e.name.text n.text, left⟩

/-- An attribute of a tag whose value is read: a declaration or a property.  The tests are those of
namespaces in XML on `xml` and `xmlns`, in the order in which they are made. -/
def addProperty (p : Partial) (n : QName) (value : String) (left : Nat) :
    Except Fault Partial :=
  if n.qualifier = "xmlns" then
    if value = xmlnsUri then .error ⟨.xmlnsUriDeclared, left⟩
    else if n.localName = "xml" && value != xmlUri then .error ⟨.xmlPrefixRebound, left⟩
    else if n.localName != "xml" && value == xmlUri then .error ⟨.xmlUriMisused, left⟩
    else if p.declared.any (·.qualifier == some n.localName) then
      .error ⟨.namespaceRepeated n.localName, left⟩
    else if value = xmlUri then .ok p
    else .ok { p with declared := p.declared ++ [⟨some n.localName, value⟩] }
  else if n.localName = "xmlns" then
    if value = xmlUri then .error ⟨.xmlUriMisused, left⟩
    else if value = xmlnsUri then .error ⟨.xmlnsUriDeclared, left⟩
    else .ok { p with declared := p.declared ++ [⟨none, value⟩] }
  else .ok { p with pending := p.pending ++ [⟨n, value, left⟩] }

end Partial

/-! ## 4. Attribute values -/

/-- Use an entity in an attribute value: the entity, the characters left behind the reference, and
the number of references so far give the text and the new number. -/
abbrev UseInValue := Entity → Nat → Nat → Except Fault (List Char × Nat)

/-- Line ends and tabs in an attribute value are spaces (XML 1.0, 3.3.3). -/
def asSpace (c : Char) : Char := if c = '\t' ∨ c = '\n' ∨ c = '\r' then ' ' else c

/-- The text of an attribute value.  The run goes on for `behind` characters; references to
characters are taken as they are in the document itself, and like the characters in an entity.  A
carriage return before a line feed goes away, so the two are one space. -/
def valueOf (entities : List Entity) (use : UseInValue) (outermost : Bool) (behind : Nat) :
    List Piece → Nat → Except Fault (List Char × Nat)
  | [], n => .ok ([], n)
  | .literal c :: rest, n =>
    match valueOf entities use outermost behind rest n with
    | .error f => .error f
    | .ok (v, m) =>
      if c = '\r' && rest.head? == some (.literal '\n') then .ok (v, m) else .ok (asSpace c :: v, m)
  | .character c left :: rest, n =>
    if !outermost && c == '<' then .error ⟨.unescapedLess, left + behind⟩
    else
      match valueOf entities use outermost behind rest n with
      | .error f => .error f
      | .ok (v, m) => .ok ((if outermost then c else asSpace c) :: v, m)
  | .entity name left afterwards :: rest, n =>
    match entities.find? (·.name == name) with
    | none => .error ⟨.unknownReference name, left + behind⟩
    | some e =>
      match use e (afterwards + behind) n with
      | .error f => .error f
      | .ok (u, m) =>
        match valueOf entities use outermost behind rest m with
        | .error f => .error f
        | .ok (v, k) => .ok (u ++ v, k)
  | .malformed left :: _, _ => .error ⟨.malformedReference, left + behind⟩

/-- The number of references after one more, inside the outermost entity; 255 are the limit, which
stops texts that grow without bound. -/
def countReference (outermost : Bool) (left references : Nat) : Except Fault Nat :=
  if outermost then .ok references
  else if references = 255 then .error ⟨.referenceLoop, left⟩
  else .ok (references + 1)

/-- Use an entity in an attribute value, with so many levels of entities left. -/
def useInValue (entities : List Entity) : (levels : Nat) → (outermost : Bool) → UseInValue
  | 0, _ => fun _ left _ => .error ⟨.referenceLoop, left⟩
  | levels + 1, outermost => fun e left references => do
    let n ← countReference outermost left references
    let (v, m) ← valueOf entities (useInValue entities levels false) false e.behind
      (pieces e.value) n
    return (v, if outermost then 0 else m)

/-! ## 5. Text -/

/-- Use an entity in content: the entity and the characters left behind the reference take a tree
under construction to another. -/
abbrev UseInContent := Entity → Nat → Partial → Except Fault Partial

/-- Put a character behind the others, the latest first: a carriage return and the line feed behind
it are one line feed, and so is a carriage return alone; `last` when the run ends here. -/
def pushLine (buffer : List Char) (c : Char) (last : Bool) : List Char :=
  match buffer with
  | '\r' :: b =>
    if c = '\r' && last then '\n' :: '\n' :: b
    else if c = '\n' then '\n' :: b
    else c :: '\n' :: b
  | b => if c = '\r' && last then '\n' :: b else c :: b

/-- The characters of a run without references, with its line ends made line feeds. -/
def withLineFeeds : List Char → List Char → List Char
  | [], buffer => buffer.reverse
  | c :: rest, buffer => withLineFeeds rest (pushLine buffer c rest.isEmpty)

/-- Add what is in the buffer, if there is something. -/
def Partial.flush (p : Partial) (buffer : List Char) : Partial :=
  if buffer.isEmpty then p else p.addText (String.ofList buffer.reverse)

/-- Read a text.  A reference to a character is kept as it is in the document itself, and so is the
character behind it (`kept`); in an entity it counts like a character. -/
def readText (entities : List Entity) (use : UseInContent) (outermost : Bool) (behind : Nat) :
    List Piece → (buffer : List Char) → (kept : Bool) → Partial → Except Fault Partial
  | [], buffer, _, p => .ok (p.flush buffer)
  | .literal c :: rest, buffer, kept, p =>
    readText entities use outermost behind rest
      (if kept then c :: buffer else pushLine buffer c rest.isEmpty) false p
  | .character c _ :: rest, buffer, kept, p =>
    if outermost then readText entities use outermost behind rest (c :: buffer) true p
    else readText entities use outermost behind rest (pushLine buffer c rest.isEmpty) kept p
  | .entity name left afterwards :: rest, buffer, _, p =>
    match entities.find? (·.name == name) with
    | none => .error ⟨.unknownReference name, left + behind⟩
    | some e =>
      match use e (afterwards + behind) (p.flush buffer) with
      | .error f => .error f
      | .ok q => readText entities use outermost behind rest [] false q
  | .malformed left :: _, _, _, _ => .error ⟨.malformedReference, left + behind⟩

/-! ## 6. Tokens into the tree -/

/-- How the tokens of a text are taken in: the entities of the document, how they are used, whether
the text is the document itself, and the characters of the document behind the text. -/
structure Setting where
  entities : List Entity
  inValue : UseInValue
  inContent : UseInContent
  outermost : Bool
  behind : Nat

/-- Take in one token.  An end tag needs a start tag before it in the same text (`started`). -/
def Partial.take (s : Setting) (p : Partial) (started : Bool) : Token → Except Fault Partial
  | .start n left =>
    if n.qualifier = "xmlns" then .error ⟨.xmlnsPrefixUsed, left + s.behind⟩
    else .ok { p with tag := n, tagLeft := left + s.behind, apart := true }
  | .property a => do
    let (v, m) ← valueOf s.entities s.inValue s.outermost
      (a.valueLeft - a.value.length + s.behind) (pieces a.value) p.references
    { p with references := m }.addProperty a.name (String.ofList v) (a.left + s.behind)
  | .opened => p.openTag
  | .emptied => p.emptyTag
  | .closed n left =>
    if started then p.closeTag n (left + s.behind)
    else .error ⟨.unexpectedCloseTag, left + s.behind⟩
  | .text run left =>
    readText s.entities s.inContent s.outermost (left - run.length + s.behind) (pieces run) []
      false p
  | .verbatim run => .ok (p.addText (String.ofList (withLineFeeds run [])))
  | .aside => .ok { p with apart := true }

/-- Take in tokens from left to right. -/
def Partial.takeAll (s : Setting) : List Token → (started : Bool) → Partial →
    Except Fault Partial
  | [], _, p => .ok p
  | t :: rest, started, p =>
    match p.take s started t with
    | .error f => .error f
    | .ok q => takeAll s rest (started || t.isStart) q

/-- Use an entity in content, with so many levels of entities left: its value is read as content of
the innermost open element, tags included. -/
def useInContent (entities : List Entity) : (levels : Nat) → (outermost : Bool) → UseInContent
  | 0, _ => fun _ left _ => .error ⟨.referenceLoop, left⟩
  | levels + 1, outermost => fun e left p => do
    let n ← countReference outermost left p.references
    let (ts, stop) := tokens false 1 e.value
    let q ← Partial.takeAll
      ⟨entities, useInValue entities levels false, useInContent entities levels false, false,
        e.behind⟩ ts false { p with references := n }
    match stop with
    | .error f => .error (f.behind e.behind)
    | .ok _ => return { q with references := if outermost then 0 else q.references }

/-- How deep entities may be nested. -/
def entityLevels : Nat := 10

/-- How the tokens of the document itself are taken in. -/
def Setting.ofDocument (entities : List Entity) : Setting :=
  ⟨entities, useInValue entities entityLevels true, useInContent entities entityLevels true, true,
    0⟩

/-! ## 7. The nodes of a document -/

/-- The nodes of a text at the outermost level, where comments and instructions may stand around one
element.  A fault of a token comes before a fault behind it, so the tree is built before the fault
of the tokens is looked at. -/
def items (cs : List Char) : Except Fault (List Item) := do
  let (entities, r) ← prolog cs
  let r := skipSpaces r
  let (ts, stop) := match r with
    | '<' :: inner => elementTokens inner
    | _ => ([], .ok r)
  let p ← Partial.takeAll (.ofDocument entities) ts false .start
  let rest ← stop
  let rest ← skipAsides rest
  if !rest.isEmpty then .error ⟨.unknownToken, rest.length⟩
  else if !p.openElements.isEmpty then .error ⟨.rootNotClosed, 0⟩
  else return p.nodes.reverse

end LivingDoc.Xml
