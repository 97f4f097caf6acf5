import LivingDoc.Markup.Element
import LivingDoc.Xml.Infoset

/-!
# Reading a document

A text is read into an `Element` (`parse`; specification, 4.1): comments and instructions are
dropped, and names are written again from their namespaces.  An element keeps as attributes the
declarations that its parent does not have; its name and those of its attributes take a prefix that
stands for their namespace there, which need not be the one they were written with.

The definitions follow the engine's parser, which reshapes the tree that the library gives:
`qualify` is its `qualify`, `newBindings` its `declared_namespaces`, `Item.named` its `convert`.
-/

namespace LivingDoc.Xml

/-- The qualified name for a namespace and a local name where the bindings are in scope (`qualify`:
"elements may use the default namespace; attributes need a prefix").  An element takes no prefix if
the namespace is the default one, whatever prefix it was written with; otherwise the first prefix of
the namespace in the list is taken.  If there is none the local name is left, which loses the
namespace: that an attribute always has one is a property of the bindings, not of this function. -/
def qualify (bs : List Binding) (uri : Option String) (localName : String) (mayDefault : Bool) :
    String :=
  match uri with
  | none => localName
  | some u =>
    if u = xmlUri then "xml:" ++ localName
    else
      let same := bs.filter (·.uri == u)
      if mayDefault && same.any (·.qualifier == none) then localName
      else
        match same.findSome? (·.qualifier) with
        | some q => q ++ ":" ++ localName
        | none => localName

/-- The bindings that an element needs to declare (`declared_namespaces`): those in scope that its
parent does not have.  So a declaration that the parent has already is not repeated, and the binding
of `xml` is left out everywhere. -/
def newBindings (bs inherited : List Binding) : List Binding :=
  bs.filter fun b => b.uri != xmlUri && !inherited.contains b

/-- A declaration as an attribute. -/
def Binding.declaration (b : Binding) : Attribute :=
  match b.qualifier with
  | some q => ⟨"xmlns:" ++ q, b.uri⟩
  | none => ⟨"xmlns", b.uri⟩

/-- The attributes of an element: its declarations, and behind them its properties with their names.
In the markup the two may have been mixed. -/
def attributesOf (bs inherited : List Binding) (properties : List Property) : List Attribute :=
  (newBindings bs inherited).map Binding.declaration
    ++ properties.map fun a => ⟨qualify bs a.uri a.localName false, a.value⟩

mutual
/-- A node with names in place of namespaces, where the parent's bindings are these (`convert`). -/
def Item.named (inherited : List Binding) : Item → Node
  | .text s => .text s
  | .element uri l bs properties children =>
    .element (qualify bs uri l true) (attributesOf bs inherited properties)
      (Item.namedAll bs children)
def Item.namedAll (inherited : List Binding) : List Item → List Node
  | [] => []
  | i :: rest => i.named inherited :: Item.namedAll inherited rest
end

/-- The root of a document with these nodes. -/
def rootOf (items : List Item) : Except Fault Element :=
  match (Item.namedAll [] items).findSome? Node.element? with
  | some e => .ok e
  | none => .error ⟨.noRoot, 0⟩

end LivingDoc.Xml

namespace LivingDoc

/-- Read a document: its root element, or the report of what is wrong. -/
def Element.parse (text : String) : Except Xml.Malformed Element :=
  match (Xml.items text.toList).bind Xml.rootOf with
  | .ok e => .ok e
  | .error f => .error (f.report text.toList)

end LivingDoc
