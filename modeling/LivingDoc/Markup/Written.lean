import LivingDoc.Markup.Element

/-!
# Written markup

The text of an element (specification, 4.1): "serialization escapes `& < >` in text and `& < > "` in
attribute values; childless elements are written self-closing."  Nothing else is escaped.  In
particular a line feed or a tab in an attribute value is written as it is, although a reader of XML
takes it for a space.
-/

namespace LivingDoc

/-- A character as it is written in text. -/
def escapeInText : Char → List Char
  | '&' => "&amp;".toList
  | '<' => "&lt;".toList
  | '>' => "&gt;".toList
  | c => [c]

/-- A character as it is written in an attribute value. -/
def escapeInValue : Char → List Char
  | '"' => "&quot;".toList
  | c => escapeInText c

/-- An attribute as it is written, with the space in front of it. -/
def Attribute.written (a : Attribute) : List Char :=
  ' ' :: a.name.toList ++ '=' :: '"' :: a.value.toList.flatMap escapeInValue ++ ['"']

mutual
/-- A child as it is written: `write_element` and `write_escaped`, with one clause for a childless
element, which is a single tag. -/
def Node.written : Node → List Char
  | .text s => s.toList.flatMap escapeInText
  | .element name attributes [] =>
    '<' :: name.toList ++ attributes.flatMap Attribute.written ++ ['/', '>']
  | .element name attributes (c :: cs) =>
    '<' :: name.toList ++ attributes.flatMap Attribute.written ++ '>' :: Node.writtenAll (c :: cs)
      ++ '<' :: '/' :: name.toList ++ ['>']
def Node.writtenAll : List Node → List Char
  | [] => []
  | n :: rest => n.written ++ Node.writtenAll rest
end

/-- The markup of an element (`to_markup`). -/
def Element.markup (e : Element) : String := String.ofList e.node.written

end LivingDoc
