import LivingDoc.Text.Blank

/-!
# Elements

The tree that is evaluated and annotated (specification, 3): an element has a qualified name,
attributes in document order, and children that are text or elements.  Nothing is resolved in it; a
namespace declaration is an attribute like any other, and what a prefix stands for is asked of a
scope.  Trees are values, so annotating builds a new one.

* `attribute?_setAttribute`: setting an attribute sets that one.
-/

namespace LivingDoc

/-! ## 1. The tree -/

/-- An attribute as it is written: a qualified name and a value. -/
structure Attribute where
  name : String
  value : String
deriving DecidableEq, Repr, Inhabited

/-- A child of an element: text, or an element with its attributes and children.  The recursion is
here and not in `Element`, so that functions over trees are structural. -/
inductive Node where
  | text (content : String)
  | element (name : String) (attributes : List Attribute) (children : List Node)
deriving Repr, Inhabited

/-- An element on its own. -/
structure Element where
  name : String
  attributes : List Attribute
  children : List Node
deriving Repr, Inhabited

def Element.node (e : Element) : Node := .element e.name e.attributes e.children

/-- The element that a child is, if it is one (`as_element`). -/
def Node.element? : Node → Option Element
  | .text _ => none
  | .element name attributes children => some ⟨name, attributes, children⟩

def Node.isElement : Node → Bool
  | .text _ => false
  | .element .. => true

mutual
def Node.decEq : (a b : Node) → Decidable (a = b)
  | .text s, .text t => decidable_of_iff (s = t) (by simp)
  | .text _, .element .. => .isFalse (by simp)
  | .element .., .text _ => .isFalse (by simp)
  | .element n as cs, .element m bs ds =>
    match Node.decEqAll cs ds with
    | .isTrue h => decidable_of_iff (n = m ∧ as = bs) (by simp [h])
    | .isFalse h => .isFalse (by simp [h])
def Node.decEqAll : (as bs : List Node) → Decidable (as = bs)
  | [], [] => .isTrue rfl
  | [], _ :: _ => .isFalse (by simp)
  | _ :: _, [] => .isFalse (by simp)
  | a :: as, b :: bs =>
    match Node.decEq a b, Node.decEqAll as bs with
    | .isTrue h, .isTrue h' => .isTrue (by simp [h, h'])
    | .isFalse h, _ => .isFalse (by simp [h])
    | _, .isFalse h => .isFalse (by simp [h])
end

instance : DecidableEq Node := Node.decEq

deriving instance DecidableEq for Element

/-- Induction over a list of children: what holds of a list holds when a text is put in front, and
when an element whose own children satisfy it is.  It is the one principle for lists of children, in
place of the mutual induction over children and their lists that the type has. -/
@[elab_as_elim]
theorem Node.induction {P : List Node → Prop} (nil : P [])
    (text : ∀ s rest, P rest → P (.text s :: rest))
    (element : ∀ n as cs rest, P cs → P rest → P (.element n as cs :: rest)) (ns : List Node) :
    P ns :=
  @Node.rec_1 (fun n => ∀ rest, P rest → P (n :: rest)) P
    (fun s rest h => text s rest h) (fun n as cs hc rest h => element n as cs rest hc h) nil
    (fun _ rest hn hr => hn rest hr) ns

/-! ## 2. Qualified names -/

/-- A qualified name cut at its first colon into prefix and local name (`split_qualified`); a name
without a colon has the empty prefix, and further colons belong to the local name. -/
def splitQualified (name : String) : String × String :=
  match name.toList.span (· != ':') with
  | (_, []) => ("", name)
  | (p, _ :: l) => (String.ofList p, String.ofList l)

namespace Element

/-- The part of the name behind its first colon, or all of it. -/
def localName (e : Element) : String := (splitQualified e.name).2

/-! ## 3. Attributes -/

/-- The value of the first attribute with the name.  Markup that was read never has two; a tree
built by hand may. -/
def attribute? (e : Element) (name : String) : Option String :=
  (e.attributes.find? (·.name == name)).map (·.value)

/-- Give the first attribute of that name the value where it stands, or add one behind the others
(`set_attribute`). -/
def setIn (name value : String) : List Attribute → List Attribute
  | [] => [⟨name, value⟩]
  | a :: as => if a.name == name then ⟨name, value⟩ :: as else a :: setIn name value as

def setAttribute (e : Element) (name value : String) : Element :=
  { e with attributes := setIn name value e.attributes }

@[simp] theorem attribute?_setAttribute (e : Element) (name value : String) :
    (e.setAttribute name value).attribute? name = some value := by
  unfold attribute? setAttribute
  induction e.attributes with
  | nil => simp [setIn]
  | cons a as ih => by_cases h : a.name = name <;> simp_all [setIn]

/-- The namespace declarations of the element as prefix and URI, in order; the prefix of the default
namespace is empty. -/
def namespaceDeclarations (e : Element) : List (String × String) :=
  e.attributes.filterMap fun a =>
    if a.name == "xmlns" then some ("", a.value)
    else ("xmlns:".toList.isPrefixOf? a.name.toList).map fun p => (String.ofList p, a.value)

/-! ## 4. Classes -/

/-- The classes of the element: the words of its attribute `class`. -/
def classes (e : Element) : List String := Text.words ((e.attribute? "class").getD "")

def hasClass (e : Element) (c : String) : Bool := e.classes.contains c

/-- The element with the class added behind those it has, unless it has it already: `add_class`
(specification, 3: "space-separated class list, no duplicates").  The list that is there is trimmed
and otherwise kept as it is written. -/
def addClass (e : Element) (c : String) : Element :=
  if e.hasClass c then e
  else
    let present := Text.trimmed ((e.attribute? "class").getD "")
    e.setAttribute "class" (if present.isEmpty then c else present ++ " " ++ c)

/-! ## 5. Children -/

def withChild (e : Element) (child : Node) : Element :=
  { e with children := e.children ++ [child] }

def withText (e : Element) (s : String) : Element := e.withChild (.text s)

def childElements (e : Element) : List Element := e.children.filterMap Node.element?

end Element

mutual
/-- All text in a child, in document order. -/
def Node.textChars : Node → List Char
  | .text s => s.toList
  | .element _ _ cs => Node.textCharsAll cs
def Node.textCharsAll : List Node → List Char
  | [] => []
  | n :: rest => n.textChars ++ Node.textCharsAll rest
end

def Node.textContent (n : Node) : String := String.ofList n.textChars

/-- All text in an element, in document order: `text_content`, nested elements included. -/
def Element.textContent (e : Element) : String := String.ofList (Node.textCharsAll e.children)

end LivingDoc
