import LivingDoc.Markup.Element
import LivingDoc.Outcome

/-!
# Annotation

A document is annotated by rendering its outcomes onto the elements they belong to (specification,
4.5).  An element gets the class of its outcome.  A failure shows what was expected as deleted and
what was found as inserted; elements inside are kept, because they may have outcomes of their own.
An exception shows its message, and the lines in support of it.
-/

namespace LivingDoc

/-! ## 1. One outcome -/

def Element.labelled (name cls text : String) : Node :=
  .element name [⟨"class", cls⟩] [.text text]

/-- What a failure puts in place of the children.  Text alone gives way to the expected text; if
there are elements among the children, all of them go into the `del` as they are. -/
def failureChildren (expected actual : String) (children : List Node) : List Node :=
  let kept := if children.any Node.isElement then children else [.text expected]
  [.element "del" [⟨"class", "expected"⟩] kept, .text " ", Element.labelled "ins" "actual" actual]

/-- What an exception puts behind the children; without lines in support there is no `pre`. -/
def exceptionChildren (c : Cause) : List Node :=
  Element.labelled "span" "exceptionMessage" c.message ::
    if c.context.isEmpty then []
    else [Element.labelled "pre" "stackTrace" (String.intercalate "\n" c.context)]

/-- An element with its outcome rendered: `render` of the diff renderer, one clause an outcome.
Success changes nothing but the class. -/
def Element.render (e : Element) (o : Outcome) : Element :=
  let marked := e.addClass o.status.name
  match o with
  | .success => marked
  | .failure expected actual =>
    { marked with children := failureChildren expected actual marked.children }
  | .exception c => { marked with children := marked.children ++ exceptionChildren c }

/-! ## 2. All outcomes of a document -/

/-- The outcome at a path: the last one recorded there, since a later entry takes the place of an
earlier one in a map by path. -/
def outcomeAt? (outcomes : List Recorded) (path : List Nat) : Option Outcome :=
  (outcomes.reverse.find? (·.path == path)).map (·.outcome)

/-- An element with the outcome at its path, if there is one, rendered. -/
def Element.renderAt (outcomes : List Recorded) (path : List Nat) (e : Element) : Element :=
  match outcomeAt? outcomes path with
  | some o => e.render o
  | none => e

mutual
/-- A child at a path with its outcomes rendered, those inside it first.  The path is that of the
child in the tree as it was read, whatever rendering has put around it. -/
def Node.annotate (outcomes : List Recorded) (path : List Nat) : Node → Node
  | .text s => .text s
  | .element n as cs =>
    (Element.renderAt outcomes path ⟨n, as, Node.annotateAll outcomes path 0 cs⟩).node
/-- The children of the element at a path, from the one with this index on. -/
def Node.annotateAll (outcomes : List Recorded) (path : List Nat) (index : Nat) :
    List Node → List Node
  | [] => []
  | n :: rest =>
    n.annotate outcomes (path ++ [index]) :: Node.annotateAll outcomes path (index + 1) rest
end

/-- A document with its outcomes rendered: `annotate`, which rebuilds the tree and renders at each
recorded path.  An outcome at a path where no element is has no effect. -/
def Element.annotate (root : Element) (outcomes : List Recorded) : Element :=
  Element.renderAt outcomes []
    { root with children := Node.annotateAll outcomes [] 0 root.children }

/-! ## 3. The stylesheet -/

/-- The look of annotated elements. -/
def stylesheet : String :=
  String.join (
    [".success \x7b background-color: #afa; \x7d\n",
     ".failure \x7b background-color: #ffb0b0; \x7d\n",
     ".failure del.expected \x7b text-decoration: line-through; color: #700; \x7d\n",
     ".failure ins.actual \x7b text-decoration: none; color: #070; margin-left: 0.5em; \x7d\n",
     ".exception \x7b background-color: #fdd; \x7d\n",
     ".exceptionMessage \x7b display: block; color: #a00; font-weight: bold; \x7d\n",
     "pre.stackTrace \x7b font-size: 0.8em; color: #555; margin: 0.25em 0; \x7d\n"])

def styleNode : Node := .element "style" [⟨"type", "text/css"⟩] [.text stylesheet]

/-- The stylesheet put at the end of the first child element that is a `head`.  Only the children of
the root are looked at, and a head is known by its local name. -/
def styleHead : List Node → List Node
  | [] => []
  | .text s :: rest => .text s :: styleHead rest
  | .element n as cs :: rest =>
    if (splitQualified n).2 = "head" then .element n as (cs ++ [styleNode]) :: rest
    else .element n as cs :: styleHead rest

/-- A document with the stylesheet in its head, if it has one (`with_stylesheet`). -/
def Element.withStylesheet (root : Element) : Element :=
  { root with children := styleHead root.children }

end LivingDoc
