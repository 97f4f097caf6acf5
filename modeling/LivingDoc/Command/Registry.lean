import LivingDoc.Command.Basic
import LivingDoc.Markup.Scope

/-!
# Which command an element has

A matcher looks at an element where it stands and gives the expression of a command, or nothing.  A
registry is a list of matchers with their commands, and the first that matches decides
(specification, 4.2: "registration order, first match wins").  The standard commands are attributes
in a namespace, whatever prefix stands for it.
-/

namespace LivingDoc

/-! ## 1. Matchers -/

/-- Gives the expression of a command if the element asks for it where the scope holds. -/
abbrev Matcher := Element → Scope → Option String

namespace Matcher

/-- The value of the first attribute with the namespace and the local name (`AttributeMatcher`). -/
def namespaced (uri localName : String) : Matcher := fun e scope =>
  (e.attributes.find? fun a => scope.attributeMatches a.name uri localName).map (·.value)

def plain (name : String) : Matcher := fun e _ => e.attribute? name

/-- The expression, on elements with the local name. -/
def localName (name expression : String) : Matcher := fun e _ =>
  if e.localName = name then some expression else none

/-- The expression, where the URI is the default namespace. -/
def inNamespace (uri expression : String) : Matcher := fun _ scope =>
  if scope.uriFor "" = some uri then some expression else none

end Matcher

/-! ## 2. Registries -/

structure Entry where
  matcher : Matcher
  command : Command

/-- Commands in the order in which they are tried. -/
abbrev Registry := List Entry

/-- A command that an element asks for, with its expression. -/
structure Request where
  command : Command
  expression : String

namespace Registry

def standardUri : String := "urn:specdoc:commands"

/-- The standard commands as attributes in a namespace, in the order in which they are registered
(`register_standard`): that order decides on an element with several of them. -/
def standard (uri : String) (comparator : Comparator) : Registry :=
  [⟨.namespaced uri "set", .set⟩, ⟨.namespaced uri "execute", .execute⟩,
   ⟨.namespaced uri "assertEquals", .assertEquals comparator⟩,
   ⟨.namespaced uri "assertTrue", .assertBoolean true⟩,
   ⟨.namespaced uri "assertFalse", .assertBoolean false⟩, ⟨.namespaced uri "link", .link⟩]

/-- The command of an element (`resolve`): that of the first matcher that matches; those behind it
are not heard. -/
def resolve (r : Registry) (e : Element) (scope : Scope) : Option Request :=
  r.findSome? fun entry => (entry.matcher e scope).map fun x => ⟨entry.command, x⟩

end Registry

end LivingDoc
