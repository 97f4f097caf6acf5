import LivingDoc.Command.Registry
import LivingDoc.Toml.Reader

/-!
# Configuration

What can be set for a run (specification, 9).  Everything has a default, so settings in TOML name
only what they change; what they name besides is left alone, and a value of the wrong type spoils
them all.
-/

namespace LivingDoc

/-- What is found where settings are looked for. -/
inductive SettingsFile where
  | missing
  | directory
  | text (content : String)
deriving DecidableEq, Repr

/-- The settings of a run. -/
structure Configuration where
  /-- The namespace of the standard commands. -/
  commandNamespace : String
  /-- The extension of documents that are named after the type of a fixture. -/
  extension : String
  /-- Rendered documents get the stylesheet. -/
  embedStylesheet : Bool
  /-- Linked documents are processed after the document with the link. -/
  followLinks : Bool
deriving DecidableEq, Repr

namespace Toml

/-- What a key is set to: the default where it is not set, and nothing where the value has the wrong
type. -/
def Entries.setting {α : Type} (es : Entries) (name : String) (convert : Toml → Option α)
    (default : α) : Option α :=
  match es.lookup name with
  | some v => convert v
  | none => some default

end Toml

namespace Configuration

def standard : Configuration := ⟨Registry.standardUri, "html", true, true⟩

/-- The settings in a table, by the names of the fields. -/
def ofEntries (es : Toml.Entries) : Option Configuration := do
  let uri ← es.setting "namespace" Toml.string? standard.commandNamespace
  let extension ← es.setting "extension" Toml.string? standard.extension
  let embed ← es.setting "embed_stylesheet" Toml.boolean? standard.embedStylesheet
  let follow ← es.setting "follow_links" Toml.boolean? standard.followLinks
  return ⟨uri, extension, embed, follow⟩

/-- The settings in a text. -/
def read (text : String) : Option Configuration := (Toml.read text).bind ofEntries

/-- The settings in a file; a file that is not there sets nothing (specification, 9), and a
directory is an error. -/
def load : SettingsFile → Option Configuration
  | .missing => some standard
  | .directory => none
  | .text content => read content

def faultPrefix (place : String) : String := "failed to load config " ++ place ++ ": "

end Configuration

end LivingDoc
