import LivingDoc.Resource

/-!
# Paths of files

The path of a file is a text in which slashes part the names.  Two texts can be paths of one file,
since a doubled slash and a dot lead nowhere: they are the same path if they have the same
components.  A resource has its file below a directory, where its segments lead.

The rules are those of paths in the style of Unix: a slash in front is the top, slashes in a row
count as one, a dot counts only as the first component, and two dots stay, because the directory
before them may be a link.

* `FilePath.join` puts a name behind a path, `FilePath.components` takes a path apart.
-/

namespace LivingDoc

namespace FilePath

/-- A part of a path. -/
inductive Component where
  /-- The top of the file system. -/
  | root
  /-- The directory that one is in. -/
  | current
  /-- One directory up. -/
  | parent
  | name (s : String)
deriving DecidableEq, Repr

/-- What a piece between slashes stands for. -/
def Component.ofPiece? (piece : List Char) : Option Component :=
  if piece = [] ∨ piece = ['.'] then none
  else if piece = ['.', '.'] then some .parent
  else some (.name (String.ofList piece))

/-- The components of a path: a slash in front is the top, and only in front does a dot stand for
something. -/
def components (path : String) : List Component :=
  let pieces := path.toList.splitOn '/'
  let named := pieces.filterMap Component.ofPiece?
  if path.toList.head? = some '/' then .root :: named
  else if pieces.head? = some ['.'] then .current :: named
  else named

/-- Go on from a path by another: one that starts at the top takes its place, and otherwise one
slash parts the two.  A segment that began with a slash would leave the directory here; a resource
has none such. -/
def join (base next : String) : String :=
  if next.toList.head? = some '/' then next
  else if base = "" ∨ base.toList.getLast? = some '/' then base ++ next
  else base ++ "/" ++ next

end FilePath

/-- The path to the file of a resource below a directory: `path_for` of the ports that keep
documents in files, which goes on from the directory segment by segment. -/
def Resource.fileBelow (directory : String) (r : Resource) : String :=
  r.segments.foldl FilePath.join directory

end LivingDoc
