import LivingDoc.Storage.Documents

/-!
# Documents in a directory

A directory holds files of bytes, by the names that lead to them.  A resource is the file whose
names are its segments, so nothing outside the directory is ever touched.  Storing makes the
directories on the way.  The file system itself is the rule embedded here: which names it takes,
what is an error on the way to a file, and that a file holds UTF-8 when it is read as text.

* `store` gives an error where a name on the way is a file, or where the place is a directory.
* A path is looked up only if it can be one: no name in it has the null character, and the whole of
  it, from the top of the file system on, has at most `pathLimit` bytes.
-/

namespace LivingDoc

/-- What a name in a directory stands for. -/
inductive FileEntry where
  | file (bytes : List UInt8)
  | directory
deriving DecidableEq, Repr

/-- A directory: the path to it, and everything in it by the names that lead there.  The path to it
counts only for the length of whole paths. -/
structure FileTree where
  root : String
  entries : List (List String × FileEntry)
deriving DecidableEq, Repr

/-- Why a file cannot be used: it is not there, or there is something else in the way.  The ports
tell the two apart, since only the first is a missing document. -/
inductive FileFault where
  | missing
  | unusable
deriving DecidableEq, Repr

namespace FileTree

def empty (root : String) : FileTree := ⟨root, []⟩

/-- No name has more bytes than this, as file systems have it. -/
def nameLimit : Nat := 255

/-- No path has more bytes than this: 4096 with the byte that ends it. -/
def pathLimit : Nat := 4095

/-- What lies at the end of a path; the empty path is the directory itself. -/
def entry? (t : FileTree) (path : List String) : Option FileEntry :=
  if path = [] then some .directory else t.entries.lookup path

/-- A name that no file can have: one with the null character. -/
def hasNull (name : String) : Bool := name.toList.any (· == '\x00')

/-- The whole path to what the names below the directory lead to. -/
def wholePath (t : FileTree) (path : List String) : String :=
  String.intercalate "/" (t.root :: path)

/-- A path can be looked up: no name has the null character, and the whole is not too long. -/
def canLookUp (t : FileTree) (path : List String) : Bool :=
  !path.any hasNull && (t.wholePath path).utf8ByteSize ≤ pathLimit

/-- Walk on from a directory to what lies at the end of a path.  A name that is too long is an error
before it is looked up, and a file on the way is one as well. -/
def walk (t : FileTree) (directory : List String) : List String → Except FileFault FileEntry
  | [] => .ok .directory
  | name :: rest =>
    if name.utf8ByteSize > nameLimit then .error .unusable
    else match t.entry? (directory ++ [name]) with
      | none => .error .missing
      | some .directory => walk t (directory ++ [name]) rest
      | some (.file bytes) => if rest = [] then .ok (.file bytes) else .error .unusable

/-- What lies at the end of a path. -/
def locate (t : FileTree) (path : List String) : Except FileFault FileEntry :=
  if t.canLookUp path then t.walk [] path else .error .unusable

def exists? (t : FileTree) (path : List String) : Bool := (t.locate path).isOk

def put (t : FileTree) (path : List String) (e : FileEntry) : FileTree :=
  { t with entries := (path, e) :: t.entries.filter (·.1 != path) }

/-- Make the directories on a path that are missing, from the first on.  Those made before an error
stay. -/
def makeFrom (t : FileTree) (directory : List String) :
    List String → Except FileFault Unit × FileTree
  | [] => (.ok (), t)
  | name :: rest =>
    if name.utf8ByteSize > nameLimit then (.error .unusable, t)
    else match t.entry? (directory ++ [name]) with
      | some .directory => makeFrom t (directory ++ [name]) rest
      | some (.file _) => (.error .unusable, t)
      | none => makeFrom (t.put (directory ++ [name]) .directory) (directory ++ [name]) rest

/-- Make the directories on a path that are missing. -/
def makeDirectories (t : FileTree) (path : List String) : Except FileFault Unit × FileTree :=
  if t.canLookUp path then t.makeFrom [] path else (.error .unusable, t)

/-- Write a file into a directory that is there, over the file at the place; a directory there is an
error. -/
def write (t : FileTree) (path : List String) (bytes : List UInt8) :
    Except FileFault Unit × FileTree :=
  match t.locate path with
  | .ok .directory => (.error .unusable, t)
  | .ok (.file _) => (.ok (), t.put path (.file bytes))
  | .error .missing => (.ok (), t.put path (.file bytes))
  | .error .unusable => (.error .unusable, t)

/-- Write a file, and make the directories on the way: `FileTarget.store`. -/
def store (t : FileTree) (path : List String) (bytes : List UInt8) :
    Except FileFault Unit × FileTree :=
  match t.makeDirectories path.dropLast with
  | (.ok (), u) => u.write path bytes
  | (.error e, u) => (.error e, u)

/-- The text of a document: `FileSource.fetch`.  Its bytes have to be UTF-8. -/
def fetch (t : FileTree) (r : Resource) : Except FileFault String :=
  match t.locate r.segments with
  | .ok (.file bytes) =>
    match String.fromUTF8? ⟨bytes.toArray⟩ with
    | some text => .ok text
    | none => .error .unusable
  | .ok .directory => .error .unusable
  | .error e => .error e

def storeText (t : FileTree) (r : Resource) (text : String) : Except FileFault Unit × FileTree :=
  t.store r.segments text.toUTF8.toList

end FileTree

/-- The path of a document below the directory. -/
def Resource.filePath (r : Resource) : String := String.intercalate "/" r.segments

end LivingDoc
