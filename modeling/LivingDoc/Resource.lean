import LivingDoc.Text.Blank

/-!
# Resources

A resource names a document by a path below a root (specification, 3: "immutable, normalized,
slash-separated absolute logical path").  It is kept as its segments, and the structure carries the
proof that they are normal: none is empty, a dot, two dots or holds a separator.  So a resource
cannot point out of the root, and there is one resource for every document.

Section numbers in this and the other modules are those of the specification of the engine.  Where a
definition follows one function of it, the docstring names the function.

* `Resource.advance_clean`: reading a path piece by piece keeps that invariant.
-/

namespace LivingDoc

namespace Resource

/-- Segments are separated by slashes of either kind: normalization turns a backslash into a
slash. -/
def isSeparator (c : Char) : Bool := c == '/' || c == '\\'

/-- A segment names something: it is neither empty nor made of dots that mean a direction.  These
are the segments that normalization lets through. -/
def IsSegment (s : String) : Prop :=
  s ≠ "" ∧ s ≠ "." ∧ s ≠ ".." ∧ ∀ c ∈ s.toList, isSeparator c = false

/-- The pieces of a path between its separators. -/
def pieces (path : String) : List String :=
  (path.toList.splitOnP isSeparator).map String.ofList

/-- Where one piece of a path leads, which is one turn of the loop of `normalize`: two dots pop a
segment and do nothing at the root, an empty piece and a dot are dropped, and anything else is
pushed. -/
def advance (segments : List String) (piece : String) : List String :=
  if piece = "" ∨ piece = "." then segments
  else if piece = ".." then segments.dropLast
  else segments ++ [piece]

theorem mem_splitOnP {α : Type} {p : α → Bool} {cs w : List α} (h : w ∈ cs.splitOnP p) :
    ∀ c ∈ w, p c = false := by
  induction cs generalizing w with
  | nil => simp_all
  | cons c cs ih =>
    rw [List.splitOnP_cons_eq_if_modifyHead] at h
    by_cases hc : p c = true
    · rw [if_pos hc] at h
      rcases List.mem_cons.1 h with rfl | h
      · simp
      · exact ih h
    · rw [if_neg hc] at h
      cases hs : cs.splitOnP p with
      | nil => exact absurd hs (List.splitOnP_ne_nil _ _)
      | cons v vs =>
        rw [hs, List.modifyHead_cons] at h
        rcases List.mem_cons.1 h with rfl | h
        · intro d hd
          rcases List.mem_cons.1 hd with rfl | hd
          · simpa using hc
          · exact ih (by rw [hs]; exact List.mem_cons_self) d hd
        · exact ih (by rw [hs]; exact List.mem_cons_of_mem _ h)

/-- **A piece without separators leads from segments to segments.**  Two dots only shorten the list,
so the root is never left; a piece that is pushed has passed the three tests of `advance` and is
free of separators by hypothesis, which together are `IsSegment`. -/
theorem advance_clean {segments : List String} (h : ∀ s ∈ segments, IsSegment s) {piece : String}
    (hp : ∀ c ∈ piece.toList, isSeparator c = false) :
    ∀ s ∈ advance segments piece, IsSegment s := by
  unfold advance
  split
  · exact h
  · rename_i h1
    split
    · exact fun s hs => h s (List.dropLast_subset _ hs)
    · rename_i h2
      intro s hs
      rcases List.mem_append.1 hs with hs | hs
      · exact h s hs
      · simp only [List.mem_singleton] at hs
        subst hs
        exact ⟨fun h => h1 (Or.inl h), fun h => h1 (Or.inr h), h2, hp⟩

theorem foldl_advance_clean {ps : List String}
    (hp : ∀ p ∈ ps, ∀ c ∈ p.toList, isSeparator c = false) {segments : List String}
    (h : ∀ s ∈ segments, IsSegment s) : ∀ s ∈ ps.foldl advance segments, IsSegment s := by
  induction ps generalizing segments with
  | nil => exact h
  | cons p ps ih =>
    exact ih (fun q hq => hp q (List.mem_cons_of_mem _ hq))
      (advance_clean h (hp p List.mem_cons_self))

theorem mem_pieces {path p : String} (h : p ∈ pieces path) :
    ∀ c ∈ p.toList, isSeparator c = false := by
  obtain ⟨w, hw, rfl⟩ := List.mem_map.1 h
  rw [String.toList_ofList]
  exact mem_splitOnP hw

end Resource

/-- A document's name: its segments below the root, with the proof that each of them names
something.  Equality of resources is equality of these segments, which is equality of normalized
paths. -/
structure Resource where
  segments : List String
  clean : ∀ s ∈ segments, Resource.IsSegment s
deriving DecidableEq

namespace Resource

/-- The resource that any path leads to from the root: `Resource.new` with its `normalize`, which
accepts every text. -/
def ofPath (path : String) : Resource :=
  ⟨(pieces path).foldl advance [], foldl_advance_clean (fun _ => mem_pieces) (by simp)⟩

instance : Inhabited Resource := ⟨⟨[], by simp⟩⟩

instance : Repr Resource := ⟨fun r _ => repr r.segments⟩

/-- The path of a resource: a slash before every segment, and a slash alone for the root. -/
def path (r : Resource) : String := "/" ++ String.intercalate "/" r.segments

/-- The last segment, or nothing for the root. -/
def name (r : Resource) : String := r.segments.getLast?.getD ""

def up (r : Resource) : Resource :=
  ⟨r.segments.dropLast, fun s hs => r.clean s (List.dropLast_subset _ hs)⟩

/-- The resource that this one lies in; the root lies in none. -/
def parent? (r : Resource) : Option Resource := if r.segments = [] then none else some r.up

/-- The order of resources is that of their paths, not of their lists of segments: `/a b` comes
before `/a/b`, since the space comes before the slash. -/
def compare (a b : Resource) : Ordering := compareOfLessAndEq a.path b.path

def le (a b : Resource) : Bool := a.compare b != .gt

/-- A reference without its query and its fragment, and without blank space around it. -/
def referencePath (reference : String) : List Char :=
  Text.trim (reference.toList.takeWhile fun c => c != '#' && c != '?')

/-- The resource that a reference in a document leads to (`resolve`): from the root when it starts
with a slash, to the document itself when nothing is left of it behind the cut, and else from the
place that the document lies in.  The reference is joined to that place as text and normalized as a
whole, so two dots in it go up from there. -/
def resolve (r : Resource) (reference : String) : Resource :=
  match referencePath reference with
  | [] => r
  | '/' :: cs => ofPath (String.ofList ('/' :: cs))
  | cs => ofPath (((r.parent?.map path).getD "") ++ "/" ++ String.ofList cs)

/-- A type name as a path: a point and two colons become slashes (specification, 6).  A single colon
stays. -/
def typePath : List Char → List Char
  | ':' :: ':' :: cs => '/' :: typePath cs
  | '.' :: cs => '/' :: typePath cs
  | c :: cs => c :: typePath cs
  | [] => []

/-- The document that belongs to a type name (`from_type_name`; specification, 6): with the
extension behind its last segment.  The extension may be given with its point or without; an empty
one adds nothing, the point included. -/
def ofTypeName (typeName extension : String) : Resource :=
  let base := typePath typeName.toList
  match extension.toList.dropWhile (· == '.') with
  | [] => ofPath (String.ofList base)
  | ext => ofPath (String.ofList (base ++ '.' :: ext))

end Resource

end LivingDoc
