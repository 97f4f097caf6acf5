import LivingDoc.Proofs.Resource.Paths
import LivingDoc.Storage.FilePath
import LivingDoc.Storage.FileTree

/-!
# Files stay in their directory

The file of a resource is where its segments lead from a directory.  A segment goes one name down
and nothing else, whatever the text was that the resource was made of, so no document lies outside
of the directory, and no two lie at the same place.

* `FilePath.components_join`: joining a segment to a path adds a name to its components.
* `FilePath.components_fileBelow`: the file of a resource has the components of the directory and
  the names that are its segments.
* `Resource.normalized_below_root`: resources stay normal, and their files stay in the directory.
-/

namespace LivingDoc

namespace FilePath

/-! ## 1. One name more -/

theorem ofPiece?_segment {s : String} (h : Resource.IsSegment s) :
    Component.ofPiece? s.toList = some (.name s) := by
  have hne : ∀ {cs : List Char}, s ≠ String.ofList cs → s.toList ≠ cs := by
    intro cs hs heq
    rw [← heq, String.ofList_toList] at hs
    exact hs rfl
  obtain ⟨hempty, hdot, hdots, -⟩ := h
  rw [Component.ofPiece?, if_neg (not_or.mpr ⟨hne hempty, hne hdot⟩), if_neg (hne hdots),
    String.ofList_toList]

theorem head?_ne_slash {s : String} (h : Resource.IsSegment s) : s.toList.head? ≠ some '/' :=
  fun htop => h.not_mem_slash (List.mem_of_head? htop)

/-- A path with a slash and one more piece behind it: the slash is the top if nothing is in front of
it, and otherwise it only parts the two, also where it stands behind another slash. -/
theorem components_append_slash (front : List Char) {last : List Char} (h : '/' ∉ last) :
    components (String.ofList (front ++ '/' :: last)) =
      (if front = [] then [.root] else components (String.ofList front)) ++
        (Component.ofPiece? last).toList := by
  have hlast : [last].filterMap Component.ofPiece? = (Component.ofPiece? last).toList := by
    cases hp : Component.ofPiece? last <;> simp [hp]
  rw [components, components]
  simp only [String.toList_ofList, List.splitOn_append_cons_self, List.splitOn_eq_singleton h,
    List.filterMap_append, hlast]
  cases front with
  | nil => rfl
  | cons c cs =>
    obtain ⟨piece, others, hcut⟩ := List.exists_cons_of_ne_nil (List.splitOn_ne_nil '/' (c :: cs))
    simp only [hcut, List.cons_append, List.head?_cons, List.cons_ne_nil, if_false]
    split
    · rfl
    · split <;> rfl

theorem components_segment {s : String} (h : Resource.IsSegment s) :
    components s = [.name s] := by
  have hcut : s.toList.splitOn '/' = [s.toList] := List.splitOn_eq_singleton h.not_mem_slash
  have hdot : s.toList ≠ ['.'] := by
    intro hdot
    have hname := ofPiece?_segment h
    rw [hdot] at hname
    contradiction
  simp only [components, hcut, List.head?_cons, List.filterMap_cons, ofPiece?_segment h,
    List.filterMap_nil, if_neg (head?_ne_slash h), Option.some.injEq, if_neg hdot]

/-- **Joining a segment to a path adds a name to its components.**  Three cases, as `join` has them:
the path is empty, it ends in a slash, or a slash is put between.  A segment has no slash, so it
does not take the place of the path; and it is neither empty nor dots, so its one piece is a
name. -/
theorem components_join (base : String) {s : String} (h : Resource.IsSegment s) :
    components (join base s) = components base ++ [.name s] := by
  have behind : ∀ front : List Char, components (String.ofList (front ++ '/' :: s.toList)) =
      (if front = [] then [.root] else components (String.ofList front)) ++ [.name s] := by
    intro front
    rw [components_append_slash front h.not_mem_slash, ofPiece?_segment h, Option.toList_some]
  rw [join, if_neg (head?_ne_slash h)]
  by_cases hempty : base = ""
  · rw [if_pos (.inl hempty), hempty, String.empty_append, components_segment h]
    rfl
  · by_cases hlast : base.toList.getLast? = some '/'
    · -- the slash is there, and on its own it adds nothing
      obtain ⟨front, hfront⟩ := List.getLast?_eq_some_iff.mp hlast
      have hbase : base = String.ofList (front ++ '/' :: []) := by
        rw [← hfront, String.ofList_toList]
      have hjoined : base ++ s = String.ofList (front ++ '/' :: s.toList) := by
        apply String.toList_injective
        rw [String.toList_append, hfront, String.toList_ofList, List.append_assoc,
          List.singleton_append]
      rw [if_pos (.inr hlast), hjoined, behind, hbase,
        components_append_slash front List.not_mem_nil]
      exact congrArg (· ++ [Component.name s]) (List.append_nil _).symm
    · have hjoined : base ++ "/" ++ s = String.ofList (base.toList ++ '/' :: s.toList) := by
        apply String.toList_injective
        simp
      have hne : base.toList ≠ [] := mt String.toList_eq_nil_iff.mp hempty
      rw [if_neg (not_or.mpr ⟨hempty, hlast⟩), hjoined, behind, if_neg hne,
        String.ofList_toList]

/-! ## 2. The file of a resource -/

theorem components_foldl_join {segments : List String} (h : ∀ s ∈ segments, Resource.IsSegment s)
    (base : String) : components (segments.foldl join base) =
      components base ++ segments.map .name := by
  induction segments generalizing base with
  | nil => exact (List.append_nil _).symm
  | cons s rest ih =>
    rw [List.foldl_cons, ih (fun t ht => h t (List.mem_cons_of_mem _ ht)),
      components_join base (h s List.mem_cons_self), List.append_assoc, List.map_cons,
      List.singleton_append]

/-- **The file of a resource lies where its segments lead from the directory.**  By induction on the
segments, one `components_join` for each. -/
theorem components_fileBelow (directory : String) (r : Resource) :
    components (r.fileBelow directory) = components directory ++ r.segments.map .name :=
  components_foldl_join r.clean directory

/-- No two resources have the same file. -/
theorem fileBelow_injective {directory : String} {q r : Resource}
    (h : components (q.fileBelow directory) = components (r.fileBelow directory)) : q = r := by
  rw [components_fileBelow, components_fileBelow] at h
  have hnames : Function.Injective Component.name := fun _ _ => Component.name.inj
  exact Resource.ext_segments (hnames.list_map (List.append_cancel_left h))

/-! ## 3. Files by their path in the directory -/

/-- Behind a path that does not end in a slash, segments are joined by slashes.  The path stays one
that does not end in a slash, which is what the induction goes by. -/
theorem foldl_join_eq {segments : List String} (h : ∀ s ∈ segments, Resource.IsSegment s)
    {base : String} (hempty : base ≠ "") (hlast : base.toList.getLast? ≠ some '/') :
    segments.foldl join base = String.intercalate "/" (base :: segments) := by
  induction segments generalizing base with
  | nil => exact String.intercalate_singleton.symm
  | cons s rest ih =>
    have hs := h s List.mem_cons_self
    have hjoin : join base s = base ++ "/" ++ s := by
      rw [join, if_neg (head?_ne_slash hs), if_neg (not_or.mpr ⟨hempty, hlast⟩)]
    have hne : s.toList ≠ [] := mt String.toList_eq_nil_iff.mp hs.1
    have hempty' : base ++ "/" ++ s ≠ "" := by
      intro heq
      exact hs.1 (String.append_eq_empty_iff.mp heq).2
    have hlast' : (base ++ "/" ++ s).toList.getLast? ≠ some '/' := by
      rw [String.toList_append, List.getLast?_append_of_ne_nil _ hne]
      exact fun htop => hs.not_mem_slash (List.mem_of_getLast? htop)
    rw [List.foldl_cons, hjoin, ih (fun t ht => h t (List.mem_cons_of_mem _ ht)) hempty' hlast',
      String.intercalate_cons_cons, ← String.intercalate_cons_append]

end FilePath

theorem Resource.fileBelow_empty (r : Resource) : r.fileBelow "" = r.filePath := by
  rw [fileBelow, filePath]
  cases hr : r.segments with
  | nil => exact String.intercalate_nil.symm
  | cons s rest =>
    have hclean : ∀ t ∈ s :: rest, IsSegment t := hr ▸ r.clean
    have hs := hclean s List.mem_cons_self
    have hjoin : FilePath.join "" s = s := by
      rw [FilePath.join, if_neg (FilePath.head?_ne_slash hs), if_pos (.inl rfl),
        String.empty_append]
    rw [List.foldl_cons, hjoin]
    refine FilePath.foldl_join_eq (fun t ht => hclean t (List.mem_cons_of_mem _ ht)) hs.1 ?_
    exact fun htop => hs.not_mem_slash (List.mem_of_getLast? htop)

/-- What is looked up for a resource in a directory is the path to its file. -/
theorem FileTree.wholePath_segments {t : FileTree} (hempty : t.root ≠ "")
    (hlast : t.root.toList.getLast? ≠ some '/') (r : Resource) :
    t.wholePath r.segments = r.fileBelow t.root :=
  (FilePath.foldl_join_eq r.clean hempty hlast).symm

/-! ## 4. Resources -/

namespace Resource

/-- What is done with a resource is done on its path: each operation on the text agrees with the one
on the segments. -/
structure IsShown (r : Resource) : Prop where
  segments : PathText.segments r.path = r.segments
  name : PathText.name r.path = r.name
  parent : PathText.parent? r.path = r.parent?.map path
  resolve : ∀ reference, PathText.resolve r.path reference = (r.resolve reference).path

/-- The file of a resource below a directory is where the directory is left by its segments, and
that of no other resource. -/
structure IsFiled (directory : String) (r : Resource) : Prop where
  below : FilePath.components (r.fileBelow directory) =
    FilePath.components directory ++ r.segments.map .name
  alone : ∀ q : Resource, FilePath.components (q.fileBelow directory) =
    FilePath.components (r.fileBelow directory) → q = r
  within : FilePath.components r.filePath = r.segments.map .name

/-- **Resources stay normal and below their root.**  The texts that the operations on paths give,
from any inputs, are the paths of resources; each of them is normal, and its segments, its name, its
parent and what a reference leads to are those of the resource.  Resources are the same if their
segments are, and if their paths are.  Below any directory the file of a resource is where its
segments lead, no two resources have one file, and this file is what is looked up. -/
theorem normalized_below_root :
    (∀ p, PathText.Obtained p ↔ ∃ r : Resource, r.path = p) ∧
    (∀ p, PathText.normal p = (ofPath p).path) ∧
    (∀ typeName extension,
      PathText.ofTypeName typeName extension = (ofTypeName typeName extension).path) ∧
    (∀ r : Resource, PathText.IsNormal r.path ∧ r.IsShown ∧ ofPath r.path = r) ∧
    (∀ q r : Resource, (q = r ↔ q.segments = r.segments) ∧ (q = r ↔ q.path = r.path)) ∧
    (∀ (directory : String) (r : Resource), r.IsFiled directory) ∧
    ∀ t : FileTree, t.root ≠ "" → t.root.toList.getLast? ≠ some '/' →
      ∀ r : Resource, t.wholePath r.segments = r.fileBelow t.root := by
  refine ⟨fun _ => PathText.obtained_iff, PathText.normal_eq, PathText.ofTypeName_eq, ?_, ?_, ?_,
    fun _ hempty hlast => FileTree.wholePath_segments hempty hlast⟩
  · intro r
    exact ⟨PathText.isNormal_path r, ⟨PathText.segments_path r, PathText.name_path r,
      PathText.parent?_path r, PathText.resolve_path r⟩, ofPath_path r⟩
  · intro q r
    exact ⟨⟨congrArg segments, ext_segments⟩, ⟨congrArg path, fun h => path_injective h⟩⟩
  · intro directory r
    refine ⟨FilePath.components_fileBelow directory r,
      fun _ h => FilePath.fileBelow_injective h, ?_⟩
    rw [← fileBelow_empty, FilePath.components_fileBelow]
    rfl

end Resource

end LivingDoc
