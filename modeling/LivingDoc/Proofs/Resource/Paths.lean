import LivingDoc.Resource
import Mathlib.Data.List.DropRight

/-!
# Resources as texts

A resource is kept as its segments, and its path is a text that is made of them.  One can also keep
the text alone and do everything on it: look for the last slash to find the name and the parent, and
join texts and clean up behind it to resolve a reference.  Nothing then says that the text stays in
order.

* `Resource.pieces_path`: the pieces of a path are the segments, so nothing is lost by writing it.
* `PathText.obtained_iff`: the texts that these operations give, from any inputs and in any order,
  are the paths of resources, and each operation does on the text what is done on the segments.
-/

namespace LivingDoc

namespace Resource

/-! ## 1. The pieces of a path -/

theorem IsSegment.not_mem_slash {s : String} (h : IsSegment s) : '/' ∉ s.toList := fun hc =>
  absurd (h.2.2.2 '/' hc) (by decide)

theorem IsSegment.not_mem_backslash {s : String} (h : IsSegment s) : '\\' ∉ s.toList := fun hc =>
  absurd (h.2.2.2 '\\' hc) (by decide)

theorem pieces_of_forall {s : String} (h : ∀ c ∈ s.toList, isSeparator c = false) :
    pieces s = [s] := by
  rw [pieces, List.splitOnP_eq_singleton h, List.map_singleton, String.ofList_toList]

theorem pieces_append_slash (a b : String) : pieces (a ++ "/" ++ b) = pieces a ++ pieces b := by
  have ht : (a ++ "/" ++ b).toList = a.toList ++ '/' :: b.toList := by simp
  rw [pieces, ht, List.splitOnP_append_cons _ _ (by decide), List.map_append, pieces, pieces]

/-- Segments that are joined by slashes are the pieces of what they make.  There has to be one at
least, for the empty text has one piece, which is empty. -/
theorem pieces_intercalate {segments : List String} (h : ∀ s ∈ segments, IsSegment s)
    (hne : segments ≠ []) : pieces (String.intercalate "/" segments) = segments := by
  induction segments with
  | nil => exact absurd rfl hne
  | cons s rest ih =>
    have hs := pieces_of_forall (h s List.mem_cons_self).2.2.2
    cases rest with
    | nil => rw [String.intercalate_singleton, hs]
    | cons t rest =>
      rw [String.intercalate_cons_cons, pieces_append_slash, hs,
        ih (fun u hu => h u (List.mem_cons_of_mem _ hu)) (List.cons_ne_nil _ _),
        List.singleton_append]

theorem foldl_advance_of_segments {ps : List String} (h : ∀ p ∈ ps, IsSegment p)
    (segments : List String) : ps.foldl advance segments = segments ++ ps := by
  induction ps generalizing segments with
  | nil => rw [List.foldl_nil, List.append_nil]
  | cons p ps ih =>
    obtain ⟨hne, hdot, hdots, -⟩ := h p List.mem_cons_self
    have hp : advance segments p = segments ++ [p] := by
      rw [advance, if_neg (not_or.mpr ⟨hne, hdot⟩), if_neg hdots]
    rw [List.foldl_cons, hp, ih (fun q hq => h q (List.mem_cons_of_mem _ hq)), List.append_assoc,
      List.singleton_append]

theorem advance_empty (segments : List String) : advance segments "" = segments := by
  rw [advance, if_pos (.inl rfl)]

/-- **The pieces of a path are the segments**, behind the empty one in front of its first slash.
The path of the root has two empty pieces. -/
theorem pieces_path (r : Resource) :
    pieces r.path = "" :: if r.segments = [] then [""] else r.segments := by
  have hempty : pieces "" = [""] := rfl
  have hpath : r.path = "" ++ "/" ++ String.intercalate "/" r.segments := by
    rw [path, String.empty_append]
  rw [hpath, pieces_append_slash, hempty, List.singleton_append]
  split
  · rename_i h
    rw [h, String.intercalate_nil, hempty]
  · rename_i h
    rw [pieces_intercalate r.clean h]

theorem ext_segments {q r : Resource} (h : q.segments = r.segments) : q = r := by
  obtain ⟨segments, clean⟩ := q
  cases h
  rfl

/-- **The path of a resource leads to it**: the empty pieces lead nowhere, and each segment leads
down by one. -/
theorem ofPath_path (r : Resource) : ofPath r.path = r := by
  refine ext_segments ?_
  show (pieces r.path).foldl advance [] = r.segments
  rw [pieces_path, List.foldl_cons, advance_empty]
  split
  · rename_i h
    rw [h, List.foldl_cons, advance_empty, List.foldl_nil]
  · rw [foldl_advance_of_segments r.clean, List.nil_append]

theorem path_injective : Function.Injective path := by
  intro q r h
  rw [← ofPath_path q, h, ofPath_path]

theorem segments_eq_append_name {r : Resource} (h : r.segments ≠ []) :
    r.segments = r.up.segments ++ [r.name] := by
  rw [name, List.getLast?_eq_some_getLast h, Option.getD_some]
  exact (List.dropLast_append_getLast h).symm

theorem isSegment_name {r : Resource} (h : r.segments ≠ []) : IsSegment r.name := by
  refine r.clean r.name ?_
  rw [segments_eq_append_name h]
  exact List.mem_append_right _ List.mem_cons_self

/-- The path of a resource below another is that of the other, a slash and its name; below the root
there is nothing in front of the slash. -/
theorem path_eq_append_name {r : Resource} (h : r.segments ≠ []) :
    r.path = (if r.up.segments = [] then "" else r.up.path) ++ "/" ++ r.name := by
  rw [path, segments_eq_append_name h]
  split
  · rename_i hup
    rw [hup, List.nil_append, String.intercalate_singleton, String.empty_append]
  · rename_i hup
    rw [String.intercalate_append_of_ne_nil hup (List.cons_ne_nil _ _),
      String.intercalate_singleton, path]
    simp only [String.append_assoc]

theorem path_eq_slash_iff {r : Resource} : r.path = "/" ↔ r.segments = [] := by
  constructor
  · intro h
    have hroot : r.path = path default := h
    rw [path_injective hroot]
    rfl
  · intro h
    rw [path, h]
    rfl

end Resource

/-! ## 2. The same on texts -/

namespace PathText

/-- The pieces of a text between its slashes. -/
def pieces (path : String) : List String := (path.toList.splitOn '/').map String.ofList

/-- A path cleaned up: backslashes are slashes, and each piece leads where it does (`normalize`,
from text to text). -/
def normal (path : String) : String :=
  "/" ++ String.intercalate "/"
    ((pieces (path.map fun c => if c = '\\' then '/' else c)).foldl Resource.advance [])

/-- The pieces that are not empty. -/
def segments (path : String) : List String := (pieces path).filter (· ≠ "")

/-- The text behind the last slash. -/
def name (path : String) : String := String.ofList (path.toList.rtakeWhile (· != '/'))

/-- The text in front of the last slash, cleaned up; the root has none. -/
def parent? (path : String) : Option String :=
  if path = "/" then none
  else some (normal (String.ofList (path.toList.rdropWhile (· != '/')).dropLast))

/-- The path that a reference in the document at a path leads to. -/
def resolve (path reference : String) : String :=
  match Resource.referencePath reference with
  | [] => path
  | '/' :: cs => normal (String.ofList ('/' :: cs))
  | cs => normal ((parent? path).getD "" ++ "/" ++ String.ofList cs)

/-- The path of the document that belongs to a type name. -/
def ofTypeName (typeName extension : String) : String :=
  let base := Resource.typePath typeName.toList
  match extension.toList.dropWhile (· == '.') with
  | [] => normal (String.ofList base)
  | ext => normal (String.ofList (base ++ '.' :: ext))

/-- The texts that are paths of documents, from any inputs: a text that is given is cleaned up, and
what is made of paths is taken as it is.  One constructor for each operation that makes a resource,
so what holds of every obtained text holds whatever operations were carried out one after
another. -/
inductive Obtained : String → Prop
  | new (path : String) : Obtained (normal path)
  | ofTypeName (typeName extension : String) : Obtained (ofTypeName typeName extension)
  | parent {path up : String} (below : Obtained path) (h : parent? path = some up) : Obtained up
  | resolve {path : String} (base : Obtained path) (reference : String) :
      Obtained (resolve path reference)

/-! ## 3. The texts are the paths of resources -/

theorem pieces_map_slash (path : String) :
    pieces (path.map fun c => if c = '\\' then '/' else c) = Resource.pieces path := by
  rw [pieces, Resource.pieces, String.toList_map]
  refine congrArg (List.map String.ofList) ?_
  induction path.toList with
  | nil => rfl
  | cons c cs ih =>
    rw [List.map_cons, List.splitOn_cons_eq_if_modifyHead, List.splitOnP_cons_eq_if_modifyHead, ih]
    by_cases hback : c = '\\'
    · rw [hback]
      rfl
    · rw [if_neg hback]
      by_cases hslash : c = '/'
      · rw [hslash]
        rfl
      · have hc : Resource.isSeparator c = false := by
          simp [Resource.isSeparator, hback, hslash]
        rw [hc, if_neg (by simpa using hslash), if_neg Bool.false_ne_true]

/-- Cleaning a text up gives the path of the resource that it leads to. -/
theorem normal_eq (path : String) : normal path = (Resource.ofPath path).path := by
  rw [normal, pieces_map_slash, Resource.path, Resource.ofPath]

theorem normal_path (r : Resource) : normal r.path = r.path := by
  rw [normal_eq, Resource.ofPath_path]

theorem segments_path (r : Resource) : segments r.path = r.segments := by
  have ht : r.path.toList = [] ++ '/' :: List.intercalate ['/'] (r.segments.map String.toList) := by
    rw [Resource.path, String.toList_append, String.toList_intercalate]
    rfl
  rw [segments, pieces, ht, List.splitOn_append_cons_self]
  by_cases h : r.segments = []
  · rw [h]
    rfl
  · have hslash : ∀ cs ∈ r.segments.map String.toList, '/' ∉ cs := by
      intro cs hcs
      obtain ⟨s, hs, rfl⟩ := List.mem_map.mp hcs
      exact (r.clean s hs).not_mem_slash
    have hback : (r.segments.map String.toList).map String.ofList = r.segments := by
      rw [List.map_map]
      exact List.map_id'' (fun _ => String.ofList_toList) r.segments
    rw [List.splitOn_intercalate '/' hslash (by simpa using h), List.map_append, hback]
    have hempty : (List.splitOn '/' []).map String.ofList = [""] := rfl
    rw [hempty, List.singleton_append, List.filter_cons_of_neg (by decide)]
    exact List.filter_eq_self.mpr fun s hs => decide_eq_true (r.clean s hs).1

theorem parts_of_last_slash {front last : List Char} (h : '/' ∉ last) :
    (front ++ '/' :: last).rtakeWhile (· != '/') = last ∧
      (front ++ '/' :: last).rdropWhile (· != '/') = front ++ ['/'] := by
  have hlast : ∀ c ∈ last.reverse, (c != '/') = true := by
    intro c hc
    refine bne_iff_ne.mpr fun heq => h ?_
    rw [← heq]
    exact List.mem_reverse.mp hc
  have hrev : (front ++ '/' :: last).reverse = last.reverse ++ '/' :: front.reverse := by simp
  rw [List.rtakeWhile, List.rdropWhile, hrev, List.takeWhile_append_of_pos hlast,
    List.dropWhile_append_of_pos hlast]
  simp

/-- The path of a resource below another is parted in front of its name. -/
theorem parts_of_path {r : Resource} (h : r.segments ≠ []) :
    ∃ front : String, Resource.ofPath front = r.up ∧
      r.path.toList.rtakeWhile (· != '/') = r.name.toList ∧
        r.path.toList.rdropWhile (· != '/') = front.toList ++ ['/'] := by
  have ht : r.path.toList = (if r.up.segments = [] then "" else r.up.path).toList ++
      '/' :: r.name.toList := by
    rw [Resource.path_eq_append_name h]
    simp
  refine ⟨if r.up.segments = [] then "" else r.up.path, ?_, ?_⟩
  · split
    · rename_i hup
      refine Resource.ext_segments ?_
      rw [hup]
      rfl
    · exact Resource.ofPath_path r.up
  · rw [ht]
    exact parts_of_last_slash (Resource.isSegment_name h).not_mem_slash

theorem name_path (r : Resource) : name r.path = r.name := by
  by_cases h : r.segments = []
  · rw [Resource.path_eq_slash_iff.mpr h, Resource.name, h]
    rfl
  · obtain ⟨_, -, hname, -⟩ := parts_of_path h
    rw [name, hname, String.ofList_toList]

theorem parent?_path (r : Resource) : parent? r.path = r.parent?.map Resource.path := by
  rw [parent?, Resource.parent?]
  by_cases h : r.segments = []
  · rw [if_pos (Resource.path_eq_slash_iff.mpr h), if_pos h]
    rfl
  · obtain ⟨front, hfront, -, hdrop⟩ := parts_of_path h
    rw [if_neg (mt Resource.path_eq_slash_iff.mp h), if_neg h, hdrop, List.dropLast_concat,
      String.ofList_toList, normal_eq, hfront]
    rfl

theorem resolve_path (r : Resource) (reference : String) :
    resolve r.path reference = (r.resolve reference).path := by
  rw [resolve, Resource.resolve, parent?_path]
  generalize Resource.referencePath reference = cs
  rcases cs with _ | ⟨c, rest⟩
  · rfl
  · by_cases hc : c = '/'
    · subst hc
      exact normal_eq _
    · simp [hc, normal_eq]

theorem ofTypeName_eq (typeName extension : String) :
    ofTypeName typeName extension = (Resource.ofTypeName typeName extension).path := by
  rw [ofTypeName, Resource.ofTypeName]
  cases extension.toList.dropWhile (· == '.') with
  | nil => exact normal_eq _
  | cons c ext => exact normal_eq _

/-- **The texts that are obtained are the paths of resources.**  By induction on how the text was
obtained, with one lemma above for each operation; conversely the path of a resource is cleaned up
to itself. -/
theorem obtained_iff {p : String} : Obtained p ↔ ∃ r : Resource, r.path = p := by
  constructor
  · intro h
    induction h with
    | new path => exact ⟨_, (normal_eq path).symm⟩
    | ofTypeName typeName extension => exact ⟨_, (ofTypeName_eq typeName extension).symm⟩
    | parent below h ih =>
      obtain ⟨r, rfl⟩ := ih
      rw [parent?_path] at h
      obtain ⟨q, -, hq⟩ := Option.map_eq_some_iff.mp h
      exact ⟨q, hq⟩
    | resolve base reference ih =>
      obtain ⟨r, rfl⟩ := ih
      exact ⟨_, (resolve_path r reference).symm⟩
  · rintro ⟨r, rfl⟩
    rw [← normal_path]
    exact .new r.path

/-! ## 4. Paths are normal -/

/-- What is to be said of the path of a document, as a text. -/
structure IsNormal (p : String) : Prop where
  /-- It is a slash, and its segments with slashes between them. -/
  joined : p = "/" ++ String.intercalate "/" (segments p)
  /-- No segment is empty or means a direction, and none has a separator in it. -/
  clean : ∀ s ∈ segments p, s ≠ "" ∧ s ≠ "." ∧ s ≠ ".." ∧ '/' ∉ s.toList ∧ '\\' ∉ s.toList
  /-- Cleaned up it stays what it is. -/
  fixed : normal p = p
  /-- Only the root has no parent; what is not the root has the segments of its parent and its
  name. -/
  parted : if p = "/" then segments p = [] ∧ parent? p = none
    else ∃ up, Obtained up ∧ parent? p = some up ∧ segments p = segments up ++ [name p]

/-- **The path of a resource is normal.**  Everything is read off its segments, which are clean by
the structure. -/
theorem isNormal_path (r : Resource) : IsNormal r.path := by
  refine ⟨?_, ?_, normal_path r, ?_⟩
  · rw [segments_path, Resource.path]
  · intro s hs
    rw [segments_path] at hs
    have h := r.clean s hs
    exact ⟨h.1, h.2.1, h.2.2.1, h.not_mem_slash, h.not_mem_backslash⟩
  · rw [segments_path, parent?_path, Resource.parent?]
    split
    · rename_i h
      have hroot := Resource.path_eq_slash_iff.mp h
      exact ⟨hroot, by rw [if_pos hroot]; rfl⟩
    · rename_i h
      have hbelow : r.segments ≠ [] := mt Resource.path_eq_slash_iff.mpr h
      refine ⟨r.up.path, obtained_iff.mpr ⟨r.up, rfl⟩, by rw [if_neg hbelow]; rfl, ?_⟩
      rw [segments_path, name_path]
      exact Resource.segments_eq_append_name hbelow

end PathText

end LivingDoc
