import LivingDoc.Proofs.Resource.Paths
import LivingDoc.Proofs.Text.Trimming

/-!
# References read on segments

A reference is resolved by way of a text: the path of the place that the document lies in, a slash,
and what the reference says, all of which is read as a path again.  On segments nothing of this is
needed.  One walks on from where the document lies, or from the root, and each piece of the
reference is a step up, a step down, or none.

* `Resource.walk_iff`: the steps lead where the pieces of a path do.
* `Resource.ofPath_append`: a path can be read in two parts, the first cleaned up before the second.
* `Resource.resolves_by_segments`: what follows for references.
-/

namespace LivingDoc

namespace Resource

/-! ## 1. Walking -/

/-- One step from segments to segments, as a piece of a path says: nothing and a dot stay, two dots
lead up or stay at the root, and anything else leads down.  One constructor for each of the four,
and no order of tests among them. -/
inductive Step : List String → String → List String → Prop
  | stay {segments : List String} {piece : String} (h : piece = "" ∨ piece = ".") :
      Step segments piece segments
  | root : Step [] ".." []
  | up (segments : List String) (s : String) : Step (segments ++ [s]) ".." segments
  | down (segments : List String) {piece : String} (hempty : piece ≠ "") (hdot : piece ≠ ".")
      (hdots : piece ≠ "..") : Step segments piece (segments ++ [piece])

/-- The steps that pieces say, from the first to the last. -/
inductive Walk : List String → List String → List String → Prop
  | done (segments : List String) : Walk segments [] segments
  | step {a b c : List String} {piece : String} {others : List String} (first : Step a piece b)
      (rest : Walk b others c) : Walk a (piece :: others) c

/-- **A piece leads where its step does**, and nowhere else, so a step is a function of the
piece. -/
theorem step_iff {a b : List String} {piece : String} : Step a piece b ↔ advance a piece = b := by
  constructor
  · intro h
    cases h with
    | stay h => exact if_pos h
    | root => rfl
    | up s =>
      rw [advance, if_neg (by decide), if_pos rfl, List.dropLast_concat]
    | down _ hempty hdot hdots =>
      rw [advance, if_neg (not_or.mpr ⟨hempty, hdot⟩), if_neg hdots]
  · rintro rfl
    rw [advance]
    split
    case isTrue h => exact .stay h
    case isFalse h =>
      obtain ⟨hempty, hdot⟩ := not_or.mp h
      split
      case isTrue hdots =>
        subst hdots
        rcases List.eq_nil_or_concat' a with rfl | ⟨segments, s, rfl⟩
        · exact .root
        · rw [List.dropLast_concat]
          exact .up segments s
      case isFalse hdots => exact .down a hempty hdot hdots

/-- **The steps lead where the pieces do.**  By induction on the pieces, with the segments left
open. -/
theorem walk_iff {a c ps : List String} : Walk a ps c ↔ ps.foldl advance a = c := by
  induction ps generalizing a with
  | nil =>
    constructor
    · rintro ⟨⟩
      rfl
    · rintro rfl
      exact .done a
  | cons p ps ih =>
    constructor
    · rintro (_ | ⟨first, rest⟩)
      rw [List.foldl_cons, step_iff.mp first]
      exact ih.mp rest
    · intro h
      exact .step (step_iff.mpr rfl) (ih.mpr h)

/-! ## 2. Paths in two parts -/

theorem segments_ofPath (path : String) :
    (ofPath path).segments = (pieces path).foldl advance [] := rfl

/-- What is behind a slash leads on from where the part in front of it leads: the pieces of the
whole are those of the two parts, and leading is a fold over them. -/
theorem segments_ofPath_append (base reference : String) :
    (ofPath (base ++ "/" ++ reference)).segments
      = (pieces reference).foldl advance (ofPath base).segments := by
  rw [segments_ofPath, pieces_append_slash, List.foldl_append, segments_ofPath]

/-- **A path can be read in two parts**, the first cleaned up before the second.  So it makes no
difference that a reference is joined to the path of a resource, which is clean, and not to the text
that the resource was made of. -/
theorem ofPath_append (base reference : String) :
    ofPath (base ++ "/" ++ reference) = ofPath ((ofPath base).path ++ "/" ++ reference) := by
  refine ext_segments ?_
  rw [segments_ofPath_append, segments_ofPath_append, ofPath_path]

/-- The text in front of a reference leads to where the document lies; for the root it is empty. -/
theorem segments_ofPath_parent (r : Resource) :
    (ofPath ((r.parent?.map path).getD "")).segments = r.segments.dropLast := by
  rw [parent?]
  split
  · rename_i h
    rw [h]
    rfl
  · rw [Option.map_some, Option.getD_some, ofPath_path]
    rfl

/-! ## 3. References -/

/-- What a reference says is cut off at the first character that begins a query or a fragment. -/
theorem referencePath_append {cut behind : String}
    (hcut : ∀ c ∈ cut.toList, c ≠ '#' ∧ c ≠ '?')
    (hbehind : ∀ c ∈ behind.toList.head?, c = '#' ∨ c = '?') :
    referencePath (cut ++ behind) = Text.trim cut.toList := by
  have hends : ∀ c ∈ behind.toList.head?, (c != '#' && c != '?') = false := by
    intro c hc
    rcases hbehind c hc with rfl | rfl <;> rfl
  have hruns : ∀ c ∈ cut.toList, (c != '#' && c != '?') = true := by
    intro c hc
    obtain ⟨hsharp, hquestion⟩ := hcut c hc
    simp [hsharp, hquestion]
  rw [referencePath, String.toList_append,
    (Text.takeWhile_and_dropWhile_iff.mpr ⟨rfl, hruns, hends⟩).1]

theorem resolve_of_empty {r : Resource} {reference : String} (h : referencePath reference = []) :
    r.resolve reference = r := by
  rw [resolve, h]

/-- A reference from the root is a path. -/
theorem resolve_of_slash {r : Resource} {reference : String} {cs : List Char}
    (h : referencePath reference = '/' :: cs) :
    r.resolve reference = ofPath (String.ofList (referencePath reference)) := by
  rw [resolve, h]
  rfl

theorem resolve_of_ne_slash {r : Resource} {reference : String}
    (hne : referencePath reference ≠ []) (hslash : (referencePath reference).head? ≠ some '/') :
    r.resolve reference = ofPath
      ((r.parent?.map path).getD "" ++ "/" ++ String.ofList (referencePath reference)) := by
  rw [resolve]
  split
  case h_1 h => exact absurd h hne
  case h_2 cs h => exact absurd (by rw [h]; rfl) hslash
  case h_3 => rfl

/-- **A reference that says something is walked**, from the root or from where the document lies. -/
theorem walk_resolve (r : Resource) {reference : String} (hne : referencePath reference ≠ []) :
    Walk (if (referencePath reference).head? = some '/' then [] else r.segments.dropLast)
      (pieces (String.ofList (referencePath reference))) (r.resolve reference).segments := by
  refine walk_iff.mpr ?_
  split
  case isTrue hslash =>
    obtain ⟨cs, hcs⟩ := List.head?_eq_some_iff.mp hslash
    rw [resolve_of_slash hcs, segments_ofPath]
  case isFalse hslash =>
    rw [resolve_of_ne_slash hne hslash, segments_ofPath_append, segments_ofPath_parent]

/-- The path of a resource is a reference to it, if nothing of it is cut or trimmed off.  Both
conditions are needed: a segment may hold a `#`, and the last one may end in a blank character. -/
theorem resolve_path_of_uncut (r t : Resource) (hcut : ∀ c ∈ t.path.toList, c ≠ '#' ∧ c ≠ '?')
    (hblank : ∀ c ∈ t.path.toList.getLast?, Text.isBlank c = false) : r.resolve t.path = t := by
  have hpath : t.path.toList = '/' :: (String.intercalate "/" t.segments).toList := by
    rw [path, String.toList_append]
    rfl
  have htrimmed : Text.IsTrimmed t.path.toList :=
    ⟨by rw [hpath]; exact Text.head?_cons_of (by decide) _, hblank⟩
  have href : referencePath t.path = t.path.toList := by
    have happend : referencePath (t.path ++ "") = _ := referencePath_append hcut (by simp)
    rw [String.append_empty] at happend
    rw [happend, htrimmed.trim_self]
  rw [resolve_of_slash (href.trans hpath), href, String.ofList_toList, ofPath_path]

/-- **References are resolved on segments.**  A reference is cut off at its first `#` or `?` and
trimmed.  If nothing is left it leads to the document itself.  Otherwise its pieces are walked, from
the root if it begins with a slash and else from the segments of the document without the last.  So
a path can be cleaned up part by part, and the path of a resource leads to it from everywhere, if
nothing is cut or trimmed off. -/
theorem resolves_by_segments (r : Resource) :
    (∀ cut behind : String, (∀ c ∈ cut.toList, c ≠ '#' ∧ c ≠ '?') →
      (∀ c ∈ behind.toList.head?, c = '#' ∨ c = '?') →
        referencePath (cut ++ behind) = Text.trim cut.toList) ∧
    (∀ reference, referencePath reference = [] → r.resolve reference = r) ∧
    (∀ reference, referencePath reference ≠ [] →
      Walk (if (referencePath reference).head? = some '/' then [] else r.segments.dropLast)
        (pieces (String.ofList (referencePath reference))) (r.resolve reference).segments) ∧
    (∀ base reference : String,
      ofPath (base ++ "/" ++ reference) = ofPath ((ofPath base).path ++ "/" ++ reference)) ∧
    ∀ t : Resource, (∀ c ∈ t.path.toList, c ≠ '#' ∧ c ≠ '?') →
      (∀ c ∈ t.path.toList.getLast?, Text.isBlank c = false) → r.resolve t.path = t :=
  ⟨fun _ _ => referencePath_append, fun _ => resolve_of_empty, fun _ => walk_resolve r,
    ofPath_append, resolve_path_of_uncut r⟩

-- Two steps up lead no further than the root, and a backslash separates as a slash does.
example : (ofPath "/a/b.html").resolve " ../..\\c.html#top " = ofPath "/c.html" := by
  decide +kernel

end Resource

end LivingDoc
