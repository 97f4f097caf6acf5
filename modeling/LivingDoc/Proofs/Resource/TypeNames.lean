import LivingDoc.Proofs.Resource.Paths

/-!
# The document of a type

The document that belongs to a fixture has the name of the fixture's type for its path, so no two
types may share one.  The name is turned into a path as a text: separators are replaced, the
extension is put behind, and the whole is cleaned up as any path is, which can drop pieces and take
others back.

* `Resource.typePath_eq_map`: the separators can be replaced one kind after the other.
* `Resource.segments_ofTypeName`: the parts of a type name are the segments of its document, the
  last with the extension.
* `Resource.ofTypeName_identifies`: so the document says the parts, and nothing else of the name.
-/

namespace LivingDoc

namespace Resource

/-! ## 1. Separators in type names -/

/-- Each pair of colons replaced by a character, from left to right, so of three colons the first
two are the pair. -/
def colonsAs (sep : Char) : List Char → List Char
  | ':' :: ':' :: cs => sep :: colonsAs sep cs
  | c :: cs => c :: colonsAs sep cs
  | [] => []

theorem colonsAs_cons (sep : Char) {c : Char} {cs : List Char}
    (h : ∀ rest, c = ':' → cs ≠ ':' :: rest) : colonsAs sep (c :: cs) = c :: colonsAs sep cs := by
  rw [colonsAs]
  exact fun rest hc hcs => h rest hc hcs

theorem typePath_cons {c : Char} {cs : List Char} (h : ∀ rest, c = ':' → cs ≠ ':' :: rest)
    (hpoint : c ≠ '.') : typePath (c :: cs) = c :: typePath cs := by
  rw [typePath]
  · exact fun rest hc hcs => h rest hc hcs
  · exact hpoint

/-- **A type name becomes a path by two replacements**: pairs of colons first, and then points.  By
the recursion of `typePath`. -/
theorem typePath_eq_map (cs : List Char) :
    typePath cs = (colonsAs '/' cs).map fun c => if c = '.' then '/' else c := by
  induction cs using typePath.induct with
  | case1 cs ih => rw [typePath, colonsAs, List.map_cons, ih, if_neg (by decide)]
  | case2 cs ih =>
    rw [typePath, colonsAs_cons '/' (by simp), List.map_cons, ih, if_pos rfl]
  | case3 c cs hcolons hpoint ih =>
    rw [typePath_cons hcolons hpoint, colonsAs_cons '/' hcolons, List.map_cons, ih, if_neg hpoint]
  | case4 => rfl

/-- No pair of colons comes up where the others are replaced: what is put in is no colon. -/
theorem colonsAs_ne_cons {cs : List Char} (h : ∀ rest, cs ≠ ':' :: rest) (rest : List Char) :
    colonsAs '.' cs ≠ ':' :: rest := by
  cases cs with
  | nil => exact (List.cons_ne_nil _ _).symm
  | cons c cs =>
    have hc : c ≠ ':' := fun hc => h cs (by rw [hc])
    rw [colonsAs_cons '.' fun _ hcolon => absurd hcolon hc]
    exact fun heq => hc (List.head_eq_of_cons_eq heq)

/-- **Two colons may be replaced by a point**, and the document stays the same. -/
theorem typePath_colonsAs (cs : List Char) : typePath (colonsAs '.' cs) = typePath cs := by
  induction cs using typePath.induct with
  | case1 cs ih => rw [colonsAs, typePath, typePath, ih]
  | case2 cs ih =>
    rw [colonsAs_cons '.' (by simp), typePath, typePath, ih]
  | case3 c cs hcolons hpoint ih =>
    rw [colonsAs_cons '.' hcolons, typePath_cons _ hpoint, typePath_cons hcolons hpoint, ih]
    exact fun rest hc => colonsAs_ne_cons (fun rest => hcolons rest hc) rest
  | case4 => rfl

example : typePath "a:::b::.c".toList = "a/:b//c".toList := by decide

/-! ## 2. The parts of a type name -/

/-- A part of a type name: it is not empty, and nothing in it separates, neither in the name nor in
a path. -/
def IsPart (s : String) : Prop := s ≠ "" ∧ ∀ c ∈ s.toList, c ≠ '.' ∧ c ≠ ':' ∧ c ≠ '/' ∧ c ≠ '\\'

instance (s : String) : Decidable (IsPart s) :=
  @instDecidableAnd _ _ _ (List.decidableBAll _ _)

/-- The type names that are made of parts, with a point or two colons between one and the next. -/
inductive SpellsType : List String → String → Prop
  | last {s : String} (part : IsPart s) : SpellsType [s] s
  | point {s : String} {parts : List String} {name : String} (part : IsPart s)
      (rest : SpellsType parts name) : SpellsType (s :: parts) (s ++ "." ++ name)
  | colons {s : String} {parts : List String} {name : String} (part : IsPart s)
      (rest : SpellsType parts name) : SpellsType (s :: parts) (s ++ "::" ++ name)

/-- What an extension puts behind a name: a point and the extension without the points in front, if
anything is left of it. -/
def ending (extension : String) : String :=
  let bare := extension.toList.dropWhile (· == '.')
  if bare = [] then "" else String.ofList ('.' :: bare)

theorem IsPart.not_separator {s : String} (h : IsPart s) :
    ∀ c ∈ s.toList, isSeparator c = false := by
  intro c hc
  obtain ⟨-, -, hslash, hback⟩ := h.2 c hc
  simp [isSeparator, hslash, hback]

/-- A text with a part in front, and nothing that separates behind it, is a segment.  It could only
fail to be one by being dots, and its first character is none. -/
theorem IsPart.isSegment_append {s behind : String} (h : IsPart s)
    (hbehind : ∀ c ∈ behind.toList, isSeparator c = false) : IsSegment (s ++ behind) := by
  obtain ⟨c, cs, hs⟩ := List.exists_cons_of_ne_nil (mt String.toList_eq_nil_iff.mp h.1)
  have hpoint : c ≠ '.' := (h.2 c (by rw [hs]; exact List.mem_cons_self)).1
  have hhead : (s ++ behind).toList.head? = some c := by
    rw [String.toList_append, hs]
    rfl
  refine ⟨?_, ?_, ?_, ?_⟩
  · rintro heq
    simp [heq] at hhead
  · rintro heq
    rw [heq] at hhead
    exact hpoint (Option.some.inj hhead).symm
  · rintro heq
    rw [heq] at hhead
    exact hpoint (Option.some.inj hhead).symm
  · rw [String.toList_append]
    exact List.forall_mem_append.mpr ⟨h.not_separator, hbehind⟩

theorem IsPart.isSegment {s : String} (h : IsPart s) : IsSegment s := by
  have hnone : ∀ c ∈ "".toList, isSeparator c = false := by simp
  have hs := h.isSegment_append hnone
  rwa [String.append_empty] at hs

theorem typePath_append {w : List Char} (h : ∀ c ∈ w, c ≠ '.' ∧ c ≠ ':') (cs : List Char) :
    typePath (w ++ cs) = w ++ typePath cs := by
  induction w with
  | nil => rfl
  | cons c w ih =>
    obtain ⟨⟨hpoint, hcolon⟩, hw⟩ := List.forall_mem_cons.mp h
    rw [List.cons_append, typePath_cons (fun _ hc => absurd hc hcolon) hpoint, ih hw,
      List.cons_append]

theorem IsPart.plain {s : String} (h : IsPart s) : ∀ c ∈ s.toList, c ≠ '.' ∧ c ≠ ':' :=
  fun c hc => ⟨(h.2 c hc).1, (h.2 c hc).2.1⟩

namespace SpellsType

variable {parts : List String} {name : String}

theorem parts_ne_nil (h : SpellsType parts name) : parts ≠ [] := by
  cases h <;> exact List.cons_ne_nil _ _

theorem isPart (h : SpellsType parts name) : ∀ s ∈ parts, IsPart s := by
  induction h with
  | last part => exact List.forall_mem_singleton.mpr part
  | point part _ ih => exact List.forall_mem_cons.mpr ⟨part, ih⟩
  | colons part _ ih => exact List.forall_mem_cons.mpr ⟨part, ih⟩

theorem toList_intercalate_cons (h : SpellsType parts name) (s : String) :
    (String.intercalate "/" (s :: parts)).toList =
      s.toList ++ '/' :: (String.intercalate "/" parts).toList := by
  obtain ⟨t, others, rfl⟩ := List.exists_cons_of_ne_nil h.parts_ne_nil
  rw [String.intercalate_cons_cons]
  simp

/-- **A type name becomes its parts with slashes between them.**  By induction on the spelling, one
case for each separator. -/
theorem typePath_toList (h : SpellsType parts name) :
    typePath name.toList = (String.intercalate "/" parts).toList := by
  induction h with
  | @last s part =>
    have hs := typePath_append part.plain []
    rwa [List.append_nil, typePath, List.append_nil] at hs
  | @point s parts name part rest ih =>
    have hname : (s ++ "." ++ name).toList = s.toList ++ '.' :: name.toList := by simp
    rw [hname, typePath_append part.plain, typePath, ih, rest.toList_intercalate_cons]
  | @colons s parts name part rest ih =>
    have hname : (s ++ "::" ++ name).toList = s.toList ++ ':' :: ':' :: name.toList := by simp
    rw [hname, typePath_append part.plain, typePath, ih, rest.toList_intercalate_cons]

end SpellsType

/-! ## 3. The document -/

theorem ofTypeName_eq (name extension : String) :
    ofTypeName name extension = ofPath (String.ofList (typePath name.toList) ++ ending extension) := by
  unfold ofTypeName ending
  cases extension.toList.dropWhile (· == '.') with
  | nil => exact congrArg ofPath String.append_empty.symm
  | cons c cs => simp [String.ofList_append]

theorem ending_not_separator {extension : String}
    (h : ∀ c ∈ extension.toList, isSeparator c = false) :
    ∀ c ∈ (ending extension).toList, isSeparator c = false := by
  unfold ending
  dsimp only
  split
  · simp
  · intro c hc
    rw [String.toList_ofList] at hc
    rcases List.mem_cons.mp hc with rfl | hc
    · rfl
    · exact h c (List.dropWhile_subset _ hc)

/-- What stands behind a path stands behind its last segment. -/
theorem intercalate_concat_append (front : List String) (last behind : String) :
    String.intercalate "/" (front ++ [last]) ++ behind =
      String.intercalate "/" (front ++ [last ++ behind]) := by
  by_cases h : front = []
  · rw [h, List.nil_append, List.nil_append, String.intercalate_singleton,
      String.intercalate_singleton]
  · rw [String.intercalate_append_of_ne_nil h (List.cons_ne_nil _ _),
      String.intercalate_append_of_ne_nil h (List.cons_ne_nil _ _), String.intercalate_singleton,
      String.intercalate_singleton, String.append_assoc]

/-- **The segments of the document are the parts of the type name**, the last with the ending.  The
path is made of segments that are clean as they stand, so cleaning it up drops and takes back
nothing. -/
theorem segments_ofTypeName {front : List String} {last name extension : String}
    (h : SpellsType (front ++ [last]) name)
    (hext : ∀ c ∈ extension.toList, isSeparator c = false) :
    (ofTypeName name extension).segments = front ++ [last ++ ending extension] := by
  have hsegments : ∀ s ∈ front ++ [last ++ ending extension], IsSegment s := by
    intro s hs
    have hparts := h.isPart
    rcases List.mem_append.mp hs with hs | hs
    · exact (hparts s (List.mem_append_left _ hs)).isSegment
    · rw [List.mem_singleton.mp hs]
      exact (hparts last (by simp)).isSegment_append (ending_not_separator hext)
  rw [ofTypeName_eq, h.typePath_toList, String.ofList_toList, intercalate_concat_append]
  show (pieces _).foldl advance [] = _
  rw [pieces_intercalate hsegments (by simp), foldl_advance_of_segments hsegments,
    List.nil_append]

/-- **Type names have one document if and only if they have the same parts.**  The ending is the
same on both sides, so it can be taken off the last segments. -/
theorem ofTypeName_eq_iff {parts others : List String} {name other extension : String}
    (hname : SpellsType parts name) (hother : SpellsType others other)
    (hext : ∀ c ∈ extension.toList, isSeparator c = false) :
    ofTypeName name extension = ofTypeName other extension ↔ parts = others := by
  obtain ⟨front, last, rfl⟩ := (List.eq_nil_or_concat' parts).resolve_left hname.parts_ne_nil
  obtain ⟨front', last', rfl⟩ := (List.eq_nil_or_concat' others).resolve_left hother.parts_ne_nil
  have hsegments := segments_ofTypeName hname hext
  have hsegments' := segments_ofTypeName hother hext
  constructor
  · intro h
    rw [h, hsegments'] at hsegments
    obtain ⟨hfront, hlast⟩ := List.append_inj' hsegments rfl
    have hending := congrArg String.toList (List.head_eq_of_cons_eq hlast)
    rw [String.toList_append, String.toList_append] at hending
    rw [hfront, String.toList_injective (List.append_cancel_right hending)]
  · intro h
    obtain ⟨rfl, hlast⟩ := List.append_inj' h rfl
    obtain rfl := List.head_eq_of_cons_eq hlast
    exact ext_segments (hsegments.trans hsegments'.symm)

/-- **The document of a type says its parts.**  Two colons separate them as a point does.  If
nothing in the extension separates, the segments of the document are the parts, the last with the
extension behind a point unless it is empty; so two names that are made of parts have one document
only if the parts are the same, and then whatever the separators between them are. -/
theorem ofTypeName_identifies :
    (∀ name extension : String,
      ofTypeName (String.ofList (colonsAs '.' name.toList)) extension = ofTypeName name extension) ∧
    ∀ extension : String, (∀ c ∈ extension.toList, isSeparator c = false) →
      (∀ (front : List String) (last name : String), SpellsType (front ++ [last]) name →
        (ofTypeName name extension).segments = front ++ [last ++ ending extension]) ∧
      ∀ (parts others : List String) (name other : String), SpellsType parts name →
        SpellsType others other →
          (ofTypeName name extension = ofTypeName other extension ↔ parts = others) := by
  refine ⟨?_, ?_⟩
  · intro name extension
    rw [ofTypeName_eq, ofTypeName_eq, String.toList_ofList, typePath_colonsAs]
  · intro extension hext
    exact ⟨fun _ _ _ h => segments_ofTypeName h hext,
      fun _ _ _ _ hname hother => ofTypeName_eq_iff hname hother hext⟩

/-- Two spellings of one type, and an extension with points in front. -/
theorem ofTypeName_identifies_greeting :
    (∀ c ∈ "..tar.gz".toList, isSeparator c = false) ∧
    SpellsType (["my_crate", "specs"] ++ ["Greeting"]) "my_crate::specs.Greeting" ∧
    SpellsType ["my_crate", "specs", "Greeting"] "my_crate.specs::Greeting" ∧
    (ofTypeName "my_crate::specs.Greeting" "..tar.gz").segments =
      ["my_crate", "specs", "Greeting.tar.gz"] ∧
    ofTypeName "my_crate::specs.Greeting" "..tar.gz" =
      ofTypeName "my_crate.specs::Greeting" "..tar.gz" := by
  have hext : ∀ c ∈ "..tar.gz".toList, isSeparator c = false := fun c hc =>
    Bool.eq_false_iff.mpr (List.any_eq_false.mp (by decide) c hc)
  have hcrate : IsPart "my_crate" := by decide
  have hspecs : IsPart "specs" := by decide
  have hgreeting : IsPart "Greeting" := by decide
  have hname : SpellsType (["my_crate", "specs"] ++ ["Greeting"]) "my_crate::specs.Greeting" :=
    .colons hcrate (.point hspecs (.last hgreeting))
  have hother : SpellsType ["my_crate", "specs", "Greeting"] "my_crate.specs::Greeting" :=
    .point hcrate (.colons hspecs (.last hgreeting))
  obtain ⟨hsegments, hsame⟩ := ofTypeName_identifies.2 "..tar.gz" hext
  exact ⟨hext, hname, hother, hsegments _ _ _ hname, (hsame _ _ _ _ hname hother).mpr rfl⟩

end Resource

end LivingDoc
