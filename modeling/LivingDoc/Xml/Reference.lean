import LivingDoc.Number.Digits
import LivingDoc.Xml.Scan

/-!
# References

A run of text or an attribute value is a row of pieces: characters that stand for themselves,
references to characters, and references to entities.  The five names that every document has, `lt`,
`gt`, `amp`, `apos` and `quot`, are references to characters.  A piece that can turn out to be wrong
carries the number of characters of the run that are left at its place.
-/

namespace LivingDoc.Xml

/-- What a reference refers to. -/
inductive Reference where
  | character (c : Char)
  | entity (name : String)
deriving DecidableEq, Repr

/-- A piece of a run. -/
inductive Piece where
  /-- A character that stands for itself. -/
  | literal (c : Char)
  /-- A reference to a character, with the characters left at its `&`. -/
  | character (c : Char) (left : Nat)
  /-- A reference to an entity, with the characters left at its `&` and behind it. -/
  | entity (name : String) (left behind : Nat)
  /-- A `&` that starts no reference. -/
  | malformed (left : Nat)
deriving DecidableEq, Repr

/-! ## 1. One reference -/

/-- The character with the number; a number that no character has stands for the replacement
character, which then has to be allowed. -/
def characterNumbered (n : Nat) : Char :=
  if n.isValidChar then Char.ofNat n else '\ufffd'

/-- A character given by its number, from behind the `#` and the mark of the base.  The number has
to fit into 32 bits and to name a character that a document may hold. -/
def numberReference? (base : Nat) (cs : List Char) : Option (Reference × List Char) :=
  let ds := cs.takeWhile (isDigitOf base)
  let c := characterNumbered (digitsValue base ds)
  match cs.dropWhile (isDigitOf base) with
  | ';' :: rest =>
    if !ds.isEmpty && digitsValue base ds < 0x100000000 && isAllowed c then
      some (.character c, rest)
    else none
  | _ => none

/-- The five names that stand for a character in every document. -/
def predefined? : String → Option Char
  | "quot" => some '"'
  | "amp" => some '&'
  | "apos" => some '\''
  | "lt" => some '<'
  | "gt" => some '>'
  | _ => none

/-- A reference by name, from behind the `&`. -/
def nameReference? (cs : List Char) : Option (Reference × List Char) :=
  match name cs with
  | .ok (n, ';' :: rest) =>
    match predefined? n with
    | some c => some (.character c, rest)
    | none => some (.entity n, rest)
  | _ => none

/-- A reference, from behind its `&`. -/
def reference? : List Char → Option (Reference × List Char)
  | '#' :: 'x' :: r => numberReference? 16 r
  | '#' :: r => numberReference? 10 r
  | r => nameReference? r

theorem numberReference?_length_lt {base : Nat} {cs rest : List Char} {x : Reference}
    (h : numberReference? base cs = some (x, rest)) : rest.length < cs.length := by
  have hd := (List.dropWhile_sublist (l := cs) (isDigitOf base)).length_le
  simp only [numberReference?] at h
  split at h
  · rename_i r heq
    split at h <;> simp at h
    rw [← h.2]
    rw [heq] at hd
    simp only [List.length_cons] at hd
    omega
  · simp at h

theorem nameReference?_length_lt {cs rest : List Char} {x : Reference}
    (h : nameReference? cs = some (x, rest)) : rest.length < cs.length := by
  simp only [nameReference?] at h
  split at h
  · rename_i n r hn
    have := name_length_lt hn
    simp only [List.length_cons] at this
    split at h <;> simp only [Option.some.injEq, Prod.mk.injEq] at h <;> rw [← h.2] <;> omega
  · simp at h

theorem reference?_length_lt {cs rest : List Char} {x : Reference}
    (h : reference? cs = some (x, rest)) : rest.length < cs.length := by
  unfold reference? at h
  split at h
  · have := numberReference?_length_lt h
    simp only [List.length_cons]
    omega
  · have := numberReference?_length_lt h
    simp only [List.length_cons]
    omega
  · exact nameReference?_length_lt h

/-! ## 2. All pieces of a run -/

/-- The pieces of a run, in order.  They end at a `&` that starts no reference, since that is a
fault once the pieces before it have been used. -/
def pieces : List Char → List Piece
  | [] => []
  | c :: cs =>
    if c = '&' then
      match h : reference? cs with
      | some (.character d, rest) =>
        have := reference?_length_lt h
        .character d (cs.length + 1) :: pieces rest
      | some (.entity n, rest) =>
        have := reference?_length_lt h
        .entity n (cs.length + 1) rest.length :: pieces rest
      | none => [.malformed (cs.length + 1)]
    else .literal c :: pieces cs
termination_by cs => cs.length
decreasing_by all_goals (simp only [List.length_cons]; omega)

end LivingDoc.Xml
