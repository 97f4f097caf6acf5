import LivingDoc.Proofs.Resource.Paths
import LivingDoc.Proofs.Run.Totals
import LivingDoc.Proofs.Text.Trimming

/-!
# What a report says

A report is a text, and whoever reads it has nothing else.  So two summaries must not have one
report, although a message may look like a part of the report itself, and the summary of a document
that was processed is spread over the members of the entry for it, at any depth.

The text of a value is read from its first character on, and behind it stands something that is not
a part of it.  Then it says which value it is, and where it ends.  Only a number needs to know what
is behind it, which must not be a digit.

* `Json.determined_pretty`: what is printed for a value says the value, and where it ends.
* `Summary.report_determines`: so the report of a summary says the summary.
-/

namespace LivingDoc

namespace Json

/-! ## 1. Texts that say where they end -/

/-- No digit comes next.  A number needs this of what is behind it; everything else that is printed
says by itself where it ends. -/
def Closed (rest : List Char) : Prop := ∀ c ∈ rest.head?, c.isDigit = false

theorem closed_cons {c : Char} (h : c.isDigit = false) (rest : List Char) : Closed (c :: rest) :=
  Text.head?_cons_of h rest

/-- What is printed for `x` says that it is `x`, and where it ends.  The text behind is part of the
statement, since the parts of a report are printed one behind the other and have to be told apart
there. -/
def Determined {α : Type} (print : α → List Char) (x : α) : Prop :=
  ∀ (y : α) (u v : List Char), Closed u → Closed v → print x ++ u = print y ++ v → x = y ∧ u = v

/-- A number ends where its digits do, and digits without leading zeros say the number. -/
theorem determined_decimalDigits (n : Nat) : Determined decimalDigits n := by
  intro m u v hu hv h
  have hdigits : ∀ k, ∀ c ∈ decimalDigits k, c.isDigit = true := fun k _ hc =>
    Nat.isDigit_of_mem_toDigits (by decide) (by decide) hc
  obtain ⟨hn, hnu⟩ := Text.takeWhile_and_dropWhile_iff.mpr ⟨rfl, hdigits n, hu⟩
  obtain ⟨hm, hmv⟩ := Text.takeWhile_and_dropWhile_iff.mpr ⟨h, hdigits m, hv⟩
  have hnumber : decimalDigits n = decimalDigits m := hn.symm.trans hm
  refine ⟨?_, hnu.symm.trans hmv⟩
  rw [← Nat.ofDigitChars_ten_toDigits (n := n), ← Nat.ofDigitChars_ten_toDigits (n := m)]
  exact congrArg (fun ds => Nat.ofDigitChars 10 ds 0) hnumber

/-! ## 2. Quoted strings -/

/-- The first character of what a quoted string holds, and what is behind it; there is none at the
closing quote.  A reader of one character: with it the escapes are told apart once, and not in every
comparison of two of them. -/
def firstQuoted : List Char → Option (Char × List Char)
  | '\\' :: 'u' :: '0' :: '0' :: x :: y :: rest =>
    some (Char.ofNat (16 * digitValue x + digitValue y), rest)
  | '\\' :: 'b' :: rest => some ('\x08', rest)
  | '\\' :: 'f' :: rest => some ('\x0c', rest)
  | '\\' :: 'n' :: rest => some ('\n', rest)
  | '\\' :: 'r' :: rest => some ('\r', rest)
  | '\\' :: 't' :: rest => some ('\t', rest)
  | '\\' :: c :: rest => some (c, rest)
  | c :: rest => if c = '"' then none else some (c, rest)
  | [] => none

theorem digitValue_hexDigit : ∀ n < 16, digitValue (hexDigit n) = n := by decide

/-- **An escaped character is the first that is read**, whichever of the eight ways it is written
in. -/
theorem firstQuoted_escape (c : Char) (rest : List Char) :
    firstQuoted (escape c ++ rest) = some (c, rest) := by
  unfold escape
  split
  · subst c
    rfl
  split
  · subst c
    rfl
  split
  · rename_i hcode
    rw [Char.toNat_inj.mp (hcode.trans (by rfl : 0x08 = '\x08'.toNat))]
    rfl
  split
  · rename_i hcode
    rw [Char.toNat_inj.mp (hcode.trans (by rfl : 0x0C = '\x0c'.toNat))]
    rfl
  split
  · subst c
    rfl
  split
  · subst c
    rfl
  split
  · subst c
    rfl
  split
  · rename_i hcontrol
    have hcode : 16 * (c.toNat / 16) + c.toNat % 16 = c.toNat := Nat.div_add_mod _ _
    simp only [List.cons_append, List.nil_append, firstQuoted]
    rw [digitValue_hexDigit _ (by omega), digitValue_hexDigit _ (by omega), hcode,
      Char.ofNat_toNat]
  · rename_i hquote hslash _ _ _ _ _ _
    rw [List.singleton_append]
    unfold firstQuoted
    split <;> simp_all

/-- What a quoted string holds ends at its closing quote.  By induction on the characters of one of
the two; where only one of them ends, the reader finds a character on one side and none on the
other. -/
theorem escaped_append_inj (cs ds : List Char) {u v : List Char}
    (h : cs.flatMap escape ++ '"' :: u = ds.flatMap escape ++ '"' :: v) : cs = ds ∧ u = v := by
  induction cs generalizing ds with
  | nil =>
    cases ds with
    | nil => exact ⟨rfl, List.tail_eq_of_cons_eq h⟩
    | cons d ds =>
      have hfirst := congrArg firstQuoted h
      rw [List.flatMap_cons, List.append_assoc, firstQuoted_escape] at hfirst
      exact absurd hfirst (by simp [firstQuoted])
  | cons c cs ih =>
    have hfirst := congrArg firstQuoted h
    rw [List.flatMap_cons, List.append_assoc, firstQuoted_escape] at hfirst
    cases ds with
    | nil => exact absurd hfirst (by simp [firstQuoted])
    | cons d ds =>
      rw [List.flatMap_cons, List.append_assoc, firstQuoted_escape] at hfirst
      obtain ⟨rfl, hrest⟩ := Prod.mk.inj (Option.some.inj hfirst)
      obtain ⟨rfl, huv⟩ := ih ds hrest
      exact ⟨rfl, huv⟩

/-- **A quoted string says what it holds and where it ends**, whatever characters are in it: a
message may look like a part of the report. -/
theorem quoted_append_inj {s t : String} {u v : List Char}
    (h : quoted s ++ u = quoted t ++ v) : s = t ∧ u = v := by
  simp only [quoted, List.cons_append, List.append_assoc, List.nil_append] at h
  obtain ⟨hst, huv⟩ := escaped_append_inj s.toList t.toList (List.tail_eq_of_cons_eq h)
  exact ⟨String.toList_injective hst, huv⟩

/-! ## 3. Lists in brackets -/

section Block

variable {α : Type}

/-- What stands behind an item: the others, each behind a comma on a line of its own, and the end of
the last line. -/
def others (print : α → List Char) (depth : Nat) : List α → List Char → List Char
  | [], rest => '\n' :: rest
  | x :: xs, rest => ',' :: newLine depth ++ print x ++ others print depth xs rest

/-- A list in brackets, with a line for each item.  Arrays and objects are both printed so, and what
is proved of it is proved once for the two. -/
def block (left right : Char) (print : α → List Char) (depth : Nat) : List α → List Char
  | [] => [left, right]
  | x :: xs => left :: newLine (depth + 1) ++ print x
      ++ others print (depth + 1) xs (List.replicate (2 * depth) ' ' ++ [right])

theorem closed_others (print : α → List Char) (depth : Nat) (xs : List α) (rest : List Char) :
    Closed (others print depth xs rest) := by
  cases xs with
  | nil => exact closed_cons (by decide) _
  | cons x xs => exact closed_cons (by decide) _

theorem others_append (print : α → List Char) (depth : Nat) (xs : List α) (u v : List Char) :
    others print depth xs u ++ v = others print depth xs (u ++ v) := by
  induction xs with
  | nil => rfl
  | cons x xs ih => simp only [others, List.append_assoc, List.cons_append, ih]

variable {print : α → List Char}

/-- **The items behind an item say what they are**, and end at the end of their last line.  By
induction on the items: a comma or a line end comes next, which tells whether there is another
one. -/
theorem others_inj {depth : Nat} {xs ys : List α} {u v : List Char}
    (hall : ∀ x ∈ xs, Determined print x)
    (h : others print depth xs u = others print depth ys v) : xs = ys ∧ u = v := by
  induction xs generalizing ys with
  | nil =>
    cases ys with
    | nil => exact ⟨rfl, List.tail_eq_of_cons_eq h⟩
    | cons y ys => exact absurd (List.head_eq_of_cons_eq h) (by decide)
  | cons x xs ih =>
    cases ys with
    | nil => exact absurd (List.head_eq_of_cons_eq h) (by decide)
    | cons y ys =>
      obtain ⟨hx, hxs⟩ := List.forall_mem_cons.mp hall
      simp only [others, List.append_assoc, List.cons_append, List.cons.injEq, true_and,
        List.append_cancel_left_eq] at h
      obtain ⟨rfl, hrest⟩ := hx y _ _ (closed_others _ _ _ _) (closed_others _ _ _ _) h
      obtain ⟨rfl, huv⟩ := ih hxs hrest
      exact ⟨rfl, huv⟩

/-- **A list in brackets says its items**, provided that each of them does; an empty one has its
bracket where another has a line end. -/
theorem determined_block {left right : Char} (hright : right ≠ '\n') {depth : Nat} {xs : List α}
    (hall : ∀ x ∈ xs, Determined print x) : Determined (block left right print depth) xs := by
  intro ys u v _ _ h
  cases xs with
  | nil =>
    cases ys with
    | nil => exact ⟨rfl, List.append_cancel_left h⟩
    | cons y ys => exact absurd (List.head_eq_of_cons_eq (List.tail_eq_of_cons_eq h)) hright
  | cons x xs =>
    cases ys with
    | nil => exact absurd (List.head_eq_of_cons_eq (List.tail_eq_of_cons_eq h)).symm hright
    | cons y ys =>
      obtain ⟨hx, hxs⟩ := List.forall_mem_cons.mp hall
      simp only [block, List.append_assoc, List.cons_append, List.cons.injEq, true_and,
        List.append_cancel_left_eq, others_append] at h
      obtain ⟨rfl, hrest⟩ := hx y _ _ (closed_others _ _ _ _) (closed_others _ _ _ _) h
      obtain ⟨rfl, huv⟩ := others_inj hxs hrest
      exact ⟨rfl, List.tail_eq_of_cons_eq (List.append_cancel_left huv)⟩

end Block

/-! ## 4. Values -/

theorem prettyItems_cons (depth : Nat) (i : Json) (is : List Json) (rest : List Char) :
    prettyItems depth (i :: is) ++ '\n' :: rest =
      newLine depth ++ pretty depth i ++ others (pretty depth) depth is rest := by
  induction is generalizing i with
  | nil => rw [prettyItems, others]
  | cons j is ih =>
    rw [prettyItems, others, List.append_assoc, List.cons_append, ih]
    · simp only [List.cons_append, List.append_assoc]
    · exact List.cons_ne_nil _ _

/-- A member of an object as it is printed behind the start of its line. -/
def printMember (depth : Nat) (m : String × Json) : List Char :=
  quoted m.1 ++ ':' :: ' ' :: pretty depth m.2

theorem prettyMembers_cons (depth : Nat) (m : String × Json) (ms : List (String × Json))
    (rest : List Char) :
    prettyMembers depth (m :: ms) ++ '\n' :: rest =
      newLine depth ++ printMember depth m ++ others (printMember depth) depth ms rest := by
  have hline : ∀ l, prettyMember depth l = newLine depth ++ printMember depth l := by
    intro l
    rw [prettyMember, printMember, List.append_assoc]
  induction ms generalizing m with
  | nil => rw [prettyMembers, others, hline]
  | cons l ms ih =>
    rw [prettyMembers, others, hline, List.append_assoc _ (',' :: _), List.cons_append, ih]
    · simp only [List.cons_append, List.append_assoc]
    · exact List.cons_ne_nil _ _

theorem pretty_array (depth : Nat) (is : List Json) :
    pretty depth (.array is) = block '[' ']' (pretty (depth + 1)) depth is := by
  cases is with
  | nil => rw [pretty, block]
  | cons i is =>
    have hitems := prettyItems_cons (depth + 1) i is (List.replicate (2 * depth) ' ' ++ [']'])
    rw [pretty, block, List.cons_append, List.cons_append, List.append_assoc]
    exact congrArg ('[' :: ·) hitems

theorem pretty_object (depth : Nat) (ms : List (String × Json)) :
    pretty depth (.object ms) = block '\x7b' '\x7d' (printMember (depth + 1)) depth ms := by
  cases ms with
  | nil => rw [pretty, block]
  | cons m ms =>
    have hmembers := prettyMembers_cons (depth + 1) m ms (List.replicate (2 * depth) ' ' ++ ['\x7d'])
    rw [pretty, block, List.cons_append, List.cons_append, List.append_assoc]
    exact congrArg ('\x7b' :: ·) hmembers

/-- Induction over values: what holds of the items of an array, or of the values of an object's
members, holds of these. -/
theorem induction {P : Json → Prop} (number : ∀ n, P (.number n)) (string : ∀ s, P (.string s))
    (array : ∀ is, (∀ i ∈ is, P i) → P (.array is))
    (object : ∀ ms, (∀ m ∈ ms, P m.2) → P (.object ms)) (j : Json) : P j :=
  @Json.rec P (fun is => ∀ i ∈ is, P i) (fun ms => ∀ m ∈ ms, P m.2) (fun m => P m.2)
    number string array object (fun _ h => absurd h List.not_mem_nil)
    (fun _ _ hi his => List.forall_mem_cons.mpr ⟨hi, his⟩) (fun _ h => absurd h List.not_mem_nil)
    (fun _ _ hm hms => List.forall_mem_cons.mpr ⟨hm, hms⟩) (fun _ _ hv => hv) j

/-- What kind of value begins with a character: any digit begins a number. -/
def kindOf (c : Char) : Char := if c.isDigit then '0' else c

/-- The kind of a value. -/
def kind : Json → Char
  | .number _ => '0'
  | .string _ => '"'
  | .array _ => '['
  | .object _ => '\x7b'

/-- The first character that is printed for a value says its kind, so values of two kinds are told
apart before anything is compared in them. -/
theorem head?_pretty (depth : Nat) (j : Json) (rest : List Char) :
    (pretty depth j ++ rest).head?.map kindOf = some j.kind := by
  cases j with
  | number n =>
    obtain ⟨c, cs, hcs⟩ := List.exists_cons_of_ne_nil (Nat.toDigits_ne_nil (n := n) (b := 10))
    have hc : c.isDigit = true :=
      Nat.isDigit_of_mem_toDigits (by decide) (by decide) (hcs ▸ List.mem_cons_self)
    rw [pretty, decimalDigits, hcs]
    simp [kindOf, kind, hc]
  | string s => rfl
  | array is =>
    rw [pretty_array]
    cases is <;> rfl
  | object ms =>
    rw [pretty_object]
    cases ms <;> rfl

theorem kind_eq {depth : Nat} {j k : Json} {u v : List Char}
    (h : pretty depth j ++ u = pretty depth k ++ v) : j.kind = k.kind := by
  have hhead := head?_pretty depth j u
  rw [h, head?_pretty] at hhead
  exact (Option.some.inj hhead).symm

theorem determined_printMember {depth : Nat} {m : String × Json}
    (hm : Determined (pretty depth) m.2) : Determined (printMember depth) m := by
  intro l u v hu hv h
  simp only [printMember, List.append_assoc, List.cons_append] at h
  obtain ⟨hname, hvalue⟩ := quoted_append_inj h
  obtain ⟨hsame, huv⟩ := hm l.2 u v hu hv (List.tail_eq_of_cons_eq (List.tail_eq_of_cons_eq hvalue))
  exact ⟨Prod.ext hname hsame, huv⟩

/-- **What is printed for a value says which value it is, and where it ends.**  By induction on the
value, at every depth: the other value is of the same kind by its first character, and then each
kind has its lemma above. -/
theorem determined_pretty (j : Json) (depth : Nat) : Determined (pretty depth) j := by
  induction j using Json.induction generalizing depth with
  | number n =>
    intro k u v hu hv h
    cases k with
    | number m =>
      rw [pretty, pretty] at h
      obtain ⟨rfl, huv⟩ := determined_decimalDigits n m u v hu hv h
      exact ⟨rfl, huv⟩
    | _ => exact absurd (kind_eq h) (by simp [kind])
  | string s =>
    intro k u v _ _ h
    cases k with
    | string t =>
      rw [pretty, pretty] at h
      obtain ⟨rfl, huv⟩ := quoted_append_inj h
      exact ⟨rfl, huv⟩
    | _ => exact absurd (kind_eq h) (by simp [kind])
  | array is ih =>
    intro k u v hu hv h
    cases k with
    | array js =>
      rw [pretty_array, pretty_array] at h
      obtain ⟨rfl, huv⟩ :=
        determined_block (by decide) (fun i hi => ih i hi (depth + 1)) js u v hu hv h
      exact ⟨rfl, huv⟩
    | _ => exact absurd (kind_eq h) (by simp [kind])
  | object ms ih =>
    intro k u v hu hv h
    cases k with
    | object ls =>
      rw [pretty_object, pretty_object] at h
      obtain ⟨rfl, huv⟩ := determined_block (by decide)
        (fun m hm => determined_printMember (ih m hm (depth + 1))) ls u v hu hv h
      exact ⟨rfl, huv⟩
    | _ => exact absurd (kind_eq h) (by simp [kind])

theorem text_injective : Function.Injective text := by
  intro j k h
  have hchars : pretty 0 j ++ [] = pretty 0 k ++ [] := by
    rw [List.append_nil, List.append_nil]
    exact String.ofList_injective h
  have hend : Closed [] := fun c hc => absurd hc (by simp)
  exact (determined_pretty j 0 k [] [] hend hend hchars).1

end Json

/-! ## 5. Summaries -/

theorem Counts.json_injective : Function.Injective Counts.json := by
  rintro ⟨s, f, e⟩ ⟨s', f', e'⟩ h
  simpa [Counts.json] using h

/-- What is printed like entries is an entry printed like the first, and others like the rest. -/
theorem Child.eq_cons_of_jsonAll {c : Child} {cs ds : List Child}
    (h : jsonAll (c :: cs) = jsonAll ds) :
    ∃ d rest, ds = d :: rest ∧ c.json = d.json ∧ jsonAll cs = jsonAll rest := by
  cases ds with
  | nil => exact absurd h (by simp [jsonAll])
  | cons d rest =>
    rw [jsonAll, jsonAll] at h
    obtain ⟨hfirst, hrest⟩ := List.cons.inj h
    exact ⟨d, rest, rfl, hfirst, hrest⟩

/-- Entries are told by their members, those of processed documents at any depth.  By induction on
the entries; two entries of different kinds differ in the text of their status. -/
theorem Child.jsonAll_injective : Function.Injective Child.jsonAll := by
  intro cs ds h
  have hpath := fun q r => Resource.path_injective.eq_iff (a := q) (b := r)
  induction cs using Child.induction generalizing ds with
  | nil =>
    cases ds with
    | nil => rfl
    | cons d ds => exact absurd h (by simp [jsonAll])
  | processed t r own cs rest ihc ihr =>
    obtain ⟨d, ds, rfl, hd, hrest⟩ := eq_cons_of_jsonAll h
    cases d with
    | processed t' r' own' cs' =>
      obtain ⟨rfl, rfl, hown, hcs⟩ : t = t' ∧ r = r' ∧ own.json = own'.json ∧
          jsonAll cs = jsonAll cs' := by
        simpa [json, hpath] using hd
      rw [Counts.json_injective hown, ihc hcs, ihr hrest]
    | _ => exact absurd hd (by simp [json])
  | revisited t rest ih =>
    obtain ⟨d, ds, rfl, hd, hrest⟩ := eq_cons_of_jsonAll h
    cases d with
    | revisited t' =>
      obtain rfl : t = t' := by simpa [json, hpath] using hd
      rw [ih hrest]
    | _ => exact absurd hd (by simp [json])
  | unresolved t rest ih =>
    obtain ⟨d, ds, rfl, hd, hrest⟩ := eq_cons_of_jsonAll h
    cases d with
    | unresolved t' =>
      obtain rfl : t = t' := by simpa [json, hpath] using hd
      rw [ih hrest]
    | _ => exact absurd hd (by simp [json])
  | failed t m rest ih =>
    obtain ⟨d, ds, rfl, hd, hrest⟩ := eq_cons_of_jsonAll h
    cases d with
    | failed t' m' =>
      obtain ⟨rfl, rfl⟩ : t = t' ∧ m = m' := by simpa [json, hpath] using hd
      rw [ih hrest]
    | _ => exact absurd hd (by simp [json])

theorem Summary.json_injective : Function.Injective Summary.json := by
  rintro ⟨r, own, cs⟩ ⟨r', own', cs'⟩ h
  obtain ⟨hr, hown, hcs⟩ : r.path = r'.path ∧ own.json = own'.json ∧
      Child.jsonAll cs = Child.jsonAll cs' := by
    simpa [json] using h
  rw [Resource.path_injective hr, Counts.json_injective hown, Child.jsonAll_injective hcs]

/-- **The report of a summary says the summary**: its resource, its tallies, and its entries in
their order, each with its kind, its target, and its message or the whole summary of the document
that was processed. -/
theorem Summary.report_determines (s t : Summary) : s.json.text = t.json.text ↔ s = t :=
  ⟨fun h => json_injective (Json.text_injective h), fun h => by rw [h]⟩

end LivingDoc
