import LivingDoc.Proofs.Expression.Grammar

/-!
# Variables and literals read by their grammar

The reader of an identifier takes it as long as it goes, that of a text stops at the first quote of
its kind, and a number is tried as an integer before it is read as a float.  Each of them reads
what its rule of the grammar derives, and a number that looks like one is never at fault.

* `splitIdentifier?_eq_some_iff`: where an identifier ends.
* `readNumber_eq_ok_iff`, `readNumber_ne_error`: the numbers, all of which are read.
* `readLiteral_eq_ok_some_iff`: the literals.
-/

namespace LivingDoc.Expression

open Text (isBlank AllBlank)

theorem map_eq_ok_iff {ε α β : Type} {x : Except ε α} {f : α → β} {b : β} :
    x.map f = .ok b ↔ ∃ a, x = .ok a ∧ f a = b := by
  cases x <;> simp [Except.map]

/-! ## 1. Identifiers and equals signs -/

/-- **An identifier is split off as long as it goes**, and the condition on what follows says that
it goes no further; so the parts are unique. -/
theorem splitIdentifier?_eq_some_iff {cs name rest : List Char} :
    splitIdentifier? cs = some (name, rest) ↔
      IsIdentifier name ∧ cs = name ++ rest ∧ ∀ c ∈ rest.head?, isIdentifierChar c = false := by
  constructor
  · intro h
    cases cs with
    | nil => simp [splitIdentifier?] at h
    | cons c cs =>
      rw [splitIdentifier?] at h
      split at h
      case isTrue start =>
        obtain ⟨rfl, rfl⟩ := Prod.mk.inj (Option.some.inj h)
        obtain ⟨hcs, hchars, hrest⟩ := Text.takeWhile_and_dropWhile_iff.mp ⟨rfl, rfl⟩
        exact ⟨⟨start, hchars⟩, congrArg (c :: ·) hcs, hrest⟩
      case isFalse => exact absurd h.symm (Option.some_ne_none _)
  · rintro ⟨⟨start, hchars⟩, rfl, hrest⟩
    obtain ⟨htake, hdrop⟩ := Text.takeWhile_and_dropWhile_iff.mpr ⟨rfl, hchars, hrest⟩
    rw [List.cons_append, splitIdentifier?, if_pos start, htake, hdrop]

theorem splitIdentifier?_eq_none {cs : List Char}
    (h : ∀ c ∈ cs.head?, isIdentifierStart c = false) : splitIdentifier? cs = none := by
  cases cs with
  | nil => rfl
  | cons c cs =>
    have hc : isIdentifierStart c = false := h c rfl
    simp [splitIdentifier?, hc]

theorem IsIdentifier.split {name : List Char} (h : IsIdentifier name) :
    splitIdentifier? name = some (name, []) :=
  splitIdentifier?_eq_some_iff.mpr ⟨h, (List.append_nil name).symm, by simp⟩

theorem IsIdentifier.ne_cons {name : List Char} (h : IsIdentifier name) {c : Char}
    (hc : isIdentifierStart c = false) (rest cs : List Char) : name ++ rest ≠ c :: cs := by
  obtain ⟨start, -⟩ := h
  intro heq
  obtain rfl := (List.cons.inj heq).1
  exact absurd (start.symm.trans hc) (by decide)

/-- An identifier with blank space and a character of another kind behind it. -/
theorem IsIdentifier.split_append {name a : List Char} (h : IsIdentifier name)
    (ha : AllBlank a) {d : Char} (hd : isIdentifierChar d = false) (rest : List Char) :
    splitIdentifier? (name ++ (a ++ d :: rest)) = some (name, a ++ d :: rest) := by
  refine splitIdentifier?_eq_some_iff.mpr ⟨h, rfl, ?_⟩
  cases a with
  | nil => exact Text.head?_cons_of hd rest
  | cons b a =>
    refine Text.head?_cons_of ?_ _
    by_contra hchar
    rw [Bool.not_eq_false] at hchar
    have hplain : isPlainChar b = true := by simp [isPlainChar, hchar]
    have hblank := ha b List.mem_cons_self
    rw [isBlank_of_isPlainChar hplain] at hblank
    exact absurd hblank (by decide)

/-- **An equals sign is split off with all the blank space around it.**  What is left begins with a
visible character or is empty. -/
theorem splitEquals?_eq_some_iff {cs equals value : List Char} :
    splitEquals? cs = some (equals, value) ↔
      ∃ a b, AllBlank a ∧ AllBlank b ∧ equals = a ++ '=' :: b ∧ cs = equals ++ value
        ∧ ∀ c ∈ value.head?, isBlank c = false := by
  constructor
  · intro h
    rw [splitEquals?] at h
    split at h
    case h_1 r hdrop =>
      obtain ⟨rfl, rfl⟩ := Prod.mk.inj (Option.some.inj h)
      obtain ⟨hcs, hleft, -⟩ := Text.takeWhile_and_dropWhile_iff.mp ⟨rfl, hdrop⟩
      obtain ⟨hr, hright, hvalue⟩ :=
        Text.takeWhile_and_dropWhile_iff.mp ⟨rfl, (rfl : r.dropWhile isBlank = _)⟩
      refine ⟨_, _, hleft, hright, rfl, ?_, hvalue⟩
      rw [List.append_assoc, List.cons_append, ← hr]
      exact hcs
    case h_2 => exact absurd h.symm (Option.some_ne_none _)
  · rintro ⟨a, b, ha, hb, rfl, rfl, hvalue⟩
    have hsign : ∀ c ∈ ('=' :: (b ++ value)).head?, isBlank c = false :=
      Text.head?_cons_of (by decide) _
    obtain ⟨hleft, hequals⟩ := Text.takeWhile_and_dropWhile_iff.mpr ⟨rfl, ha, hsign⟩
    obtain ⟨hright, hrest⟩ := Text.takeWhile_and_dropWhile_iff.mpr ⟨rfl, hb, hvalue⟩
    rw [splitEquals?, List.append_assoc, List.cons_append, hequals]
    simp only [hleft, hright, hrest]

/-- **A variable is read if and only if its name is an identifier.** -/
theorem readVariable_eq_ok_iff {s : Span} {name : List Char} {x : String} :
    readVariable s name = .ok x ↔ IsIdentifier name ∧ x = String.ofList name := by
  constructor
  · intro h
    rw [readVariable] at h
    split at h
    case h_1 n hsplit =>
      obtain ⟨hn, hname, -⟩ := splitIdentifier?_eq_some_iff.mp hsplit
      rw [List.append_nil] at hname
      subst hname
      exact ⟨hn, (Except.ok.inj h).symm⟩
    case h_2 => exact absurd h (by simp)
  · rintro ⟨h, rfl⟩
    rw [readVariable, h.split]

/-! ## 2. Texts and words -/

/-- **A quoted text is read up to the next quote of its kind, if that is the last character.** -/
theorem readQuoted_eq_ok_iff {s : Span} {q : Char} {cs : List Char} {v : Value} :
    readQuoted s q cs = .ok v ↔
      ∃ body, q ∉ body ∧ cs = body ++ [q] ∧ v = .text (String.ofList body) := by
  have hinside : ∀ {body : List Char}, (∀ c ∈ body, (c != q) = true) ↔ q ∉ body := by
    intro body
    simp only [bne_iff_ne]
    exact ⟨fun h hq => h q hq rfl, fun h c hc hcq => h (hcq ▸ hc)⟩
  constructor
  · intro h
    rw [readQuoted] at h
    split at h
    case h_1 => exact absurd h (by simp)
    case h_2 c hdrop =>
      obtain ⟨hcs, hbody, hc⟩ := Text.takeWhile_and_dropWhile_iff.mp ⟨rfl, hdrop⟩
      obtain rfl : c = q := by simpa using hc c rfl
      exact ⟨_, hinside.mp hbody, hcs, (Except.ok.inj h).symm⟩
    case h_3 => exact absurd h (by simp)
  · rintro ⟨body, hbody, rfl, rfl⟩
    have hquote : ∀ c ∈ [q].head?, (c != q) = false := by simp
    obtain ⟨htake, hdrop⟩ := Text.takeWhile_and_dropWhile_iff.mpr
      ⟨rfl, hinside.mpr hbody, hquote⟩
    simp only [readQuoted, htake, hdrop]

/-- **The words that are literals.** -/
theorem readWord?_eq_some_iff {cs : List Char} {v : Value} :
    readWord? cs = some v ↔ DerivesWord cs v := by
  constructor
  · intro h
    rw [readWord?] at h
    split at h
    case isTrue hcs => subst hcs; obtain rfl := Option.some.inj h; exact .isTrue
    case isFalse =>
      split at h
      case isTrue hcs => subst hcs; obtain rfl := Option.some.inj h; exact .isFalse
      case isFalse =>
        split at h
        case isTrue hcs => subst hcs; obtain rfl := Option.some.inj h; exact .null
        case isFalse => exact absurd h.symm (Option.some_ne_none _)
  · rintro (_ | _ | _) <;> rfl

/-! ## 3. What looks like a number -/

/-- Digits end where another character follows. -/
theorem IsDigits.takeWhile {ds : List Char} (h : IsDigits ds) {rest : List Char}
    (hrest : ∀ c ∈ rest.head?, isDecimal c = false) :
    (ds ++ rest).takeWhile isDecimal = ds ∧ (ds ++ rest).dropWhile isDecimal = rest :=
  Text.takeWhile_and_dropWhile_iff.mpr ⟨rfl, h.decimal, hrest⟩

theorem IsDigits.takeWhile_self {ds : List Char} (h : IsDigits ds) :
    ds.takeWhile isDecimal = ds ∧ ds.dropWhile isDecimal = [] :=
  Text.takeWhile_and_dropWhile_iff.mpr ⟨(List.append_nil ds).symm, h.decimal, by simp⟩

theorem IsDigits.ne_cons {ds : List Char} (h : IsDigits ds) {c : Char}
    (hc : isDecimal c = false) (rest cs : List Char) : ds ++ rest ≠ c :: cs := by
  obtain ⟨d, ds, rfl⟩ := List.exists_cons_of_ne_nil h.nonempty
  have hd := h.decimal d List.mem_cons_self
  intro heq
  obtain rfl := (List.cons.inj heq).1
  exact absurd (hd.symm.trans hc) (by decide)

/-- What the reader asks of a number behind its sign. -/
def looksUnsigned (cs : List Char) : Bool :=
  !(cs.takeWhile isDecimal).isEmpty &&
    match cs.dropWhile isDecimal with
    | [] => true
    | '.' :: fs => !fs.isEmpty && fs.all isDecimal
    | _ => false

theorem isNumber_minus {negative : Bool} {cs : List Char}
    (h : negative = false → ∀ r, cs ≠ '-' :: r) :
    isNumber (minus negative ++ cs) = looksUnsigned cs := by
  cases negative with
  | true => rfl
  | false =>
    rw [minus, if_neg Bool.false_ne_true, List.nil_append, isNumber]
    · rfl
    · exact h rfl

theorem exists_minus (cs : List Char) :
    ∃ negative r, cs = minus negative ++ r ∧ (negative = false → ∀ r', r ≠ '-' :: r') := by
  by_cases h : ∃ r, cs = '-' :: r
  · obtain ⟨r, rfl⟩ := h
    exact ⟨true, r, rfl, fun hfalse => absurd hfalse.symm Bool.false_ne_true⟩
  · exact ⟨false, cs, rfl, fun _ r hr => h ⟨r, hr⟩⟩

theorem looksUnsigned_iff {cs : List Char} :
    looksUnsigned cs = true ↔
      ∃ ds, IsDigits ds ∧ (cs = ds ∨ ∃ fs, IsDigits fs ∧ cs = ds ++ '.' :: fs) := by
  constructor
  · intro h
    rw [looksUnsigned, Bool.and_eq_true] at h
    obtain ⟨hsome, hrest⟩ := h
    have hdigits : IsDigits (cs.takeWhile isDecimal) :=
      ⟨by simpa using hsome, fun d hd => List.mem_takeWhile_imp hd⟩
    have hcs := List.takeWhile_append_dropWhile (p := isDecimal) (l := cs)
    refine ⟨_, hdigits, ?_⟩
    split at hrest
    case h_1 hdrop =>
      rw [hdrop, List.append_nil] at hcs
      exact Or.inl hcs.symm
    case h_2 fs hdrop =>
      rw [hdrop] at hcs
      rw [Bool.and_eq_true, List.all_eq_true] at hrest
      exact Or.inr ⟨fs, ⟨by simpa using hrest.1, hrest.2⟩, hcs.symm⟩
    case h_3 => exact absurd hrest Bool.false_ne_true
  · rintro ⟨ds, hds, rfl | ⟨fs, hfs, rfl⟩⟩
    · obtain ⟨htake, hdrop⟩ := hds.takeWhile_self
      simp [looksUnsigned, htake, hdrop, hds.nonempty]
    · have hpoint : ∀ c ∈ ('.' :: fs).head?, isDecimal c = false :=
        Text.head?_cons_of (by decide) fs
      obtain ⟨htake, hdrop⟩ := hds.takeWhile hpoint
      have hall : fs.all isDecimal = true := List.all_eq_true.mpr hfs.decimal
      simp [looksUnsigned, htake, hdrop, hall, hds.nonempty, hfs.nonempty]

/-- **The reader's test finds the numerals**: a minus sign or none, digits, and a point with more
digits or nothing. -/
theorem isNumber_iff {cs : List Char} : isNumber cs = true ↔ IsNumeral cs := by
  constructor
  · intro h
    obtain ⟨negative, r, rfl, hminus⟩ := exists_minus cs
    rw [isNumber_minus hminus] at h
    obtain ⟨ds, hds, rfl | ⟨fs, hfs, rfl⟩⟩ := looksUnsigned_iff.mp h
    · exact .whole ⟨negative, hds⟩
    · rw [← List.append_assoc]
      exact .pointed ⟨negative, hds⟩ hfs
  · intro h
    have hsigned : ∀ (negative : Bool) {ds : List Char}, IsDigits ds → ∀ rest,
        isNumber (minus negative ++ (ds ++ rest)) = looksUnsigned (ds ++ rest) := by
      intro negative ds hds rest
      exact isNumber_minus fun _ => hds.ne_cons (by decide) rest
    cases h with
    | whole h =>
      obtain ⟨negative, hds⟩ := h
      have htest := hsigned negative hds []
      rw [List.append_nil] at htest
      exact htest.trans (looksUnsigned_iff.mpr ⟨_, hds, Or.inl rfl⟩)
    | pointed h hfs =>
      obtain ⟨negative, hds⟩ := h
      rw [List.append_assoc, hsigned negative hds]
      exact looksUnsigned_iff.mpr ⟨_, hds, Or.inr ⟨_, hfs, rfl⟩⟩

/-! ## 4. Numbers -/

theorem IsDigits.splitSign_minus {ds : List Char} (h : IsDigits ds) (negative : Bool)
    (rest : List Char) :
    splitSign (minus negative ++ (ds ++ rest)) = (negative, ds ++ rest) := by
  cases negative with
  | true => rfl
  | false =>
    rw [minus, if_neg Bool.false_ne_true, List.nil_append, splitSign]
    · exact h.ne_cons (by decide) rest
    · exact h.ne_cons (by decide) rest

theorem SpellsInteger.reads {cs : List Char} {i : Int} (h : SpellsInteger cs i) :
    readInteger? cs = some i := by
  obtain ⟨negative, hds⟩ := h
  have hsign := hds.splitSign_minus negative []
  rw [List.append_nil] at hsign
  have hall : List.all _ isDecimal = true := List.all_eq_true.mpr hds.decimal
  have hsome : List.isEmpty _ = false := List.isEmpty_eq_false_iff.mpr hds.nonempty
  rw [readInteger?, hsign]
  simp only [hall, hsome]
  cases negative <;> rfl

theorem SpellsInteger.reads_pointed {cs : List Char} {i : Int} (h : SpellsInteger cs i)
    (fs : List Char) : readInteger? (cs ++ '.' :: fs) = none := by
  obtain ⟨negative, hds⟩ := h
  have hpoint : isDecimal '.' = false := by decide
  rw [List.append_assoc, readInteger?, hds.splitSign_minus negative]
  simp [hpoint]

/-- The integers of 64 bits are the whole numbers in their range. -/
theorem int64?_eq_some_iff {i : Int} {n : Int64} : int64? i = some n ↔ n.toInt = i := by
  constructor
  · intro h
    rw [int64?] at h
    split at h
    case isTrue hrange =>
      obtain rfl := Option.some.inj h
      exact Int64.toInt_ofInt_of_le hrange.1 (Int.lt_of_le_sub_one hrange.2)
    case isFalse => exact absurd h.symm (Option.some_ne_none _)
  · rintro rfl
    rw [int64?, if_pos ⟨n.minValue_le_toInt, n.toInt_le⟩, Int64.ofInt_toInt]

/-- **A numeral is read as an integer of 64 bits if and only if it spells one.**  A numeral with a
point is read as none, since a point is no digit. -/
theorem readInt64?_eq_some_iff {cs : List Char} (h : IsNumeral cs) {n : Int64} :
    readInt64? cs = some n ↔ SpellsInteger cs n.toInt := by
  rw [readInt64?, Option.bind_eq_some_iff]
  constructor
  · rintro ⟨i, hi, hn⟩
    obtain rfl := int64?_eq_some_iff.mp hn
    cases h with
    | whole h =>
      obtain rfl := Option.some.inj (h.reads.symm.trans hi)
      exact h
    | pointed h =>
      rw [h.reads_pointed] at hi
      exact absurd hi.symm (Option.some_ne_none _)
  · intro hspells
    exact ⟨_, hspells.reads, int64?_eq_some_iff.mpr rfl⟩

/-- Digits are read as a float if nothing but a fraction stands behind them. -/
theorem IsDigits.exists_unsigned {ds rest fs : List Char} (h : IsDigits ds)
    (hrest : ∀ c ∈ rest.head?, isDecimal c = false)
    (hfraction : Binary64.splitFraction rest = (fs, [])) (negative : Bool) :
    ∃ x, Binary64.readUnsigned? negative (ds ++ rest) = some x := by
  obtain ⟨htake, hdrop⟩ := h.takeWhile hrest
  have hsome : ds.isEmpty = false := List.isEmpty_eq_false_iff.mpr h.nonempty
  rw [Binary64.readUnsigned?, htake, hdrop, hfraction]
  simp [hsome, Binary64.readExponent?]

/-- **Every numeral is read as a float.**  The reader of floats takes more than numerals, so all
that is needed is that it finds nothing behind the digits that it cannot take. -/
theorem IsNumeral.exists_float {cs : List Char} (h : IsNumeral cs) :
    ∃ x, Binary64.read? cs = some x := by
  have hunsigned : ∀ (negative : Bool) {ds : List Char}, IsDigits ds → ∀ rest,
      (∃ x, Binary64.readUnsigned? negative (ds ++ rest) = some x) →
        ∃ x, Binary64.read? (minus negative ++ (ds ++ rest)) = some x := by
    intro negative ds hds rest hread
    rw [Binary64.read?, hds.splitSign_minus negative]
    dsimp only
    split
    · exact ⟨_, rfl⟩
    · split
      · exact ⟨_, rfl⟩
      · exact hread
  cases h with
  | whole h =>
    obtain ⟨negative, hds⟩ := h
    have hread := hunsigned negative hds [] (hds.exists_unsigned (by simp) rfl negative)
    rw [List.append_nil] at hread
    exact hread
  | @pointed _ fs _ h hfs =>
    obtain ⟨negative, hds⟩ := h
    have hpoint : ∀ c ∈ ('.' :: fs).head?, isDecimal c = false :=
      Text.head?_cons_of (by decide) fs
    have hfraction : Binary64.splitFraction ('.' :: fs) = (fs, []) := by
      exact Prod.ext hfs.takeWhile_self.1 hfs.takeWhile_self.2
    rw [List.append_assoc]
    exact hunsigned negative hds _ (hds.exists_unsigned hpoint hfraction negative)

/-- **A number is read if and only if it is derived.**  What looks like one is tried as an integer
first; the rule for floats has the failure of that as its condition. -/
theorem readNumber_eq_ok_iff {s : Span} {v : Value} :
    readNumber s = .ok (some v) ↔ DerivesNumber s.chars v := by
  rw [readNumber]
  constructor
  · intro h
    split at h
    case isTrue hnumber =>
      have hnumeral := isNumber_iff.mp hnumber
      split at h
      case h_1 n hn =>
        obtain rfl := Option.some.inj (Except.ok.inj h)
        exact .int ((readInt64?_eq_some_iff hnumeral).mp hn)
      case h_2 hnone =>
        have houtside : ∀ n : Int64, ¬SpellsInteger s.chars n.toInt := by
          intro n hn
          rw [(readInt64?_eq_some_iff hnumeral).mpr hn] at hnone
          exact Option.some_ne_none _ hnone
        split at h
        case h_1 x hx =>
          obtain rfl := Option.some.inj (Except.ok.inj h)
          exact .float hnumeral houtside hx
        case h_2 => exact absurd h (by simp)
    case isFalse => exact absurd h (by simp)
  · intro h
    have hnumeral := h.numeral
    rw [if_pos (isNumber_iff.mpr hnumeral)]
    cases h with
    | int h => rw [(readInt64?_eq_some_iff hnumeral).mpr h]
    | float _ houtside hx =>
      have hnone : readInt64? s.chars = none := by
        rw [Option.eq_none_iff_forall_ne_some]
        intro n hn
        exact houtside n ((readInt64?_eq_some_iff hnumeral).mp hn)
      rw [hnone, hx]

/-- **No number is at fault**: what looks like one is read, at least as a float. -/
theorem readNumber_ne_error (s : Span) (f : Fault) : readNumber s ≠ .error f := by
  intro h
  rw [readNumber] at h
  split at h
  case isTrue hnumber =>
    obtain ⟨x, hx⟩ := (isNumber_iff.mp hnumber).exists_float
    rw [hx] at h
    split at h <;> exact absurd h (by simp)
  case isFalse => exact absurd h (by simp)

theorem readNumber_of_not_numeral {s : Span} (h : ¬IsNumeral s.chars) :
    readNumber s = .ok none := by
  rw [readNumber, if_neg fun hnumber => h (isNumber_iff.mp hnumber)]

/-! ## 5. Literals -/

theorem readLiteral_quote {s : Span} {q : Char} (hq : q = '\'' ∨ q = '"') {cs : List Char}
    (hs : s.chars = q :: cs) : readLiteral s = (readQuoted s q cs).map some := by
  obtain ⟨k, chars⟩ := s
  obtain rfl : chars = q :: cs := hs
  rcases hq with rfl | rfl <;> rfl

theorem readLiteral_plain {s : Span} (h : ∀ c ∈ s.chars.head?, c ≠ '\'' ∧ c ≠ '"') :
    readLiteral s =
      match readWord? s.chars with
      | some v => .ok (some v)
      | none => readNumber s := by
  rw [readLiteral]
  split
  case h_1 cs hcs => exact absurd rfl (h '\'' (by rw [hcs]; rfl)).1
  case h_2 cs hcs => exact absurd rfl (h '"' (by rw [hcs]; rfl)).2
  case h_3 => rfl

theorem ne_quote_of_isPlainChar {c : Char} (h : isPlainChar c = true) : c ≠ '\'' ∧ c ≠ '"' := by
  constructor
  · rintro rfl
    exact absurd h (by decide)
  · rintro rfl
    exact absurd h (by decide)

theorem head_ne_quote {cs : List Char} (h : ∀ c ∈ cs, isPlainChar c = true) :
    ∀ c ∈ cs.head?, c ≠ '\'' ∧ c ≠ '"' :=
  fun c hc => ne_quote_of_isPlainChar (h c (List.mem_of_mem_head? hc))

theorem SpellsInteger.head {cs : List Char} {i : Int} (h : SpellsInteger cs i) :
    ∀ c ∈ cs.head?, isIdentifierStart c = false := by
  obtain ⟨negative, hds⟩ := h
  cases negative with
  | true => exact Text.head?_cons_of (by decide) _
  | false =>
    intro c hc
    exact isIdentifierStart_of_isDecimal (hds.decimal c (List.mem_of_mem_head? hc))

theorem IsNumeral.head {cs : List Char} (h : IsNumeral cs) :
    ∀ c ∈ cs.head?, isIdentifierStart c = false := by
  cases h with
  | whole h => exact h.head
  | pointed h =>
    intro c hc
    rw [List.head?_append_of_ne_nil _ h.ne_nil] at hc
    exact h.head c hc

theorem IsIdentifier.not_numeral {name : List Char} (h : IsIdentifier name) (rest : List Char) :
    ¬IsNumeral (name ++ rest) := by
  obtain ⟨start, -⟩ := h
  intro hnumeral
  exact absurd (start.symm.trans (hnumeral.head _ rfl)) (by decide)

/-- **A literal is read if and only if it is derived.**  The reader decides by the first character,
the grammar by its rules; that no word and no number begins with a quote makes the two agree. -/
theorem readLiteral_eq_ok_some_iff {s : Span} {v : Value} :
    readLiteral s = .ok (some v) ↔ DerivesLiteral s.chars v := by
  constructor
  · intro h
    by_cases hquote : ∃ q cs, (q = '\'' ∨ q = '"') ∧ s.chars = q :: cs
    · obtain ⟨q, cs, hq, hs⟩ := hquote
      rw [readLiteral_quote hq hs] at h
      obtain ⟨v', hread, hv⟩ := map_eq_ok_iff.mp h
      obtain rfl := Option.some.inj hv
      obtain ⟨body, hbody, rfl, rfl⟩ := readQuoted_eq_ok_iff.mp hread
      rw [hs]
      exact .text hq hbody
    · have hplain : ∀ c ∈ s.chars.head?, c ≠ '\'' ∧ c ≠ '"' := by
        intro c hc
        obtain ⟨cs, hs⟩ := List.head?_eq_some_iff.mp (Option.mem_def.mp hc)
        exact not_or.mp fun hq => hquote ⟨c, cs, hq, hs⟩
      rw [readLiteral_plain hplain] at h
      split at h
      case h_1 v' hword =>
        obtain rfl := Option.some.inj (Except.ok.inj h)
        exact .word (readWord?_eq_some_iff.mp hword)
      case h_2 => exact .number (readNumber_eq_ok_iff.mp h)
  · intro h
    obtain ⟨k, cs⟩ := s
    dsimp only at h
    cases h with
    | @text q body hq hbody =>
      rw [readLiteral_quote hq (List.cons_append ..)]
      exact map_eq_ok_iff.mpr ⟨_, readQuoted_eq_ok_iff.mpr ⟨body, hbody, rfl, rfl⟩, rfl⟩
    | word hword =>
      rw [readLiteral_plain (head_ne_quote hword.identifier.plain),
        readWord?_eq_some_iff.mpr hword]
    | number hnumber =>
      have hnone : readWord? cs = none := by
        rw [Option.eq_none_iff_forall_ne_some]
        intro v' hv'
        have hidentifier := (readWord?_eq_some_iff.mp hv').identifier
        exact hidentifier.not_numeral [] ((List.append_nil cs).symm ▸ hnumber.numeral)
      rw [readLiteral_plain (head_ne_quote hnumber.numeral.plain), hnone]
      exact readNumber_eq_ok_iff.mpr hnumber

/-- **A text that starts with an identifier is no literal**, unless it is one of the words.  So a
call is never taken for a literal. -/
theorem readLiteral_of_identifier {s : Span} {name rest : List Char} (h : IsIdentifier name)
    (hs : s.chars = name ++ rest) (noWord : ∀ v, ¬DerivesWord s.chars v) :
    readLiteral s = .ok none := by
  have hnone : readWord? s.chars = none := by
    rw [Option.eq_none_iff_forall_ne_some]
    intro v hv
    exact noWord v (readWord?_eq_some_iff.mp hv)
  have hhead : ∀ c ∈ s.chars.head?, c ≠ '\'' ∧ c ≠ '"' := by
    obtain ⟨c, r, rfl⟩ := List.exists_cons_of_ne_nil h.ne_nil
    rw [hs]
    intro d hd
    exact head_ne_quote h.plain d hd
  rw [readLiteral_plain hhead, hnone]
  exact readNumber_of_not_numeral (hs ▸ h.not_numeral rest)

end LivingDoc.Expression
