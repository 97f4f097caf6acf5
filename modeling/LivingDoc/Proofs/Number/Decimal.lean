import LivingDoc.Proofs.Expression.Literals

/-!
# Whole numbers in decimal

A whole number is read from an optional sign and digits, and written with a minus sign or none and
without leading zeros.  So more texts are read than are written, and each that is written reads as
the number that it was written for.

* `readInteger?_eq_some_iff`, `readInt64?_eq_some_iff`: the texts that are read, and as what.
* `SpellsSigned.integerDigits`: a number that is written is among them.
-/

namespace LivingDoc

open Expression (IsDigits signed)

/-- An optional sign with digits behind it, and the number that they say.  One constructor for each
form of the sign; leading zeros are not excluded, so a number has many such texts. -/
inductive SpellsSigned : List Char → Int → Prop where
  | plain {ds : List Char} (digits : IsDigits ds) : SpellsSigned ds (Nat.ofDigitChars 10 ds 0)
  | plus {ds : List Char} (digits : IsDigits ds) :
      SpellsSigned ('+' :: ds) (Nat.ofDigitChars 10 ds 0)
  | minus {ds : List Char} (digits : IsDigits ds) :
      SpellsSigned ('-' :: ds) (-(Nat.ofDigitChars 10 ds 0 : Nat))

/-! ## 1. Reading -/

theorem digitsValue_eq_ofDigitChars {ds : List Char} (h : IsDigits ds) :
    digitsValue 10 ds = Nat.ofDigitChars 10 ds 0 := by
  refine List.foldl_ext _ _ _ fun n d hd => ?_
  have hrange := Expression.toNat_of_isDigit (Expression.isDigit_of_isDecimal (h.decimal d hd))
  have hnine : d ≤ '9' := by
    rw [Char.le_def, UInt32.le_iff_toNat_le]
    exact hrange.2
  rw [digitValue, if_pos hnine]

theorem isDigits_iff {ds : List Char} :
    (ds.isEmpty || !ds.all isDecimal) = false ↔ IsDigits ds := by
  rw [Bool.or_eq_false_iff, Bool.not_eq_false', List.isEmpty_eq_false_iff, List.all_eq_true]
  exact ⟨fun h => ⟨h.1, h.2⟩, fun h => ⟨h.nonempty, h.decimal⟩⟩

theorem readInteger?_of_splitSign {cs ds : List Char} {negative : Bool}
    (hsign : splitSign cs = (negative, ds)) (hds : IsDigits ds) :
    readInteger? cs = some (signed negative (Nat.ofDigitChars 10 ds 0)) := by
  rw [readInteger?, hsign]
  simp only [isDigits_iff.mpr hds, digitsValue_eq_ofDigitChars hds]
  cases negative <;> rfl

/-- **The texts that are read as whole numbers.**  One case for each form of the sign, and what is
behind it has to be digits, at least one. -/
theorem readInteger?_eq_some_iff {cs : List Char} {i : Int} :
    readInteger? cs = some i ↔ SpellsSigned cs i := by
  constructor
  · intro h
    obtain ⟨negative, ds, hsign⟩ : ∃ negative ds, splitSign cs = (negative, ds) := ⟨_, _, rfl⟩
    have hds : IsDigits ds := by
      rw [readInteger?, hsign] at h
      by_contra hnone
      rw [← isDigits_iff, Bool.not_eq_false] at hnone
      simp only [hnone] at h
      exact absurd h (by simp)
    rw [readInteger?_of_splitSign hsign hds, Option.some.injEq] at h
    subst h
    unfold splitSign at hsign
    split at hsign <;> obtain ⟨rfl, rfl⟩ := Prod.mk.inj hsign
    · exact .minus hds
    · exact .plus hds
    · exact .plain hds
  · intro h
    cases h with
    | plain hds =>
      have hsign := hds.splitSign_minus false []
      rw [List.append_nil] at hsign
      exact readInteger?_of_splitSign hsign hds
    | plus hds => exact readInteger?_of_splitSign rfl hds
    | minus hds => exact readInteger?_of_splitSign rfl hds

/-- **The texts that are read as integers of 64 bits**: those that say a number in their range. -/
theorem readInt64?_eq_some_iff {cs : List Char} {n : Int64} :
    readInt64? cs = some n ↔ SpellsSigned cs n.toInt := by
  rw [readInt64?, Option.bind_eq_some_iff]
  constructor
  · rintro ⟨i, hread, hrange⟩
    rw [Expression.int64?_eq_some_iff.mp hrange]
    exact readInteger?_eq_some_iff.mp hread
  · intro h
    exact ⟨_, readInteger?_eq_some_iff.mpr h, Expression.int64?_eq_some_iff.mpr rfl⟩

/-! ## 2. Writing -/

theorem isDecimal_of_isDigit {c : Char} (h : c.isDigit = true) : isDecimal c = true := by
  have hrange := Expression.toNat_of_isDigit h
  have hzero : '0'.toNat = 48 := rfl
  have hbase : c.toNat - '0'.toNat < 10 := by omega
  simp only [Char.isDigit, Bool.and_eq_true, decide_eq_true_eq] at h
  simp only [isDecimal, isDigitOf, Bool.or_eq_true, Bool.and_eq_true, decide_eq_true_eq, Char.le_def]
  exact .inl ⟨⟨h.1, h.2⟩, hbase⟩

theorem isDigits_decimalDigits (n : Nat) : IsDigits (decimalDigits n) where
  nonempty := Nat.toDigits_ne_nil
  decimal _ hd := isDecimal_of_isDigit (Nat.isDigit_of_mem_toDigits (by decide) (by decide) hd)

/-- **What is written for a number says the number**, so together with the reader it reads back. -/
theorem SpellsSigned.integerDigits (i : Int) : SpellsSigned (integerDigits i) i := by
  have hdigits := isDigits_decimalDigits i.natAbs
  have hvalue : Nat.ofDigitChars 10 (decimalDigits i.natAbs) 0 = i.natAbs :=
    Nat.ofDigitChars_ten_toDigits
  unfold LivingDoc.integerDigits
  split
  · have hminus := SpellsSigned.minus hdigits
    rw [hvalue] at hminus
    have hi : -(i.natAbs : Int) = i := by omega
    rwa [hi] at hminus
  · have hplain := SpellsSigned.plain hdigits
    rw [hvalue] at hplain
    have hi : (i.natAbs : Int) = i := by omega
    rwa [hi] at hplain

theorem SpellsSigned.visible {cs : List Char} {i : Int} (h : SpellsSigned cs i) :
    ∀ c ∈ cs, Text.isBlank c = false := by
  have hdigits : ∀ {ds : List Char}, IsDigits ds → ∀ d ∈ ds, Text.isBlank d = false := by
    intro ds hds d hd
    refine Expression.isBlank_of_isPlainChar ?_
    simp [Expression.isPlainChar, Expression.isIdentifierChar_of_isDecimal (hds.decimal d hd)]
  cases h with
  | plain hds => exact hdigits hds
  | plus hds => exact List.forall_mem_cons.mpr ⟨by decide, hdigits hds⟩
  | minus hds => exact List.forall_mem_cons.mpr ⟨by decide, hdigits hds⟩

end LivingDoc
