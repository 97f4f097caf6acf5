import LivingDoc.Proofs.Number.Decimal
import LivingDoc.Value.Coercion
import Mathlib.Data.List.Forall2

/-!
# What a conversion keeps

An operation takes each argument in the type that its parameter declares.  A conversion gives a
value of that type or gives the argument back, and it does nothing to what has the type already.  A
text is a detour for integers and truth values: they are displayed as texts that convert back to
them.

* `Value.accepts_of_coerce`, `Value.coerce_of_accepts`: a conversion gives a value of the type, and
  is the identity there.
* `Value.coerce_int_text_iff`, `Value.coerce_bool_text_iff`: the texts that are integers and truth
  values.
* `Value.coerces_faithfully`: both together, and what follows for conversions one after another.
-/

namespace LivingDoc

/-! ## 1. Letter case -/

namespace Text

/-- A text is the word, each letter of it small or capital.  The word is compared letter by letter,
so nothing is said about characters whose lower case is a letter of the word by accident of
Unicode. -/
def InAnyCase (cs word : List Char) : Prop := List.Forall₂ (fun c d => c = d ∨ c = d.toUpper) cs word

theorem toNat_of_isLower {d : Char} (h : d.isLower = true) : 97 ≤ d.toNat ∧ d.toNat ≤ 122 := by
  obtain ⟨hlow, hhigh⟩ := (Bool.and_eq_true _ _).mp h
  exact ⟨UInt32.le_iff_toNat_le.mp (of_decide_eq_true hlow),
    UInt32.le_iff_toNat_le.mp (of_decide_eq_true hhigh)⟩

theorem toNat_toUpper {d : Char} (h : d.isLower = true) : d.toUpper.toNat = d.toNat - 32 := by
  have hsmall : 97 ≤ d.val.toNat ∧ d.val.toNat ≤ 122 := toNat_of_isLower h
  unfold Char.toUpper Char.toNat
  simp only [UInt32.le_iff_toNat_le, Char.reduceVal, UInt32.reduceToNat, hsmall, and_self, dite_true,
    UInt32.toNat_add, UInt32.reduceSub]
  omega

/-- A character becomes a small letter if it is that letter, or the capital of it.  The letter is
one of ASCII, and `Char.toLower` moves these alone, by 32. -/
theorem toLower_eq_iff {c d : Char} (h : d.isLower = true) :
    c.toLower = d ↔ c = d ∨ c = d.toUpper := by
  have hsmall := toNat_of_isLower h
  have hlower : c.toLower.toNat =
      if 65 ≤ c.toNat ∧ c.toNat ≤ 90 then c.toNat + 32 else c.toNat := by
    unfold Char.toLower Char.toNat
    simp only [ge_iff_le, UInt32.le_iff_toNat_le, Char.reduceVal, UInt32.reduceToNat,
      UInt32.reduceSub]
    split
    · simp only [UInt32.toNat_add, UInt32.reduceToNat]
      omega
    · rfl
  simp only [← Char.toNat_inj, hlower, toNat_toUpper h]
  split <;> omega

theorem isBlank_of_isLower {c d : Char} (h : d.isLower = true) (hc : c = d ∨ c = d.toUpper) :
    isBlank c = false := by
  have hsmall := toNat_of_isLower h
  have hcapital := toNat_toUpper h
  by_contra hblank
  simp only [isBlank, Bool.not_eq_false, Bool.or_eq_true, Bool.and_eq_true, decide_eq_true_eq,
    beq_iff_eq] at hblank
  rcases hc with rfl | rfl <;> omega

/-- **Small letters are left where the word stood in any letter case.** -/
theorem asciiLower_eq_iff {cs word : List Char} (h : ∀ d ∈ word, d.isLower = true) :
    asciiLower cs = word ↔ InAnyCase cs word := by
  unfold asciiLower InAnyCase
  induction cs generalizing word with
  | nil => cases word <;> simp
  | cons c cs ih =>
    cases word with
    | nil => simp
    | cons d word =>
      rw [List.forall_mem_cons] at h
      rw [List.map_cons, List.cons.injEq, List.forall₂_cons, toLower_eq_iff h.1, ih h.2]

theorem InAnyCase.visible {cs word : List Char} (h : InAnyCase cs word)
    (hword : ∀ d ∈ word, d.isLower = true) : ∀ c ∈ cs, isBlank c = false := by
  induction h with
  | nil => simp
  | cons hc _ ih =>
    rw [List.forall_mem_cons] at hword ⊢
    exact ⟨isBlank_of_isLower hword.1 hc, ih hword.2⟩

end Text

/-! ## 2. The type of what is converted -/

namespace Value

theorem accepts_of_toInt? {v w : Value} (h : v.toInt? = some w) : ParamType.int.Accepts w := by
  cases v with
  | null => contradiction
  | bool b => contradiction
  | int n =>
    cases h
    trivial
  | float x =>
    obtain ⟨n, -, rfl⟩ := Option.map_eq_some_iff.mp h
    trivial
  | text s =>
    obtain ⟨n, -, rfl⟩ := Option.map_eq_some_iff.mp h
    trivial

theorem accepts_of_toFloat? {v w : Value} (h : v.toFloat? = some w) :
    ParamType.float.Accepts w := by
  cases v with
  | null => contradiction
  | bool b => contradiction
  | int n =>
    cases h
    trivial
  | float x =>
    cases h
    trivial
  | text s =>
    obtain ⟨n, -, rfl⟩ := Option.map_eq_some_iff.mp h
    trivial

theorem accepts_toText (v : Value) : ParamType.text.Accepts v.toText := by
  cases v <;> trivial

/-- A conversion gives a value of the type: one case for each type, of which the one for texts never
fails. -/
theorem accepts_of_coerce {type : ParamType} {v w : Value} (h : v.coerce type = .ok w) :
    type.Accepts w := by
  unfold coerce at h
  dsimp only at h
  split at h
  · rename_i hw
    cases h
    cases type with
    | any => trivial
    | text =>
      cases hw
      exact accepts_toText v
    | int => exact accepts_of_toInt? hw
    | float => exact accepts_of_toFloat? hw
    | bool =>
      obtain ⟨b, -, rfl⟩ := Option.map_eq_some_iff.mp hw
      trivial
  · contradiction

/-- **What has the type is left as it is**, so a conversion made twice is a conversion made once. -/
theorem coerce_of_accepts {type : ParamType} {v : Value} (h : type.Accepts v) :
    v.coerce type = .ok v := by
  cases type with
  | any => rfl
  | text => cases v <;> first | rfl | contradiction
  | int => cases v <;> first | rfl | contradiction
  | float => cases v <;> first | rfl | contradiction
  | bool => cases v <;> first | rfl | contradiction

theorem eq_of_coerce_error {type : ParamType} {v u : Value} (h : v.coerce type = .error u) :
    u = v := by
  unfold coerce at h
  dsimp only at h
  split at h
  · contradiction
  · exact (Except.error.inj h).symm

/-! ## 3. Integers as texts -/

theorem coerce_int_eq_ok_iff {v w : Value} : v.coerce .int = .ok w ↔ v.toInt? = some w := by
  unfold coerce
  dsimp only
  cases v.toInt? <;> simp

/-- **A text is an integer if it says one of 64 bits when it is trimmed.**  The text of a float is
none, even of a whole one. -/
theorem coerce_int_text_iff {s : String} {w : Value} :
    (text s).coerce .int = .ok w ↔
      ∃ n : Int64, w = int n ∧ SpellsSigned (Text.trim s.toList) n.toInt := by
  rw [coerce_int_eq_ok_iff, toInt?, Option.map_eq_some_iff]
  simp only [readInt64?_eq_some_iff, eq_comm (a := w), and_comm]

/-- **An integer is displayed as a text that converts back to it**, whatever blank space is put
around that. -/
theorem coerce_int_display (n : Int64) {before behind : String}
    (hbefore : Text.AllBlank before.toList) (hbehind : Text.AllBlank behind.toList) :
    (text (before ++ (int n).display ++ behind)).coerce .int = .ok (int n) := by
  have hspells := SpellsSigned.integerDigits n.toInt
  have htrim : Text.trim (before ++ (int n).display ++ behind).toList = integerDigits n.toInt := by
    rw [String.toList_append, String.toList_append, display, String.toList_ofList]
    exact (Text.isTrimmed_of_visible hspells.visible).trim_eq hbefore hbehind
  exact coerce_int_text_iff.mpr ⟨n, rfl, htrim ▸ hspells⟩

/-! ## 4. Truth values as texts -/

theorem isLower_display_bool (b : Bool) : ∀ d ∈ (bool b).display.toList, d.isLower = true := by
  cases b <;> simp [display]

/-- **A text says a truth value if it is the word for it, in any letter case.** -/
theorem truthOf?_eq_some_iff {s : String} {b : Bool} :
    truthOf? s = some b ↔ Text.InAnyCase (Text.trim s.toList) (bool b).display.toList := by
  rw [← Text.asciiLower_eq_iff (isLower_display_bool b)]
  unfold truthOf?
  dsimp only
  generalize Text.asciiLower (Text.trim s.toList) = word
  constructor
  · intro h
    split at h
    · rename_i htrue
      obtain rfl := Option.some.inj h
      exact htrue
    · split at h
      · rename_i hfalse
        obtain rfl := Option.some.inj h
        exact hfalse
      · contradiction
  · rintro rfl
    cases b <;> rfl

theorem coerce_bool_eq_ok_iff {v w : Value} :
    v.coerce .bool = .ok w ↔ v.asBool?.map bool = some w := by
  unfold coerce
  dsimp only
  cases v.asBool?.map bool <;> simp

theorem coerce_bool_text_iff {s : String} {w : Value} :
    (text s).coerce .bool = .ok w ↔
      ∃ b, w = bool b ∧ Text.InAnyCase (Text.trim s.toList) (bool b).display.toList := by
  rw [coerce_bool_eq_ok_iff, asBool?, Option.map_eq_some_iff]
  simp only [truthOf?_eq_some_iff, eq_comm (a := w), and_comm]

/-- **A truth value is displayed as a text that converts back to it**, in any letter case and
whatever blank space is put around it. -/
theorem coerce_bool_display (b : Bool) {cased before behind : String}
    (hcased : Text.InAnyCase cased.toList (bool b).display.toList)
    (hbefore : Text.AllBlank before.toList) (hbehind : Text.AllBlank behind.toList) :
    (text (before ++ cased ++ behind)).coerce .bool = .ok (bool b) := by
  have hvisible := hcased.visible (isLower_display_bool b)
  have htrim : Text.trim (before ++ cased ++ behind).toList = cased.toList := by
    rw [String.toList_append, String.toList_append]
    exact (Text.isTrimmed_of_visible hvisible).trim_eq hbefore hbehind
  exact coerce_bool_text_iff.mpr ⟨b, rfl, htrim ▸ hcased⟩

/-! ## 5. All of it -/

theorem coerce_text_of_ne_null {v : Value} (h : v ≠ null) : v.coerce .text = .ok (text v.display) := by
  cases v <;> first | rfl | contradiction

/-- **A conversion gives a value of the type, or gives back what it was given.**  What it gives
stays as it is when it is converted again, and so does what has the type already.  An integer
survives the detour by the text that it is displayed as, and a truth value too, with blank space put
around the text and the word in any letter case.  A text is an integer exactly where an optional
sign and digits are left of it, and a truth value where a word for one is. -/
theorem coerces_faithfully :
    (∀ type v w, coerce type v = .ok w → type.Accepts w ∧ coerce type w = .ok w) ∧
    (∀ type v u, coerce type v = .error u → u = v) ∧
    (∀ type v, ParamType.Accepts type v → coerce type v = .ok v) ∧
    (∀ n : Int64, ∃ t, coerce .text (int n) = .ok (text t) ∧
      ∀ before behind : String, Text.AllBlank before.toList → Text.AllBlank behind.toList →
        coerce .int (text (before ++ t ++ behind)) = .ok (int n)) ∧
    (∀ b : Bool, ∃ t, coerce .text (bool b) = .ok (text t) ∧
      ∀ cased before behind : String, Text.InAnyCase cased.toList t.toList →
        Text.AllBlank before.toList → Text.AllBlank behind.toList →
        coerce .bool (text (before ++ cased ++ behind)) = .ok (bool b)) ∧
    (∀ s w, coerce .int (text s) = .ok w ↔
      ∃ n : Int64, w = int n ∧ SpellsSigned (Text.trim s.toList) n.toInt) ∧
    (∀ s w, coerce .bool (text s) = .ok w ↔ ∃ b, w = bool b ∧
      Text.InAnyCase (Text.trim s.toList) (if b then "true" else "false").toList) := by
  refine ⟨fun type v w h => ⟨accepts_of_coerce h, coerce_of_accepts (accepts_of_coerce h)⟩,
    fun type v u => eq_of_coerce_error, fun type v => coerce_of_accepts, ?_, ?_,
    fun s w => coerce_int_text_iff, fun s w => coerce_bool_text_iff⟩
  · intro n
    exact ⟨_, coerce_text_of_ne_null (by simp), fun _ _ => coerce_int_display n⟩
  · intro b
    exact ⟨_, coerce_text_of_ne_null (by simp), fun _ _ _ => coerce_bool_display b⟩

-- A sign, zeros in front, blank space around it and letter case do not count; the range does.
example : (text " +007\n").coerce .int = .ok (int 7) ∧ (text " tRUE").coerce .bool = .ok (bool true) ∧
    (text "9223372036854775808").coerce .int = .error (text "9223372036854775808") := by
  decide

end Value

end LivingDoc
