import LivingDoc.Proofs.Markup.Tags
import Mathlib.Data.List.Basic

/-!
# Declarations on both sides

An element shows its namespace declarations as prefixes with their URIs, and takes them from the
text of the attribute names.  The reader takes bindings from names that it has cut in two, and marks
the default namespace by a missing prefix instead of an empty one.

* `Attribute.declares_eq`: what an attribute declares, by the two parts of its name.
* `Xml.binding?_eq`: the reader takes the same from it, unless the name has a prefix in front of
  `xmlns`.
-/

namespace LivingDoc

/-! ## 1. The two parts of a name -/

namespace Xml

/-- A name has no colon, or a prefix without one in front of its first. -/
theorem plain_or_prefixed (name : String) :
    (∀ c ∈ name.toList, c ≠ ':') ∨
      ∃ x l, (∀ c ∈ x.toList, c ≠ ':') ∧ name = x ++ ":" ++ l := by
  by_cases h : ':' ∈ name.toList
  · right
    obtain ⟨x, l, hcut, hx⟩ := List.eq_append_cons_of_mem h
    refine ⟨String.ofList x, String.ofList l, ?_, ?_⟩
    · intro c hc hcolon
      rw [String.toList_ofList, hcolon] at hc
      exact hx hc
    · apply String.toList_injective
      rw [hcut]
      simp
  · left
    intro c hc hcolon
    rw [hcolon] at hc
    exact h hc

end Xml

/-! ## 2. What an attribute declares -/

/-- The prefix and the URI that an attribute declares; the prefix of the default namespace is
empty. -/
def Attribute.declares (a : Attribute) : Option (String × String) :=
  if a.name == "xmlns" then some ("", a.value)
  else ("xmlns:".toList.isPrefixOf? a.name.toList).map fun p => (String.ofList p, a.value)

theorem Element.namespaceDeclarations_eq (e : Element) :
    e.namespaceDeclarations = e.attributes.filterMap Attribute.declares := rfl

theorem name_of_isPrefixOf_xmlns {name : String} {l : List Char}
    (h : "xmlns:".toList.isPrefixOf? name.toList = some l) :
    name = "xmlns" ++ ":" ++ String.ofList l := by
  have happ := List.append_eq_of_isPrefixOf?_eq_some h
  apply String.toList_injective
  rw [← happ]
  simp

/-- An attribute declares a namespace if its name is `xmlns`, or has it for a prefix.  The element
asks for the text `xmlns:` in front of the name, the reader for the part in front of the colon. -/
theorem Attribute.declares_eq (a : Attribute) :
    a.declares = if a.name = "xmlns" then some ("", a.value)
      else if (Xml.QName.ofText a.name).qualifier = "xmlns" then
        some ((Xml.QName.ofText a.name).localName, a.value)
      else none := by
  have hxmlns := Xml.isPlain_xmlns.no_colon
  unfold declares
  simp only [beq_iff_eq]
  split
  · rfl
  cases hp : "xmlns:".toList.isPrefixOf? a.name.toList with
  | some l =>
    rw [name_of_isPrefixOf_xmlns hp, Xml.QName.ofText_prefixed hxmlns]
    rfl
  | none =>
    rw [if_neg]
    · rfl
    intro hq
    rcases Xml.plain_or_prefixed a.name with h | ⟨x, l, hx, hname⟩
    · rw [Xml.QName.ofText_local h] at hq
      simp at hq
    · rw [hname, Xml.QName.ofText_prefixed hx] at hq
      dsimp only at hq
      have hsome : "xmlns:".toList.isPrefixOf? a.name.toList = some l.toList := by
        rw [List.isPrefixOf?_eq_some_iff_append_eq, hname, hq]
        simp
      exact absurd (hp.symm.trans hsome) (by simp)

namespace Xml

/-! ## 3. What the reader takes from it -/

/-- The mark of a prefix in a binding: the default namespace has none. -/
def qualifierOf (x : String) : Option String := if x = "" then none else some x

/-- A declaration as the reader takes it. -/
def bindingOf (d : String × String) : Binding := ⟨qualifierOf d.1, d.2⟩

theorem qualifierOf_injective : Function.Injective qualifierOf := by
  intro x y h
  unfold qualifierOf at h
  split at h <;> split at h <;> simp_all

/-- **The reader takes from an attribute what the element shows.**  The name must not have a prefix
in front of `xmlns`: that is no declaration, but the reader takes it for one. -/
theorem binding?_eq {a : Attribute} (hn : IsName a.name)
    (hx : (QName.ofText a.name).localName = "xmlns" → a.name = "xmlns") :
    binding? a = a.declares.map bindingOf := by
  have hxmlns : QName.ofText "xmlns" = ⟨"", "xmlns"⟩ :=
    QName.ofText_local isPlain_xmlns.no_colon
  rw [binding?, declared?, Attribute.declares_eq]
  by_cases hname : a.name = "xmlns"
  · rw [if_pos hname, hname, hxmlns]
    rfl
  · rw [if_neg hname]
    by_cases hq : (QName.ofText a.name).qualifier = "xmlns"
    · rw [if_pos hq, if_pos hq]
      simp [bindingOf, qualifierOf, hn.1.2.ne_empty]
    · rw [if_neg hq, if_neg hq, if_neg (mt hx hname)]
      rfl

/-- What a prefix stands for is what its only binding says. -/
theorem uriOf?_of_nodup {bs : List Binding} (h : (bs.map (·.qualifier)).Nodup) {b : Binding}
    (hb : b ∈ bs) : uriOf? bs b.qualifier = some b.uri := by
  induction bs with
  | nil => simp at hb
  | cons c bs ih =>
    rw [List.map_cons, List.nodup_cons] at h
    unfold uriOf?
    rcases List.mem_cons.mp hb with rfl | hb
    · simp
    · have hne : c.qualifier ≠ b.qualifier := by
        intro hq
        exact h.1 (List.mem_map.mpr ⟨b, hb, hq.symm⟩)
      rw [List.find?_cons_of_neg (by simpa using hne)]
      exact ih h.2 hb

theorem declares_declaration (b : Binding) :
    b.declaration.declares = some (b.qualifier.getD "", b.uri) := by
  have hxmlns := isPlain_xmlns.no_colon
  obtain ⟨q, u⟩ := b
  cases q with
  | none => rfl
  | some x =>
    have hname : Binding.declaration ⟨some x, u⟩ = ⟨"xmlns" ++ ":" ++ x, u⟩ := rfl
    have hne : "xmlns" ++ ":" ++ x ≠ "xmlns" := by
      intro h
      have hparts := congrArg QName.ofText h
      rw [QName.ofText_prefixed hxmlns, QName.ofText_local hxmlns] at hparts
      simp at hparts
    rw [hname, Attribute.declares_eq, if_neg hne, QName.ofText_prefixed hxmlns]
    rfl

end Xml

end LivingDoc
