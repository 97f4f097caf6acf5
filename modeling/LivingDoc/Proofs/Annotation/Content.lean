import LivingDoc.Proofs.Markup.Classes

/-!
# What a document says

Two documents may say the same and be written differently: the text between two elements may be one
text or several, and classes are for the look.  The content of an element is what is left when its
texts are joined, the empty ones dropped, and the classes taken away, all the way down.

* `Node.contentAll_of_texts`: children that are texts say their whole text.
* `Node.contentAll_set`: putting in place of a child one with its content leaves the content alone.
* `Element.content_addClass`: a class is no content.
-/

namespace LivingDoc

namespace Node

/-- A text in front of children: it joins a text that is there, and an empty one leaves no trace. -/
def prependText (s : String) : List Node → List Node
  | .text t :: rest => .text (s ++ t) :: rest
  | rest => if s = "" then rest else .text s :: rest

mutual
/-- The content of a child in front of that of the children behind it. -/
def contentOnto (rest : List Node) : Node → List Node
  | .text s => prependText s rest
  | .element n as cs => .element n (as.filter (·.name != "class")) (contentAll cs) :: rest
/-- The content of children: texts joined, empty texts dropped, classes taken away. -/
def contentAll : List Node → List Node
  | [] => []
  | n :: rest => contentOnto (contentAll rest) n
end

theorem prependText_prependText (s t : String) (ns : List Node) :
    prependText s (prependText t ns) = prependText (s ++ t) ns := by
  have hplain : ∀ rest : List Node, (∀ u more, rest ≠ .text u :: more) →
      prependText s (prependText t rest) = prependText (s ++ t) rest := by
    intro rest hrest
    have hfront : ∀ u, prependText u rest = if u = "" then rest else .text u :: rest := by
      intro u
      unfold prependText
      split
      · exact absurd rfl (hrest _ _)
      · rfl
    rw [hfront t, hfront (s ++ t)]
    by_cases ht : t = ""
    · rw [if_pos ht, ht, String.append_empty, hfront s]
    · have hst : s ++ t ≠ "" := fun h => ht (String.append_eq_empty_iff.mp h).2
      rw [if_neg ht, if_neg hst, prependText]
  match ns with
  | .text u :: rest => rw [prependText, prependText, prependText, String.append_assoc]
  | [] => exact hplain [] fun u more h => List.cons_ne_nil _ _ h.symm
  | .element n as cs :: rest => exact hplain _ fun u more h => Node.noConfusion (List.cons.inj h).1

/-- **Children that are texts say their whole text.**  By induction on the children; what is one
text after the annotation may have been several before. -/
theorem contentAll_of_texts {ns : List Node} (h : ns.any isElement = false) :
    contentAll ns = prependText (String.ofList (textCharsAll ns)) [] := by
  induction ns with
  | nil => rfl
  | cons n rest ih =>
    rw [List.any_cons, Bool.or_eq_false_iff] at h
    cases n with
    | text s =>
      have htext : String.ofList (textCharsAll (.text s :: rest)) =
          s ++ String.ofList (textCharsAll rest) := by
        rw [textCharsAll, textChars, String.ofList_append, String.ofList_toList]
      rw [contentAll, contentOnto, ih h.2, prependText_prependText, htext]
    | element n as cs => exact absurd h.1 Bool.noConfusion

end Node

namespace Element

/-- The content of an element. -/
def content (e : Element) : Element :=
  ⟨e.name, e.attributes.filter (·.name != "class"), Node.contentAll e.children⟩

/-- **A class is no content.** -/
theorem content_addClass (e : Element) (c : String) : (e.addClass c).content = e.content := by
  rw [content, content, filter_attributes_addClass, name_addClass, children_addClass]

end Element

/-- **An element in place of one with the same content leaves the content alone.** -/
theorem Node.contentAll_set {ns : List Node} {i : Nat} {c d : Element}
    (hc : ns[i]? = some c.node) (h : d.content = c.content) :
    contentAll (ns.set i d.node) = contentAll ns := by
  induction ns generalizing i with
  | nil => rw [List.set_nil]
  | cons n rest ih =>
    cases i with
    | zero =>
      rw [List.getElem?_cons_zero, Option.some.injEq] at hc
      obtain ⟨hname, hattributes, hchildren⟩ := Element.mk.inj h
      rw [List.set_cons_zero, hc, Element.node, Element.node, contentAll, contentAll, contentOnto,
        contentOnto, hname, hattributes, hchildren]
    | succ i =>
      rw [List.getElem?_cons_succ] at hc
      rw [List.set_cons_succ, contentAll, contentAll, ih hc]

end LivingDoc
