import LivingDoc.Proofs.Evaluation.Respelling
import LivingDoc.Proofs.Markup.Declarations
import Mathlib.Logic.Equiv.Basic

/-!
# Renamed prefixes

To rename prefixes is one way to respell a document: every declaration declares the new prefix for
the same URI, and every attribute with a prefix takes the new one.  The scopes of the two documents
then give the same URIs for the old and the new prefixes, and go on doing so at every element,
whatever the order of its attributes.

* `Scope.Renamed.push`: opening an element keeps the scopes in step.
* `Element.respelledAs_of_renamedAs`: renaming prefixes and reordering attributes is respelling.
* `Element.evaluates_by_expanded_names`: evaluating a document depends on expanded names only.
-/

namespace LivingDoc

variable {σ : Type}

/-! ## 1. Renaming a name -/

/-- New prefixes for old.  Different prefixes stay different, so a document can be named back; the
empty one and `xmlns`, which are no prefixes of a namespace, stay what they are, and no prefix gains
a colon. -/
structure Renaming where
  prefixOf : String → String
  injective : Function.Injective prefixOf
  empty : prefixOf "" = ""
  xmlns : prefixOf "xmlns" = "xmlns"
  colon : ∀ x, (∀ c ∈ x.toList, c ≠ ':') → ∀ c ∈ (prefixOf x).toList, c ≠ ':'

/-- A prefix that can be declared for a namespace. -/
def Declarable (x : String) : Prop := x ≠ "" ∧ x ≠ "xmlns" ∧ ∀ c ∈ x.toList, c ≠ ':'

instance (x : String) : Decidable (Declarable x) :=
  decidable_of_iff (x ≠ "" ∧ x ≠ "xmlns" ∧ x.toList.all (· != ':') = true) (by simp [Declarable])

/-- Two prefixes change places, and every other stays. -/
def Renaming.swap (x y : String) (hx : Declarable x) (hy : Declarable y) : Renaming where
  prefixOf := Equiv.swap x y
  injective := (Equiv.swap x y).injective
  empty := Equiv.swap_apply_of_ne_of_ne hx.1.symm hy.1.symm
  xmlns := Equiv.swap_apply_of_ne_of_ne hx.2.1.symm hy.2.1.symm
  colon := by
    intro z hz
    rw [Equiv.swap_apply_def]
    split
    · exact hy.2.2
    · split
      · exact hx.2.2
      · exact hz

namespace Renaming

variable (ρ : Renaming)

/-- The name of an attribute with its prefix renamed.  For a declaration the prefix is behind the
colon: `xmlns:p` declares `p`, and its own prefix stays. -/
def name (old : String) : String :=
  if ':' ∈ old.toList then
    if (splitQualified old).1 = "xmlns" then "xmlns" ++ ":" ++ ρ.prefixOf (splitQualified old).2
    else ρ.prefixOf (splitQualified old).1 ++ ":" ++ (splitQualified old).2
  else old

/-- The attribute with its name renamed. -/
def rename (a : Attribute) : Attribute := ⟨ρ.name a.name, a.value⟩

theorem name_of_no_colon {old : String} (h : ∀ c ∈ old.toList, c ≠ ':') : ρ.name old = old :=
  if_neg fun hmem => h ':' hmem rfl

theorem name_xmlns (l : String) : ρ.name ("xmlns" ++ ":" ++ l) = "xmlns" ++ ":" ++ ρ.prefixOf l := by
  have hcolon : ':' ∈ ("xmlns" ++ ":" ++ l).toList := by simp
  rw [name, if_pos hcolon, Xml.splitQualified_append Xml.isPlain_xmlns.no_colon, if_pos rfl]

theorem name_append {x : String} (hx : ∀ c ∈ x.toList, c ≠ ':') (hne : x ≠ "xmlns") (l : String) :
    ρ.name (x ++ ":" ++ l) = ρ.prefixOf x ++ ":" ++ l := by
  have hcolon : ':' ∈ (x ++ ":" ++ l).toList := by simp
  rw [name, if_pos hcolon, Xml.splitQualified_append hx, if_neg hne]

theorem prefixOf_ne {x y : String} (hy : ρ.prefixOf y = y) (h : x ≠ y) : ρ.prefixOf x ≠ y :=
  fun hx => h (ρ.injective (hx.trans hy.symm))

/-- Renaming leaves plain attributes alone and makes no others plain.  By induction on the
attributes; a name has no colon before it is renamed exactly when it has none after. -/
theorem filter_isPlain_map (as : List Attribute) :
    (as.map ρ.rename).filter Attribute.isPlain = as.filter Attribute.isPlain := by
  induction as with
  | nil => rfl
  | cons a as ih =>
    rcases Xml.plain_or_prefixed a.name with h | ⟨x, l, hx, hname⟩
    · have ha : ρ.rename a = a := by rw [rename, ρ.name_of_no_colon h]
      rw [List.map_cons, ha, List.filter_cons, List.filter_cons, ih]
    · have hcolon {b : Attribute} (hb : ':' ∈ b.name.toList) : ¬ b.isPlain = true := by
        simp [Attribute.isPlain, hb]
      have hold : ':' ∈ a.name.toList := by simp [hname]
      have hnew : ':' ∈ (ρ.rename a).name.toList := by
        rw [rename, name, if_pos hold]
        split <;> simp
      rw [List.map_cons, List.filter_cons_of_neg (hcolon hnew),
        List.filter_cons_of_neg (hcolon hold), ih]

/-- A declaration with the new prefix, of the same URI. -/
def declaration (d : String × String) : String × String := (ρ.prefixOf d.1, d.2)

/-- What is declared is the new prefix, for the same URI. -/
theorem declares_rename (a : Attribute) :
    (ρ.rename a).declares = a.declares.map ρ.declaration := by
  rw [Attribute.declares_eq, Attribute.declares_eq, rename]
  rcases Xml.plain_or_prefixed a.name with h | ⟨x, l, hx, hname⟩
  · rw [ρ.name_of_no_colon h, Xml.QName.ofText_local h]
    by_cases hxmlns : a.name = "xmlns"
    · rw [if_pos hxmlns, Option.map_some, declaration, ρ.empty]
    · rw [if_neg hxmlns, if_neg (by simp), Option.map_none]
  · have hne {y m : String} : y ++ ":" ++ m ≠ "xmlns" := by
      intro h
      have : ':' ∈ "xmlns".toList := by simp [← h]
      exact Xml.isPlain_xmlns.no_colon ':' this rfl
    by_cases hxmlns : x = "xmlns"
    · have hplain := Xml.isPlain_xmlns.no_colon
      rw [hname, hxmlns, ρ.name_xmlns, if_neg hne, if_neg hne, Xml.QName.ofText_prefixed hplain,
        Xml.QName.ofText_prefixed hplain]
      rfl
    · rw [hname, ρ.name_append hx hxmlns, if_neg hne, if_neg hne,
        Xml.QName.ofText_prefixed (ρ.colon x hx), Xml.QName.ofText_prefixed hx, if_neg hxmlns,
        if_neg (ρ.prefixOf_ne ρ.xmlns hxmlns), Option.map_none]

theorem filterMap_declares_map (as : List Attribute) :
    (as.map ρ.rename).filterMap Attribute.declares =
      (as.filterMap Attribute.declares).map ρ.declaration := by
  rw [List.filterMap_map, List.map_filterMap]
  exact congrArg (as.filterMap ·) (funext ρ.declares_rename)

end Renaming

/-! ## 2. Scopes in step -/

theorem Scope.expandedName_of_no_colon (s : Scope) {l : String} (hl : ∀ c ∈ l.toList, c ≠ ':') :
    s.expandedName l = none := by
  rw [expandedName, Xml.splitQualified_of_no_colon hl, if_pos (Or.inl rfl)]

/-- A name with a prefix is in the namespace that the prefix stands for. -/
theorem Scope.expandedName_append (s : Scope) {x : String} (hx : ∀ c ∈ x.toList, c ≠ ':')
    (l : String) : s.expandedName (x ++ ":" ++ l) =
      if x = "" ∨ x = "xmlns" then none else (s.uriFor x).map fun uri => (uri, l) := by
  rw [expandedName, Xml.splitQualified_append hx]

/-- What a prefix stands for in the first scope, the new one stands for in the second; the default
namespace does not matter for attributes. -/
def Scope.Renamed (ρ : Renaming) (s t : Scope) : Prop :=
  ∀ x ≠ "", t.uriFor (ρ.prefixOf x) = s.uriFor x

namespace Scope.Renamed

variable {ρ : Renaming} {s t : Scope}

theorem expandedName_name (h : s.Renamed ρ t) (old : String) :
    t.expandedName (ρ.name old) = s.expandedName old := by
  rcases Xml.plain_or_prefixed old with hold | ⟨x, l, hx, rfl⟩
  · rw [ρ.name_of_no_colon hold, s.expandedName_of_no_colon hold, t.expandedName_of_no_colon hold]
  · by_cases hxmlns : x = "xmlns"
    · have hplain := Xml.isPlain_xmlns.no_colon
      rw [hxmlns, ρ.name_xmlns, s.expandedName_append hplain, t.expandedName_append hplain,
        if_pos (Or.inr rfl), if_pos (Or.inr rfl)]
    · rw [ρ.name_append hx hxmlns, s.expandedName_append hx, t.expandedName_append (ρ.colon x hx)]
      by_cases hempty : x = ""
      · rw [hempty, ρ.empty, if_pos (Or.inl rfl), if_pos (Or.inl rfl)]
      · rw [h x hempty, if_neg (not_or.mpr ⟨hempty, hxmlns⟩),
          if_neg (not_or.mpr ⟨ρ.prefixOf_ne ρ.empty hempty, ρ.prefixOf_ne ρ.xmlns hxmlns⟩)]

end Scope.Renamed

/-- A declaration of a prefix has it in its name, unless it is of the default namespace. -/
theorem Attribute.eq_of_declares {a : Attribute} {d : String × String} (h : a.declares = some d)
    (hne : d.1 ≠ "") : a = ⟨"xmlns" ++ ":" ++ d.1, d.2⟩ := by
  obtain ⟨n, v⟩ := a
  unfold declares at h
  split at h
  · cases h
    exact absurd rfl hne
  · obtain ⟨l, hl, rfl⟩ := Option.map_eq_some_iff.mp h
    exact congrArg (Attribute.mk · v) (name_of_isPrefixOf_xmlns hl)

/-- An element whose attributes have distinct names declares a prefix once. -/
theorem Element.declaration_unique {e : Element} (h : (e.attributes.map (·.name)).Nodup)
    {c d : String × String} (hc : c ∈ e.namespaceDeclarations) (hd : d ∈ e.namespaceDeclarations)
    (heq : c.1 = d.1) (hne : d.1 ≠ "") : c = d := by
  rw [namespaceDeclarations_eq, List.mem_filterMap] at hc hd
  obtain ⟨a, ha, hac⟩ := hc
  obtain ⟨b, hb, hbd⟩ := hd
  have ha' := Attribute.eq_of_declares hac (by rwa [heq])
  have hb' := Attribute.eq_of_declares hbd hne
  have hab : a = b := List.inj_on_of_nodup_map h ha hb (by rw [ha', hb', heq])
  rw [hab, hbd] at hac
  exact (Option.some.inj hac).symm

/-- An element has its own declarations looked up first, the last one before the others, and the
scope around it for the rest. -/
theorem Scope.uriFor_push (s : Scope) (e : Element) (x : String) :
    (s.push e).uriFor x =
      ((e.namespaceDeclarations.reverse.find? (·.1 == x)).map (·.2)).or (s.uriFor x) := by
  rw [uriFor, push, List.find?_append, Option.map_or, uriFor]

/-- **Opening an element keeps the scopes in step.**  The order of its attributes does not show:
their names are distinct, so each prefix has one declaration at most, which is the one found from
either end. -/
theorem Scope.Renamed.push {ρ : Renaming} {s t : Scope} (h : s.Renamed ρ t) {d e : Element}
    (hd : (d.attributes.map (·.name)).Nodup) (he : (d.attributes.map ρ.rename).Perm e.attributes) :
    (s.push d).Renamed ρ (t.push e) := by
  intro x hx
  have hkey : ((·.1 == ρ.prefixOf x) ∘ ρ.declaration) = (·.1 == x) := by
    funext c
    simp [Renaming.declaration, ρ.injective.eq_iff]
  have hperm : (d.namespaceDeclarations.reverse.map ρ.declaration).Perm
      e.namespaceDeclarations.reverse := by
    rw [List.map_reverse, Element.namespaceDeclarations_eq, Element.namespaceDeclarations_eq,
      ← ρ.filterMap_declares_map]
    exact ((List.reverse_perm _).trans (he.filterMap _)).trans (List.reverse_perm _).symm
  have hone : {c ∈ d.namespaceDeclarations.reverse.map ρ.declaration |
      c.1 == ρ.prefixOf x}.Subsingleton := by
    rintro _ ⟨hb, hbx⟩ _ ⟨hc, hcx⟩
    obtain ⟨b, hb', rfl⟩ := List.mem_map.mp hb
    obtain ⟨c, hc', rfl⟩ := List.mem_map.mp hc
    have hbx : b.1 = x := ρ.injective (beq_iff_eq.mp hbx)
    have hcx : c.1 = x := ρ.injective (beq_iff_eq.mp hcx)
    rw [Element.declaration_unique hd (List.mem_reverse.mp hb') (List.mem_reverse.mp hc')
      (hbx.trans hcx.symm) (by rwa [hcx])]
  rw [uriFor_push, uriFor_push, h x hx, ← List.find?_eq_find?_of_perm hperm hone, List.find?_map,
    hkey, Option.map_map]
  rfl

/-! ## 3. Renaming a document -/

/-- The second trees are the first with their prefixes renamed, their attributes in any order.
Names of elements are free, as they are where trees are respelled. -/
inductive Node.Renamed (ρ : Renaming) : List Node → List Node → Prop
  | nil : Renamed ρ [] []
  | text {x : String} {ns ms : List Node} :
    Renamed ρ ns ms → Renamed ρ (.text x :: ns) (.text x :: ms)
  | element {n m : String} {as bs : List Attribute} {cs ds ns ms : List Node} :
    (as.map ρ.rename).Perm bs → Renamed ρ cs ds → Renamed ρ ns ms →
    Renamed ρ (.element n as cs :: ns) (.element m bs ds :: ms)

/-- Where the scopes are in step, the renamed attributes respell an element.  Plain ones are the
same, and expanded names are since the second scope has for the new prefix what the first has for
the old. -/
theorem Scope.Renamed.respells {ρ : Renaming} {s t : Scope} (h : s.Renamed ρ t) {d e : Element}
    (he : (d.attributes.map ρ.rename).Perm e.attributes) : Element.Respells s t d e where
  plain := by
    rw [Element.plainAttributes, ← ρ.filter_isPlain_map]
    exact he.filter _
  expanded := by
    have hexpand : (fun a => (t.expandedName a.name).map fun x => (x, a.value)) ∘ ρ.rename =
        fun a : Attribute => (s.expandedName a.name).map fun x => (x, a.value) := by
      funext a
      simp only [Function.comp_apply, Renaming.rename, h.expandedName_name]
    rw [Element.expandedAttributes, ← hexpand, ← List.filterMap_map]
    exact he.filterMap _

/-- Renamed trees are respelled ones.  By induction on the renaming, for all scopes in step: those
within an element are again. -/
theorem Node.Renamed.respelled {ρ : Renaming} {ns ms : List Node} (h : Node.Renamed ρ ns ms)
    {s t : Scope} (hs : s.Renamed ρ t) (hd : Node.Distinct s ns) : Node.Respelled s t ns ms := by
  induction h generalizing s t with
  | nil => exact .nil
  | text _ ih =>
    cases hd with
    | text hd => exact .text (ih hs hd)
  | @element n m as bs cs ds _ _ he _ _ ihc ihr =>
    cases hd with
    | element hown hc hd =>
      have hinner : (s.push ⟨n, as, cs⟩).Renamed ρ (t.push ⟨m, bs, ds⟩) := hs.push hown.written he
      exact .element (hinner.respells he) (ihc hinner hc) (ihr hs hd)

namespace Element

/-- The second document is the first with its prefixes renamed and its attributes reordered. -/
def RenamedAs (ρ : Renaming) (root other : Element) : Prop := Node.Renamed ρ [root.node] [other.node]

/-- **Renaming prefixes and reordering attributes is respelling.**  Outside the document no prefix
is declared, so the scopes begin in step. -/
theorem respelledAs_of_renamedAs {ρ : Renaming} {d e : Element} (hd : d.AllDistinct)
    (h : d.RenamedAs ρ e) : d.RespelledAs e :=
  Node.Renamed.respelled h (fun _ _ => rfl) hd

/-- **Evaluating a document depends on expanded names only.**  In every spelling of it outcomes,
links and summary are the same, and so is the state that the last command leaves; and to rename
prefixes is to respell it, as it is to put attributes in another order.  Distinct names are asked of
one spelling only, since the others have the same. -/
theorem evaluates_by_expanded_names {d : Element} (hd : d.AllDistinct) :
    (∀ e, d.RespelledAs e → ∀ (uri : String) (comparator : Comparator) (f : Subject σ) (s : σ),
      d.evaluate (.standard uri comparator) f s = e.evaluate (.standard uri comparator) f s) ∧
    ∀ ρ e, d.RenamedAs ρ e → d.RespelledAs e :=
  ⟨fun _ h _ _ f s => evaluate_respelled hd h f s, fun _ _ h => respelledAs_of_renamedAs hd h⟩

end Element

namespace Spelling

/-- A page with one prefix, declared at the top. -/
def page : Element :=
  ⟨"body", [⟨"xmlns:s", Registry.standardUri⟩, ⟨"lang", "en"⟩],
    [.element "p" [⟨"s:assertEquals", "greeting()"⟩, ⟨"class", "quote"⟩] [.text "Hello"],
      .element "a" [⟨"href", "next.html"⟩, ⟨"s:link", ""⟩] [.text "Next"]]⟩

/-- The same page with declarations further in: one of another prefix, and one of the prefix that
stands for something else around it. -/
def other : Element :=
  ⟨"main", [⟨"lang", "en"⟩, ⟨"xmlns:s", "urn:other"⟩],
    [.element "p"
        [⟨"class", "quote"⟩, ⟨"c:assertEquals", "greeting()"⟩, ⟨"xmlns:c", Registry.standardUri⟩]
        [.text "Hello"],
      .element "a" [⟨"s:link", ""⟩, ⟨"xmlns:s", Registry.standardUri⟩, ⟨"href", "next.html"⟩]
        [.text "Next"]]⟩

/-- The first page with its prefix renamed and attributes in another order. -/
def renamed : Element :=
  ⟨"body", [⟨"lang", "en"⟩, ⟨"xmlns:c", Registry.standardUri⟩],
    [.element "p" [⟨"c:assertEquals", "greeting()"⟩, ⟨"class", "quote"⟩] [.text "Hello"],
      .element "a" [⟨"c:link", ""⟩, ⟨"href", "next.html"⟩] [.text "Next"]]⟩

/-- A fixture that greets, and counts how often. -/
def greeter : Subject Nat where
  fixture :=
    { typeName := "Greeter"
      resolve := fun _ name => if name = "greeting" then some ⟨"greeting", []⟩ else none
      call := fun n _ _ => (.returned (.text "Hello"), n + 1) }
  resource := .ofPath "Greeter.html"

/-- All pages are spellings of the first, which is evaluated to one success and one link. -/
theorem evaluate_page_eq_other :
    page.AllDistinct ∧ page.RespelledAs other ∧ page.RespelledAs renamed ∧
      page.evaluate (.standard Registry.standardUri .normalized) greeter 0 =
        other.evaluate (.standard Registry.standardUri .normalized) greeter 0 ∧
      (page.evaluate (.standard Registry.standardUri .normalized) greeter 0).summary.own =
        ⟨1, 0, 0⟩ ∧
      (page.evaluate (.standard Registry.standardUri .normalized) greeter 0).links.length = 1 := by
  have hd : page.AllDistinct :=
    .element (by decide +kernel) (.element (by decide +kernel) (.text .nil)
      (.element (by decide +kernel) (.text .nil) .nil)) .nil
  have hother : page.RespelledAs other :=
    .element (by decide +kernel) (.element (by decide +kernel) (.text .nil)
      (.element (by decide +kernel) (.text .nil) .nil)) .nil
  have hrenamed : page.RenamedAs (.swap "s" "c" (by decide) (by decide)) renamed :=
    .element (by decide +kernel) (.element (by decide +kernel) (.text .nil)
      (.element (by decide +kernel) (.text .nil) .nil)) .nil
  have h := @Element.evaluates_by_expanded_names Nat page hd
  exact ⟨hd, hother, h.2 _ renamed hrenamed, h.1 other hother _ _ greeter 0, by decide +kernel,
    by decide +kernel⟩

end Spelling

end LivingDoc
