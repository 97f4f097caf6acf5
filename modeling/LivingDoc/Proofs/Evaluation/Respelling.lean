import LivingDoc.Evaluation.Walk
import Mathlib.Data.List.Find
import Mathlib.Data.List.Nodup

/-!
# Respelled documents

A document can be written in many ways that say the same: with other prefixes, with its declarations
on other elements, with a prefix declared again further in, with its attributes in another order.
What stays is the expanded name of each attribute, the URI of its prefix with its local name.  The
commands are looked up by expanded names, and beside its text a command reads one attribute without
a prefix of its element, so none of this is seen in an evaluation.

* `Scope.attributeMatches_iff`: the scope compares expanded names.
* `Registry.resolve_respells`: an element has the same command however its attributes are written.
* `Node.visitAll_respelled`: so the commands below it run in the same way, each in its own scope.
* `Element.evaluate_respelled`: and a document is evaluated to the same in every spelling.
-/

namespace LivingDoc

variable {σ : Type}

/-! ## 1. Expanded names -/

/-- The URI and the local name that the name of an attribute stands for.  A name without a prefix is
in no namespace, a declaration is none either, and a prefix has to be bound. -/
def Scope.expandedName (s : Scope) (qualified : String) : Option (String × String) :=
  if (splitQualified qualified).1 = "" ∨ (splitQualified qualified).1 = "xmlns" then none
  else (s.uriFor (splitQualified qualified).1).map fun uri => (uri, (splitQualified qualified).2)

/-- The scope compares expanded names. -/
theorem Scope.attributeMatches_iff (s : Scope) (qualified uri l : String) :
    s.attributeMatches qualified uri l = true ↔ s.expandedName qualified = some (uri, l) := by
  unfold attributeMatches expandedName
  generalize splitQualified qualified = name
  by_cases h : name.1 = "" ∨ name.1 = "xmlns"
  · rw [if_pos h]
    rcases h with h | h <;> simp [h]
  · rw [if_neg h]
    rw [not_or] at h
    simp [h.1, h.2, and_comm]

/-- The name of the attribute has no prefix; a declaration of the default namespace does not
count. -/
def Attribute.isPlain (a : Attribute) : Bool := !a.name.toList.contains ':' && a.name != "xmlns"

namespace Element

/-- The attributes without a prefix. -/
def plainAttributes (e : Element) : List Attribute := e.attributes.filter Attribute.isPlain

/-- The attributes with a prefix as expanded names with their values, as the scope gives them. -/
def expandedAttributes (s : Scope) (e : Element) : List ((String × String) × String) :=
  e.attributes.filterMap fun a => (s.expandedName a.name).map fun x => (x, a.value)

/-- No two attributes of the element have the same name, as it is written or as the scope expands
it.  XML and its namespaces ask this of every element. -/
structure Distinct (s : Scope) (e : Element) : Prop where
  written : (e.attributes.map (·.name)).Nodup
  expanded : ((e.expandedAttributes s).map (·.1)).Nodup

/-- The second element has the attributes of the first, each in its own scope, in any order.
Nothing is said of their declarations, which show only in what the two scopes say of the others. -/
structure Respells (s t : Scope) (d e : Element) : Prop where
  plain : d.plainAttributes.Perm e.plainAttributes
  expanded : (d.expandedAttributes s).Perm (e.expandedAttributes t)

instance (s : Scope) (e : Element) : Decidable (e.Distinct s) :=
  decidable_of_iff
    ((e.attributes.map (·.name)).Nodup ∧ ((e.expandedAttributes s).map (·.1)).Nodup)
    ⟨fun ⟨h, g⟩ => ⟨h, g⟩, fun ⟨h, g⟩ => ⟨h, g⟩⟩

instance (s t : Scope) (d e : Element) : Decidable (Respells s t d e) :=
  decidable_of_iff
    (d.plainAttributes.Perm e.plainAttributes ∧
      (d.expandedAttributes s).Perm (e.expandedAttributes t))
    ⟨fun ⟨h, g⟩ => ⟨h, g⟩, fun ⟨h, g⟩ => ⟨h, g⟩⟩

end Element

/-- On every element in the trees the attributes have distinct names, in the scope that the elements
around it make. -/
inductive Node.Distinct : Scope → List Node → Prop
  | nil {s : Scope} : Distinct s []
  | text {s : Scope} {x : String} {ns : List Node} : Distinct s ns → Distinct s (.text x :: ns)
  | element {s : Scope} {n : String} {as : List Attribute} {cs ns : List Node} :
    Element.Distinct (s.push ⟨n, as, cs⟩) ⟨n, as, cs⟩ → Distinct (s.push ⟨n, as, cs⟩) cs →
    Distinct s ns → Distinct s (.element n as cs :: ns)

/-- The second trees have the shape and the texts of the first, and every element in them has the
attributes of the one in its place.  The names of elements are left open: no standard command looks
at them. -/
inductive Node.Respelled : Scope → Scope → List Node → List Node → Prop
  | nil {s t : Scope} : Respelled s t [] []
  | text {s t : Scope} {x : String} {ns ms : List Node} :
    Respelled s t ns ms → Respelled s t (.text x :: ns) (.text x :: ms)
  | element {s t : Scope} {n m : String} {as bs : List Attribute} {cs ds ns ms : List Node} :
    Element.Respells (s.push ⟨n, as, cs⟩) (t.push ⟨m, bs, ds⟩) ⟨n, as, cs⟩ ⟨m, bs, ds⟩ →
    Respelled (s.push ⟨n, as, cs⟩) (t.push ⟨m, bs, ds⟩) cs ds → Respelled s t ns ms →
    Respelled s t (.element n as cs :: ns) (.element m bs ds :: ms)

/-! ## 2. Attributes that are looked up -/

/-- Where no two keys are the same, a key is found in any order. -/
theorem find?_key_of_perm {α κ : Type} [BEq κ] [LawfulBEq κ] (key : α → κ) {l m : List α}
    (h : l.Perm m) (hn : (l.map key).Nodup) (k : κ) :
    l.find? (fun x => key x == k) = m.find? (fun x => key x == k) := by
  refine List.find?_eq_find?_of_perm h ?_
  rintro x ⟨hx, hxk⟩ y ⟨hy, hyk⟩
  refine List.inj_on_of_nodup_map hn hx hy ?_
  rw [beq_iff_eq.mp hxk, beq_iff_eq.mp hyk]

theorem Element.attribute?_eq_plain (e : Element) {name : String}
    (h : Attribute.isPlain ⟨name, ""⟩ = true) :
    e.attribute? name = (e.plainAttributes.find? (·.name == name)).map (·.value) := by
  have hplain : ∀ a ∈ e.attributes,
      (a.name == name) = decide (a.isPlain = true ∧ (a.name == name) = true) := by
    intro a _
    by_cases ha : a.name = name
    · have : a.isPlain = true := by
        rw [← h]
        simp only [Attribute.isPlain, ha]
      simp [ha, this]
    · simp [ha]
  rw [attribute?, plainAttributes, List.find?_filter, List.find?_congr hplain]

theorem Matcher.namespaced_eq (uri l : String) (e : Element) (s : Scope) :
    Matcher.namespaced uri l e s =
      ((e.expandedAttributes s).find? (·.1 == (uri, l))).map (·.2) := by
  unfold Matcher.namespaced Element.expandedAttributes
  induction e.attributes with
  | nil => rfl
  | cons a as ih =>
    by_cases ha : s.expandedName a.name = some (uri, l)
    · have hmatch := (s.attributeMatches_iff a.name uri l).mpr ha
      simp [hmatch, ha]
    · have hmatch := mt (s.attributeMatches_iff a.name uri l).mp ha
      cases hx : s.expandedName a.name with
      | none => simp [hmatch, hx, ih]
      | some x =>
        have hne : x ≠ (uri, l) := by simpa [hx] using ha
        simp [hmatch, hx, hne, ih]

namespace Element.Respells

variable {s t : Scope} {d e : Element}

theorem attribute?_eq (h : Respells s t d e) (hd : d.Distinct s) {name : String}
    (hname : Attribute.isPlain ⟨name, ""⟩ = true) : d.attribute? name = e.attribute? name := by
  have hn : (d.plainAttributes.map (·.name)).Nodup :=
    hd.written.sublist (List.filter_sublist.map _)
  rw [attribute?_eq_plain d hname, attribute?_eq_plain e hname,
    find?_key_of_perm (·.name) h.plain hn name]

theorem namespaced_eq (h : Respells s t d e) (hd : d.Distinct s) (uri l : String) :
    Matcher.namespaced uri l d s = Matcher.namespaced uri l e t := by
  rw [Matcher.namespaced_eq, Matcher.namespaced_eq,
    find?_key_of_perm (·.1) h.expanded hd.expanded (uri, l)]

end Element.Respells

/-! ## 3. What a command reads of its element -/

namespace Element

/-- A command cannot tell the elements apart: it reads the text of its element, and where a link
leads. -/
structure Alike (d e : Element) : Prop where
  text : d.textContent = e.textContent
  href : d.attribute? "href" = e.attribute? "href"

namespace Alike

variable {d e : Element}

theorem textValue_eq (h : d.Alike e) : d.textValue = e.textValue := by
  rw [textValue, textValue, h.text]

theorem operand_eq (h : d.Alike e) (vs : Variables) (x : Operand) :
    vs.operand d x = vs.operand e x := by
  cases x with
  | var name => simp only [Variables.operand, Variables.read, h.textValue_eq]
  | literal v => rfl

theorem evaluate_eq (h : d.Alike e) (f : Fixture σ) (x : Expression) (s : State σ) :
    s.evaluate f d x = s.evaluate f e x := by
  induction x with
  | var name => simp only [State.evaluate, Variables.read, h.textValue_eq]
  | literal v => rfl
  | call operation as =>
    have hargs : s.vars.argument d = s.vars.argument e := by
      funext a
      rw [Variables.argument, Variables.argument, h.operand_eq]
    simp only [State.evaluate, hargs]
  | assign name x ih => simp only [State.evaluate, ih]

theorem evaluateText_eq (h : d.Alike e) (f : Fixture σ) (x : String) (s : State σ) :
    s.evaluateText f d x = s.evaluateText f e x := by
  simp only [State.evaluateText, h.evaluate_eq]

theorem setUp_eq (h : d.Alike e) (c : Command) (x : String) (s : State σ) :
    c.setUp d x s = c.setUp e x s := by
  cases c <;> simp only [Command.setUp, h.textValue_eq]

theorem run_eq (h : d.Alike e) (f : Subject σ) (c : Command) (x : String) (s : State σ) :
    c.run f d x s = c.run f e x s := by
  cases c with
  | set => simp only [Command.run, h.textValue_eq]
  | execute => simp only [Command.run, h.evaluateText_eq]
  | assertEquals matches? => simp only [Command.run, h.evaluateText_eq, h.text]
  | assertBoolean expected =>
    simp only [Command.run, h.evaluateText_eq, Command.booleanOutcome, h.text]
  | link => simp only [Command.run, h.href]

end Alike

end Element

/-! ## 4. The walk -/

theorem Registry.resolve_congr {r : Registry} {s t : Scope} {d e : Element}
    (h : ∀ entry ∈ r, entry.matcher d s = entry.matcher e t) : r.resolve d s = r.resolve e t := by
  unfold resolve
  induction r with
  | nil => rfl
  | cons entry r ih =>
    rw [List.forall_mem_cons] at h
    rw [List.findSome?_cons, List.findSome?_cons, h.1, ih h.2]

/-- The standard commands are looked up by expanded names. -/
theorem Registry.namespaced_of_mem_standard {uri : String} {comparator : Comparator}
    {entry : Entry} (h : entry ∈ standard uri comparator) :
    ∃ l, entry.matcher = Matcher.namespaced uri l := by
  simp only [standard, List.mem_cons, List.not_mem_nil, or_false] at h
  rcases h with rfl | rfl | rfl | rfl | rfl | rfl <;> exact ⟨_, rfl⟩

/-- An element has the same command in both documents, since each standard matcher asks for an
expanded name. -/
theorem Registry.resolve_respells {s t : Scope} {d e : Element} (h : Element.Respells s t d e)
    (hd : d.Distinct s) (uri : String) (comparator : Comparator) :
    (standard uri comparator).resolve d s = (standard uri comparator).resolve e t := by
  refine resolve_congr fun entry hentry => ?_
  obtain ⟨l, hl⟩ := namespaced_of_mem_standard hentry
  rw [hl, h.namespaced_eq hd]

theorem Node.textCharsAll_respelled {s t : Scope} {ns ms : List Node} (h : Respelled s t ns ms) :
    textCharsAll ns = textCharsAll ms := by
  induction h with
  | nil => rfl
  | text _ ih => rw [textCharsAll, textCharsAll, ih]
  | element _ _ _ ihc ihr => simp only [textCharsAll, textChars, ihc, ihr]

/-- A command cannot tell an element from the one that respells it. -/
theorem Element.Respells.alike {s t : Scope} {d e : Element} (h : Respells s t d e)
    (hd : d.Distinct s) (hc : Node.Respelled s t d.children e.children) : d.Alike e where
  text := by rw [textContent, textContent, Node.textCharsAll_respelled hc]
  href := h.attribute?_eq hd (by decide)

variable {uri : String} {comparator : Comparator}

/-- Commands are set up in the same way in both documents.  By induction on the respelling, each
side in its own scope. -/
theorem Node.setUpAll_respelled {s t : Scope} {ns ms : List Node} (h : Respelled s t ns ms)
    (hn : Distinct s ns) (u : State σ) :
    setUpAll (.standard uri comparator) s ns u = setUpAll (.standard uri comparator) t ms u := by
  induction h generalizing u with
  | nil => rfl
  | text _ ih =>
    cases hn with
    | text hn => exact ih hn u
  | element hr hc _ ihc ihr =>
    cases hn with
    | element hd hnc hn =>
      simp only [setUpAll, setUp]
      rw [Registry.resolve_respells hr hd]
      cases (Registry.standard uri comparator).resolve _ _ with
      | none => rw [ihc hnc, ihr hn]
      | some q => simp only [(hr.alike hd hc).setUp_eq, ihc hnc, ihr hn]

theorem Element.perform_respelled {s t : Scope} {d e : Element} (h : Respells s t d e)
    (hd : d.Distinct s) (hc : Node.Respelled s t d.children e.children)
    (hn : Node.Distinct s d.children) (f : Subject σ) (path : List Nat) (u : State σ) :
    d.perform (.standard uri comparator) f s path u =
      e.perform (.standard uri comparator) f t path u := by
  unfold perform
  rw [Registry.resolve_respells h hd]
  cases (Registry.standard uri comparator).resolve e t with
  | none => rfl
  | some q => simp only [(h.alike hd hc).run_eq, Node.setUpAll_respelled hc hn]

/-- **The commands of both documents have the same outcomes**, and leave the same state.  By
induction on the respelling: the elements in one place have one command, and opening them gives the
scopes in which their children are respelled. -/
theorem Node.visitAll_respelled {s t : Scope} {ns ms : List Node} (h : Respelled s t ns ms)
    (hn : Distinct s ns) (f : Subject σ) (path : List Nat) (i : Nat) (u : State σ) :
    visitAll (.standard uri comparator) f s path i ns u =
      visitAll (.standard uri comparator) f t path i ms u := by
  induction h generalizing path i u with
  | nil => rfl
  | text _ ih =>
    cases hn with
    | text hn =>
      simp only [visitAll, visit]
      rw [ih hn]
  | element hr hc _ ihc ihr =>
    cases hn with
    | element hd hnc hn =>
      simp only [visitAll, visit]
      rw [Element.perform_respelled hr hd hc hnc, ihc hnc, ihr hn]

/-! ## 5. Whole documents -/

namespace Element

/-- On every element of the document the attributes have distinct names. -/
def AllDistinct (root : Element) : Prop := Node.Distinct .empty [root.node]

/-- The second document is the first in another spelling. -/
def RespelledAs (root other : Element) : Prop := Node.Respelled .empty .empty [root.node] [other.node]

/-- A document is evaluated to the same in both spellings. -/
theorem evaluate_respelled {d e : Element} (hd : d.AllDistinct) (h : d.RespelledAs e)
    (f : Subject σ) (s : σ) :
    d.evaluate (.standard uri comparator) f s = e.evaluate (.standard uri comparator) f s := by
  obtain ⟨n, as, cs⟩ := d
  obtain ⟨m, bs, ds⟩ := e
  cases hd with
  | element hd hn _ =>
    cases h with
    | element hr hc _ =>
      simp only [evaluate, node, Node.visit]
      rw [perform_respelled hr hd hc hn, Node.visitAll_respelled hc hn]

end Element

end LivingDoc
