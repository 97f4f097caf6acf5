import LivingDoc.Proofs.Annotation.Classes
import LivingDoc.Proofs.Annotation.Content
import LivingDoc.Proofs.Evaluation.Respelling

/-!
# Running an annotated document again

Where every command succeeds, the annotation adds classes and nothing else.  No standard command
reads a class: the commands are attributes in a namespace, a class is none and declares none, and
beside its text a command reads only where a link leads.  So the annotated document is evaluated to
the same as the document, and its outcomes add no class that is not there.

* `Element.evaluate_unclassed`: a document is evaluated to the same without its classes.
* `Element.unclassed_annotate`: an annotation by successes is not seen without classes.
* `Element.annotate_annotate`: nor does it change a document that has it.
* `Element.success_is_fixed`: both together.
-/

namespace LivingDoc

variable {σ : Type}

/-! ## 1. Without classes -/

/-- The attributes but the class. -/
def Attribute.unclassed (as : List Attribute) : List Attribute := as.filter (·.name != "class")

mutual
/-- A child without the classes in it. -/
def Node.unclassed : Node → Node
  | .text s => .text s
  | .element n as cs => .element n (Attribute.unclassed as) (Node.unclassedAll cs)
/-- Children without the classes in them. -/
def Node.unclassedAll : List Node → List Node
  | [] => []
  | n :: rest => n.unclassed :: Node.unclassedAll rest
end

/-- An element without its class and those inside. -/
def Element.unclassed (e : Element) : Element :=
  ⟨e.name, Attribute.unclassed e.attributes, Node.unclassedAll e.children⟩

theorem Node.textCharsAll_unclassedAll (ns : List Node) :
    textCharsAll (unclassedAll ns) = textCharsAll ns := by
  induction ns using Node.induction with
  | nil => rw [unclassedAll]
  | text s rest ih => rw [unclassedAll, unclassed, textCharsAll, textCharsAll, ih]
  | element n as cs rest ihc ihr =>
    rw [unclassedAll, unclassed, textCharsAll, textCharsAll, textChars, textChars, ihc, ihr]

namespace Element

theorem namespaceDeclarations_unclassed (e : Element) :
    e.unclassed.namespaceDeclarations = e.namespaceDeclarations := by
  unfold namespaceDeclarations unclassed Attribute.unclassed
  rw [List.filterMap_filter]
  refine List.filterMap_congr fun a _ => ?_
  by_cases ha : a.name = "class"
  · rw [ha]
    rfl
  · rw [if_pos (bne_iff_ne.mpr ha)]

theorem push_unclassed (s : Scope) (e : Element) : s.push e.unclassed = s.push e := by
  rw [Scope.push, Scope.push, namespaceDeclarations_unclassed]

/-- An attribute that is no class is found without classes as well. -/
theorem find?_unclassed {p : Attribute → Bool} (hp : ∀ a : Attribute, a.name = "class" → p a = false)
    (e : Element) : e.unclassed.attributes.find? p = e.attributes.find? p := by
  unfold unclassed Attribute.unclassed
  rw [List.find?_filter]
  refine List.find?_congr fun a _ => ?_
  by_cases ha : a.name = "class"
  · simp [hp a ha]
  · simp [ha]

theorem namespaced_unclassed (uri l : String) (e : Element) (s : Scope) :
    Matcher.namespaced uri l e.unclassed s = Matcher.namespaced uri l e s := by
  unfold Matcher.namespaced
  rw [find?_unclassed]
  intro a ha
  rw [ha]
  rfl

theorem resolve_unclassed (uri : String) (comparator : Comparator) (e : Element) (s : Scope) :
    (Registry.standard uri comparator).resolve e.unclassed s =
      (Registry.standard uri comparator).resolve e s := by
  refine Registry.resolve_congr fun entry hentry => ?_
  obtain ⟨l, hl⟩ := Registry.namespaced_of_mem_standard hentry
  rw [hl, namespaced_unclassed]

/-- No command can tell whether an element has its classes: it reads the text and where a link
leads. -/
theorem alike_unclassed (e : Element) : e.unclassed.Alike e where
  text := by rw [textContent, textContent, unclassed, Node.textCharsAll_unclassedAll]
  href := by
    unfold attribute?
    rw [find?_unclassed]
    intro a ha
    rw [ha]
    rfl

end Element

/-! ## 2. Evaluating without classes -/

section
variable (uri : String) (comparator : Comparator)

theorem Node.setUpAll_unclassedAll (ns : List Node) (scope : Scope) (s : State σ) :
    setUpAll (.standard uri comparator) scope (unclassedAll ns) s =
      setUpAll (.standard uri comparator) scope ns s := by
  induction ns using Node.induction generalizing scope s with
  | nil => rw [unclassedAll]
  | text x rest ih => simp only [unclassedAll, unclassed, setUpAll, setUp, ih]
  | element n as cs rest ihc ihr =>
    have hpush := Element.push_unclassed scope ⟨n, as, cs⟩
    have hresolve := Element.resolve_unclassed uri comparator ⟨n, as, cs⟩
    have hsetUp := (Element.alike_unclassed ⟨n, as, cs⟩).setUp_eq (σ := σ)
    rw [Element.unclassed] at hpush hresolve hsetUp
    simp only [unclassedAll, unclassed, setUpAll, setUp, hpush, hresolve, hsetUp, ihc, ihr]

theorem Element.perform_unclassed (f : Subject σ) (scope : Scope) (path : List Nat) (e : Element)
    (s : State σ) : e.unclassed.perform (.standard uri comparator) f scope path s =
      e.perform (.standard uri comparator) f scope path s := by
  have hchildren : e.unclassed.children = Node.unclassedAll e.children := rfl
  unfold perform
  simp only [resolve_unclassed, hchildren, Node.setUpAll_unclassedAll, e.alike_unclassed.run_eq]

/-- **The commands have the same outcomes without classes**, and leave the same state.  By induction
on the nodes, for all scopes and paths: the scope inside an element is the same without its
class. -/
theorem Node.visitAll_unclassedAll (f : Subject σ) (ns : List Node) (scope : Scope) (path : List Nat)
    (i : Nat) (s : State σ) :
    visitAll (.standard uri comparator) f scope path i (unclassedAll ns) s =
      visitAll (.standard uri comparator) f scope path i ns s := by
  induction ns using Node.induction generalizing scope path i s with
  | nil => rw [unclassedAll]
  | text x rest ih => simp only [unclassedAll, unclassed, visitAll, visit, ih]
  | element n as cs rest ihc ihr =>
    have hpush := Element.push_unclassed scope ⟨n, as, cs⟩
    have hperform := fun sc p => Element.perform_unclassed uri comparator f sc p ⟨n, as, cs⟩
    rw [Element.unclassed] at hpush
    simp only [Element.unclassed] at hperform
    simp only [unclassedAll, unclassed, visitAll, visit, hpush, hperform, ihc, ihr]

/-- **A document is evaluated to the same without its classes.** -/
theorem Element.evaluate_unclassed (f : Subject σ) (root : Element) (s : σ) :
    root.unclassed.evaluate (.standard uri comparator) f s =
      root.evaluate (.standard uri comparator) f s := by
  have hvisit : root.unclassed.node.visit (.standard uri comparator) f .empty [] (.start s) =
      root.node.visit (.standard uri comparator) f .empty [] (.start s) := by
    have hpush := push_unclassed .empty root
    have hperform := perform_unclassed uri comparator f (Scope.empty.push root) [] root
    rw [unclassed] at hpush hperform
    simp only [unclassed, node, Node.visit, hpush, hperform, Node.visitAll_unclassedAll]
  rw [evaluate, evaluate, hvisit]

end

/-! ## 3. An annotation by successes -/

/-- Every outcome is a success. -/
def Successful (outcomes : List Recorded) : Prop := ∀ x ∈ outcomes, x.outcome.status = .success

instance (outcomes : List Recorded) : Decidable (Successful outcomes) :=
  inferInstanceAs (Decidable (∀ x ∈ outcomes, _))

theorem Successful.outcomeAt? {outcomes : List Recorded} (h : Successful outcomes) {path : List Nat}
    {o : Outcome} (ho : outcomeAt? outcomes path = some o) : o = .success := by
  obtain ⟨x, hx, rfl⟩ := Option.map_eq_some_iff.mp ho
  have hstatus := h x (List.mem_reverse.mp (List.mem_of_find?_eq_some hx))
  revert hstatus
  cases x.outcome <;> simp [Outcome.status]

namespace Element

theorem unclassed_addClass (e : Element) (c : String) : (e.addClass c).unclassed = e.unclassed := by
  rw [unclassed, unclassed, Attribute.unclassed, filter_attributes_addClass, name_addClass,
    children_addClass]
  rfl

variable {outcomes : List Recorded} (h : Successful outcomes)
include h

theorem renderAt_cases (path : List Nat) : (∀ e, renderAt outcomes path e = e) ∨
    ∀ e, renderAt outcomes path e = e.addClass Status.success.name := by
  unfold renderAt
  split
  · rename_i o ho
    rw [h.outcomeAt? ho]
    exact .inr fun _ => rfl
  · exact .inl fun _ => rfl

theorem children_renderAt (path : List Nat) (e : Element) :
    (renderAt outcomes path e).children = e.children := by
  rcases renderAt_cases h path with hrendered | hrendered
  · rw [hrendered]
  · rw [hrendered, children_addClass]

theorem unclassed_renderAt (path : List Nat) (e : Element) :
    (renderAt outcomes path e).unclassed = e.unclassed := by
  rcases renderAt_cases h path with hrendered | hrendered
  · rw [hrendered]
  · rw [hrendered, unclassed_addClass]

theorem renderAt_renderAt (path : List Nat) (e : Element) :
    renderAt outcomes path (renderAt outcomes path e) = renderAt outcomes path e := by
  rcases renderAt_cases h path with hrendered | hrendered
  · rw [hrendered, hrendered]
  · rw [hrendered, hrendered, addClass_addClass Status.success.words_name]

/-- **An element with its outcomes keeps its outcomes as they are**, if its children do. -/
theorem annotateAt_annotateAt {path : List Nat} {e : Element}
    (hchildren : Node.annotateAll outcomes path 0 (Node.annotateAll outcomes path 0 e.children) =
      Node.annotateAll outcomes path 0 e.children) :
    (e.annotateAt outcomes path).annotateAt outcomes path = e.annotateAt outcomes path := by
  have hsame : Node.annotateAll outcomes path 0 (e.annotateAt outcomes path).children =
      (e.annotateAt outcomes path).children := by
    rw [annotateAt, children_renderAt h]
    exact hchildren
  calc (e.annotateAt outcomes path).annotateAt outcomes path
      = renderAt outcomes path { e.annotateAt outcomes path with
          children := Node.annotateAll outcomes path 0 (e.annotateAt outcomes path).children } := rfl
    _ = renderAt outcomes path (e.annotateAt outcomes path) := by rw [hsame]
    _ = e.annotateAt outcomes path := renderAt_renderAt h path _

end Element

namespace Node

variable {outcomes : List Recorded} (h : Successful outcomes)
include h

theorem unclassedAll_annotateAll (ns : List Node) (path : List Nat) (i : Nat) :
    unclassedAll (annotateAll outcomes path i ns) = unclassedAll ns := by
  induction ns using Node.induction generalizing path i with
  | nil => rw [annotateAll]
  | text x rest ih => rw [annotateAll, annotate, unclassedAll, unclassedAll, ih]
  | element n as cs rest ihc ihr =>
    have hnode : ∀ e : Element, e.node.unclassed = e.unclassed.node := fun _ => rfl
    rw [annotateAll, annotate, unclassedAll, unclassedAll, ihr, hnode,
      Element.unclassed_renderAt h, Element.unclassed, ihc]
    rfl

/-- **Successes inside children are rendered once.**  By induction on the children; rendering a
success adds a class, and a class is added once. -/
theorem annotateAll_annotateAll (ns : List Node) (path : List Nat) (i : Nat) :
    annotateAll outcomes path i (annotateAll outcomes path i ns) = annotateAll outcomes path i ns := by
  induction ns using Node.induction generalizing path i with
  | nil => rw [annotateAll, annotateAll]
  | text x rest ih => simp only [annotateAll, annotate, ih]
  | element n as cs rest ihc ihr =>
    have hnode := annotate_node outcomes (path ++ [i]) ⟨n, as, cs⟩
    rw [Element.node] at hnode
    rw [annotateAll, annotateAll, ihr, hnode, annotate_node,
      Element.annotateAt_annotateAt h (ihc (path ++ [i]) 0)]

end Node

/-! ## 4. Whole documents -/

namespace Element

/-- An annotation by successes is not seen without classes. -/
theorem unclassed_annotate {outcomes : List Recorded} (h : Successful outcomes) (root : Element) :
    (root.annotate outcomes).unclassed = root.unclassed := by
  rw [annotate, unclassed_renderAt h, unclassed, Node.unclassedAll_annotateAll h]
  rfl

/-- A document that was annotated by successes is not changed by them again. -/
theorem annotate_annotate {outcomes : List Recorded} (h : Successful outcomes) (root : Element) :
    (root.annotate outcomes).annotate outcomes = root.annotate outcomes := by
  rw [annotate_eq, annotate_eq]
  exact annotateAt_annotateAt h (Node.annotateAll_annotateAll h root.children [] 0)

/-- **An annotated document without failures and exceptions is a fixed point.**  Where every outcome
of a document is a success, the annotated document is evaluated, from the same state of the fixture,
to the same outcomes, links and state, and annotating it with these changes nothing.  A failure
would be another matter: what it shows is text, and is compared the next time. -/
theorem success_is_fixed (uri : String) (comparator : Comparator) (f : Subject σ) {root : Element}
    {s : σ} (h : Successful (root.evaluate (.standard uri comparator) f s).outcomes) :
    (root.annotate (root.evaluate (.standard uri comparator) f s).outcomes).evaluate
        (.standard uri comparator) f s = root.evaluate (.standard uri comparator) f s ∧
      (root.annotate (root.evaluate (.standard uri comparator) f s).outcomes).annotate
          (root.evaluate (.standard uri comparator) f s).outcomes =
        root.annotate (root.evaluate (.standard uri comparator) f s).outcomes := by
  constructor
  · rw [← evaluate_unclassed, unclassed_annotate h, evaluate_unclassed]
  · exact annotate_annotate h root

end Element

/-! ### A document that passes

A name is stored inside an assertion, behind it stands a link, and the classes have blank space
around them. -/

namespace Passing

def document : Element :=
  ⟨"p", [⟨"xmlns:c", "urn:c"⟩, ⟨"class", " big\tred "⟩, ⟨"c:assertEquals", "#name"⟩],
    [.text " ", .element "b" [⟨"c:set", "#name"⟩] [.text "Bob"],
      .element "a" [⟨"href", "b"⟩, ⟨"c:link", ""⟩] [.element "i" [⟨"c:assertTrue", "'true'"⟩] []]]⟩

def subject : Subject Unit := ⟨⟨"a", fun _ _ => none, fun s _ _ => (.panicked none, s)⟩, .ofPath "a"⟩

def evaluation : Evaluation Unit :=
  document.evaluate (.standard "urn:c" .normalized) subject ()

/-- Two commands of it succeed, and none fails. -/
theorem document_is_fixed :
    evaluation.outcomes.map (·.path) = [[], [2, 0]] ∧ Successful evaluation.outcomes ∧
    (document.annotate evaluation.outcomes).attributes[1]? = some ⟨"class", "big\tred success"⟩ ∧
    (document.annotate evaluation.outcomes).evaluate (.standard "urn:c" .normalized) subject () =
      evaluation ∧
    (document.annotate evaluation.outcomes).annotate evaluation.outcomes =
      document.annotate evaluation.outcomes := by
  have hsuccess : Successful evaluation.outcomes := by decide +kernel
  exact ⟨by decide +kernel, hsuccess, by decide +kernel,
    Element.success_is_fixed "urn:c" .normalized subject hsuccess⟩

end Passing

end LivingDoc
