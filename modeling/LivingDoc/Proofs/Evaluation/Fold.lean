import LivingDoc.Evaluation.Walk
import LivingDoc.Proofs.Markup.Places

/-!
# Evaluation in document order

The walk goes through the tree in two recursions: it visits every element, and at a command it sets
up the commands inside.  Both come apart into places, because what is in scope where the recursion
has got to is the scope of the place alone.  So an evaluation is a fold over the places of the tree.

* `Element.evaluate_eq_fold`: an evaluation comes to what the fold over the places comes to.
* `Walk.visitAll_eq`: a walk that keeps one scope and one path, and opens and closes the elements on
  them, leaves both as they were and comes to the same.
-/

namespace LivingDoc

variable {σ : Type}

/-! ## 1. The fold -/

/-- What the commands up to a place have come to: the outcomes so far, and the state. -/
structure Stage (σ : Type) where
  outcomes : List Recorded
  state : State σ

/-- An outcome of a command as it is recorded under a path, if there is one. -/
def Request.recorded (q : Request) (path : List Nat) (o : Option Outcome) : List Recorded :=
  (o.map fun o => ⟨path, q.command.name, q.expression, o⟩).toList

namespace Place

/-- The command of the element at a place, looked up in the scope of the place. -/
def request (r : Registry) (p : Place) : Option Request := r.resolve p.element p.scope

/-- Set up the command at a place, if there is one. -/
def setUp (r : Registry) (s : State σ) (p : Place) : State σ :=
  match p.request r with
  | some q => q.command.setUp p.element q.expression s
  | none => s

/-- The state with the commands below a place set up. -/
def ready (r : Registry) (p : Place) (s : State σ) : State σ := p.below.foldl (setUp r) s

/-- Go on to a place: set up the commands below it and run its own, or do nothing if it has none. -/
def step (r : Registry) (f : Subject σ) (t : Stage σ) (p : Place) : Stage σ :=
  match p.request r with
  | some q =>
    let (outcome, s) := q.command.run f p.element q.expression (p.ready r t.state)
    ⟨t.outcomes ++ q.recorded p.path outcome, s⟩
  | none => t

end Place

/-- What the commands at the first `n` places of a tree come to. -/
def Element.stage (r : Registry) (f : Subject σ) (root : Element) (s : σ) (n : Nat) : Stage σ :=
  (root.places.take n).foldl (Place.step r f) ⟨[], .start s⟩

/-- What the commands at all places of a tree come to. -/
def Element.fold (r : Registry) (f : Subject σ) (root : Element) (s : σ) : Stage σ :=
  root.places.foldl (Place.step r f) ⟨[], .start s⟩

theorem Element.stage_succ (r : Registry) (f : Subject σ) (root : Element) (s : σ)
    (i : Fin root.places.length) :
    root.stage r f s (i + 1) = (root.places.get i).step r f (root.stage r f s i) := by
  rw [stage, List.take_succ_eq_append_getElem i.isLt, List.foldl_append, List.foldl_cons,
    List.foldl_nil, stage, List.get_eq_getElem]

theorem Element.stage_length (r : Registry) (f : Subject σ) (root : Element) (s : σ) :
    root.stage r f s root.places.length = root.fold r f s := by
  rw [stage, List.take_length, fold]

/-! ## 2. The walk is the fold -/

/-- Setting up children is setting up their places one after the other.  By induction on the
children; the scope of the recursion is the scope of the elements around the place. -/
theorem Node.setUpAll_eq_foldl (r : Registry) (ns : List Node) (path : List Nat)
    (around : List Element) (i : Nat) (s : State σ) :
    Node.setUpAll r (scopeWithin around) ns s =
      (Node.placesAll path around i ns).foldl (Place.setUp r) s := by
  induction ns using Node.induction generalizing path around i s with
  | nil => rfl
  | text t rest ih => exact ih path around (i + 1) s
  | element n as cs rest ihc ihr =>
    simp only [Node.setUpAll, Node.setUp, Node.placesAll, Node.places, List.cons_append,
      List.foldl_cons, List.foldl_append]
    rw [← scopeWithin_append, ihc (path ++ [i]) (around ++ [(⟨n, as, cs⟩ : Element)]) 0,
      ihr path around (i + 1), scopeWithin_append, ← Place.scope_mk (path ++ [i])]
    rfl

theorem Place.ready_eq (r : Registry) (p : Place) (s : State σ) :
    Node.setUpAll r p.scope p.element.children s = p.ready r s := by
  obtain ⟨path, around, e⟩ := p
  rw [Place.scope_mk, ← scopeWithin_append]
  exact Node.setUpAll_eq_foldl r e.children path (around ++ [e]) 0 s

/-- An element performs its command as the fold goes on to its place. -/
theorem Place.step_eq_perform (r : Registry) (f : Subject σ) (t : Stage σ) (p : Place) :
    p.step r f t = ⟨t.outcomes ++ (p.element.perform r f p.scope p.path t.state).1,
      (p.element.perform r f p.scope p.path t.state).2⟩ := by
  unfold Place.step Element.perform Place.request
  cases r.resolve p.element p.scope with
  | none => simp
  | some q =>
    rw [Place.ready_eq]
    rfl

/-- Visiting children is going through their places one after the other.  By induction on the
children, like the setting up; outcomes come to those that are there already, so the stage is left
open. -/
theorem Node.foldl_placesAll (r : Registry) (f : Subject σ) (ns : List Node) (path : List Nat)
    (around : List Element) (i : Nat) (t : Stage σ) :
    (Node.placesAll path around i ns).foldl (Place.step r f) t =
      ⟨t.outcomes ++ (Node.visitAll r f (scopeWithin around) path i ns t.state).1,
        (Node.visitAll r f (scopeWithin around) path i ns t.state).2⟩ := by
  induction ns using Node.induction generalizing path around i t with
  | nil => simp [Node.placesAll, Node.visitAll]
  | text s rest ih =>
    simp only [Node.placesAll, Node.places, Node.visitAll, Node.visit, List.nil_append]
    exact ih path around (i + 1) t
  | element n as cs rest ihc ihr =>
    simp only [Node.placesAll, Node.places, Node.visitAll, Node.visit, List.cons_append,
      List.foldl_cons, List.foldl_append]
    rw [Place.step_eq_perform, ihc (path ++ [i]) (around ++ [(⟨n, as, cs⟩ : Element)]) 0,
      ihr path around (i + 1), scopeWithin_append, Place.scope_mk (path ++ [i])]
    simp only [List.append_assoc]

/-- **An evaluation comes to what the fold over the places comes to.** -/
theorem Element.evaluate_eq_fold (r : Registry) (f : Subject σ) (root : Element) (s : σ) :
    root.evaluate r f s = ⟨(root.fold r f s).outcomes,
      .ofOutcomes f.resource (root.fold r f s).outcomes, (root.fold r f s).state⟩ := by
  have hroot : Place.scope ⟨[], [], root⟩ = Scope.empty.push root := Place.scope_mk [] [] root
  have h : root.fold r f s = ⟨(root.node.visit r f .empty [] (.start s)).1,
      (root.node.visit r f .empty [] (.start s)).2⟩ := by
    rw [Element.fold, Element.places_eq, List.foldl_cons, Place.below, Node.foldl_placesAll,
      Place.step_eq_perform, hroot, List.nil_append, scopeWithin]
    simp only [Element.node, Node.visit, List.nil_append, List.foldl_cons, List.foldl_nil]
  rw [h]
  rfl

/-! ## 3. One scope and one path -/

/-- A walk under way.  It has one scope and one path, on which the elements that are open stand, and
it notes every command it runs.  This is the walk as the engine has it, where what is pushed has to
be popped again; that it comes to the same as the recursion is proved below. -/
structure Walk (σ : Type) where
  scope : Scope
  path : List Nat
  outcomes : List Recorded
  /-- The commands run so far, each with the path to its element. -/
  executed : List (List Nat × Request)
  state : State σ

namespace Walk

/-- Open an element. -/
def enter (w : Walk σ) (e : Element) : Walk σ := { w with scope := w.scope.push e }

/-- Close the element opened last. -/
def leave (w : Walk σ) : Walk σ := { w with scope := w.scope.pop }

/-- Go down to the child with this index. -/
def down (w : Walk σ) (i : Nat) : Walk σ := { w with path := w.path ++ [i] }

/-- Go back up from a child. -/
def up (w : Walk σ) : Walk σ := { w with path := w.path.dropLast }

mutual
/-- Set up the commands in a child, opening and closing the elements on the way. -/
def setUp (r : Registry) (w : Walk σ) : Node → Walk σ
  | .text _ => w
  | .element n as cs =>
    let inside := w.enter ⟨n, as, cs⟩
    let own := match r.resolve ⟨n, as, cs⟩ inside.scope with
      | some q => { inside with state := q.command.setUp ⟨n, as, cs⟩ q.expression inside.state }
      | none => inside
    (setUpAll r own cs).leave
/-- Set up the commands in children from left to right. -/
def setUpAll (r : Registry) (w : Walk σ) : List Node → Walk σ
  | [] => w
  | n :: rest => setUpAll r (setUp r w n) rest
end

/-- Run the command of the element opened last, if it has one. -/
def execute (r : Registry) (f : Subject σ) (w : Walk σ) (e : Element) : Walk σ :=
  match r.resolve e w.scope with
  | some q =>
    let t := setUpAll r w e.children
    let (outcome, s) := q.command.run f e q.expression t.state
    { t with
      outcomes := t.outcomes ++ q.recorded t.path outcome
      executed := t.executed ++ [(t.path, q)]
      state := s }
  | none => w

mutual
/-- Visit a child, opening and closing the elements on the way. -/
def visit (r : Registry) (f : Subject σ) (w : Walk σ) : Node → Walk σ
  | .text _ => w
  | .element n as cs =>
    (visitAll r f ((w.enter ⟨n, as, cs⟩).execute r f ⟨n, as, cs⟩) 0 cs).leave
/-- Visit the children of the element opened last, from the one with this index on. -/
def visitAll (r : Registry) (f : Subject σ) (w : Walk σ) (index : Nat) : List Node → Walk σ
  | [] => w
  | n :: rest => visitAll r f ((w.down index).visit r f n).up (index + 1) rest
end

/-- The walk after the commands at some places: its scope and its path are as they were. -/
def through (r : Registry) (f : Subject σ) (w : Walk σ) (ps : List Place) : Walk σ :=
  { w with
    outcomes := (ps.foldl (Place.step r f) ⟨w.outcomes, w.state⟩).outcomes
    executed := w.executed ++ ps.filterMap fun p => (p.request r).map fun q => (p.path, q)
    state := (ps.foldl (Place.step r f) ⟨w.outcomes, w.state⟩).state }

@[simp] theorem scope_through (r : Registry) (f : Subject σ) (w : Walk σ) (ps : List Place) :
    (w.through r f ps).scope = w.scope := rfl

@[simp] theorem path_through (r : Registry) (f : Subject σ) (w : Walk σ) (ps : List Place) :
    (w.through r f ps).path = w.path := rfl

theorem through_append (r : Registry) (f : Subject σ) (w : Walk σ) (ps qs : List Place) :
    w.through r f (ps ++ qs) = (w.through r f ps).through r f qs := by
  simp only [through, List.foldl_append, List.filterMap_append, List.append_assoc]

theorem setUpAll_eq (r : Registry) (ns : List Node) (w : Walk σ) :
    setUpAll r w ns = { w with state := Node.setUpAll r w.scope ns w.state } := by
  induction ns using Node.induction generalizing w with
  | nil => rfl
  | text s rest ih => exact ih w
  | element n as cs rest ihc ihr =>
    simp only [setUpAll, setUp, Node.setUpAll, Node.setUp, ihr, ihc, enter]
    cases r.resolve ⟨n, as, cs⟩ (w.scope.push ⟨n, as, cs⟩) with
    | none => simp only [leave, Scope.pop_push]
    | some q => simp only [leave, Scope.pop_push]

/-- The command of an element that is open where its place says is that of the place. -/
theorem execute_eq (r : Registry) (f : Subject σ) (w : Walk σ) (p : Place)
    (hs : w.scope = p.scope) (hp : w.path = p.path) :
    w.execute r f p.element = w.through r f [p] := by
  simp only [execute, through, List.foldl_cons, List.foldl_nil, List.filterMap_cons,
    List.filterMap_nil, Place.step, setUpAll_eq, hs, hp, Place.ready_eq]
  cases h : r.resolve p.element p.scope with
  | none =>
    simp only [Place.request, h, Option.map_none, List.append_nil]
    rw [← hs, ← hp]
  | some q => simp only [Place.request, h, Option.map_some]

/-- **A walk leaves its scope and its path as they were, and comes to what the fold over the places
comes to.**  By induction on the children.  The hypothesis on the scope is kept by opening an
element, and closing it gives back the scope that the children behind it need. -/
theorem visitAll_eq (r : Registry) (f : Subject σ) (ns : List Node) (w : Walk σ)
    (around : List Element) (i : Nat) (hw : w.scope = scopeWithin around) :
    w.visitAll r f i ns = w.through r f (Node.placesAll w.path around i ns) := by
  induction ns using Node.induction generalizing w around i with
  | nil =>
    simp only [visitAll, Node.placesAll, through, List.foldl_nil, List.filterMap_nil,
      List.append_nil]
  | text s rest ih =>
    have hup : ((w.down i).visit r f (.text s)).up = w := by
      simp only [visit, down, up, List.dropLast_concat]
    simp only [visitAll, hup, Node.placesAll, Node.places, List.nil_append]
    exact ih w around (i + 1) hw
  | element n as cs rest ihc ihr =>
    -- the element is opened and run where its place is, and its children are visited inside it
    have hs : ((w.down i).enter ⟨n, as, cs⟩).scope =
        Place.scope ⟨w.path ++ [i], around, ⟨n, as, cs⟩⟩ := by
      rw [Place.scope_mk, ← hw]
      rfl
    have hinner : (((w.down i).enter ⟨n, as, cs⟩).through r f
        [⟨w.path ++ [i], around, ⟨n, as, cs⟩⟩]).scope =
          scopeWithin (around ++ [(⟨n, as, cs⟩ : Element)]) := by
      rw [scope_through, scopeWithin_append, ← hw]
      rfl
    have hvisit : ((w.down i).visit r f (.element n as cs)).up =
        w.through r f (Node.places (w.path ++ [i]) around (.element n as cs)) := by
      simp only [visit]
      rw [execute_eq r f _ ⟨w.path ++ [i], around, ⟨n, as, cs⟩⟩ hs rfl,
        ihc _ _ 0 hinner, ← through_append]
      simp only [leave, up, through, enter, down, Scope.pop_push, List.dropLast_concat]
      rfl
    have hrest : (w.through r f (Node.places (w.path ++ [i]) around (.element n as cs))).scope =
        scopeWithin around := hw
    rw [visitAll, hvisit, ihr _ around (i + 1) hrest, path_through, ← through_append]
    rfl

/-- The walk before it has opened anything. -/
def start (s : σ) : Walk σ := ⟨.empty, [], [], [], .start s⟩

end Walk

/-- A walk through a document from its root. -/
def Element.walk (r : Registry) (f : Subject σ) (root : Element) (s : σ) : Walk σ :=
  (Walk.start s).visit r f root.node

theorem Element.walk_eq (r : Registry) (f : Subject σ) (root : Element) (s : σ) :
    root.walk r f s = (Walk.start s).through r f root.places := by
  have hs : ((Walk.start s).enter root).scope = Place.scope ⟨[], [], root⟩ :=
    (Place.scope_mk [] [] root).symm
  have hinner : (((Walk.start s).enter root).through r f [⟨[], [], root⟩]).scope =
      scopeWithin [root] := rfl
  simp only [walk, Element.node, Walk.visit]
  rw [Walk.execute_eq r f _ ⟨[], [], root⟩ hs rfl, Walk.visitAll_eq r f _ _ [root] 0 hinner,
    ← Walk.through_append, root.places_eq]
  simp only [Walk.leave, Walk.through, Walk.enter, Scope.pop_push]
  rfl

end LivingDoc
