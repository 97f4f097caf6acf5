import LivingDoc.Proofs.Run.Journal
import Mathlib.Data.List.Forall2

/-!
# What the stylesheet changes

Whether the stylesheet is embedded is decided for every document, when it has been evaluated and
before its links are followed.  Two runs with and without it go side by side through the same
documents: the stored texts are all that is different, and they are different in one place.

* `Element.headGains_iff`: the place is the end of the first `head`.
* `Runner.alike_visit`: the two visits to a document, with everything that is linked from it.
* `Runner.stylesheet_is_cosmetic`: the two runs.
-/

namespace LivingDoc

/-! ## 1. One more child -/

/-- The child is an element with the local name `head`. -/
def Node.isHead : Node → Bool
  | .text _ => false
  | .element name attributes children => Element.localName ⟨name, attributes, children⟩ == "head"

/-- The first child that is a `head` has one more child at its end; without a `head` nothing is
different.  It is said without the function that embeds a stylesheet. -/
inductive Element.HeadGains (extra : Node) : Element → Element → Prop
  | nowhere {e : Element} (h : ∀ n ∈ e.children, n.isHead = false) : HeadGains extra e e
  | atEnd {name : String} {attributes : List Attribute} {before after : List Node} {head : Element}
      (h : ∀ n ∈ before, n.isHead = false) (hhead : head.localName = "head") :
      HeadGains extra ⟨name, attributes, before ++ head.node :: after⟩
        ⟨name, attributes,
          before ++ { head with children := head.children ++ [extra] }.node :: after⟩

theorem styleHead_append {before : List Node} (h : ∀ n ∈ before, n.isHead = false)
    (rest : List Node) : styleHead (before ++ rest) = before ++ styleHead rest := by
  induction before with
  | nil => rfl
  | cons n before ih =>
    obtain ⟨hn, hbefore⟩ := List.forall_mem_cons.mp h
    cases n with
    | text s => rw [List.cons_append, styleHead, ih hbefore, List.cons_append]
    | element name as cs =>
      have hname : (splitQualified name).2 ≠ "head" := ne_of_beq_false hn
      rw [List.cons_append, styleHead, if_neg hname, ih hbefore, List.cons_append]

theorem styleHead_of_no_head {ns : List Node} (h : ∀ n ∈ ns, n.isHead = false) :
    styleHead ns = ns := by
  have happend := styleHead_append h []
  rwa [styleHead, List.append_nil] at happend

theorem styleHead_of_head {before : List Node} (h : ∀ n ∈ before, n.isHead = false) {head : Element}
    (hhead : head.localName = "head") (after : List Node) :
    styleHead (before ++ head.node :: after) =
      before ++ { head with children := head.children ++ [styleNode] }.node :: after := by
  have hname : (splitQualified head.name).2 = "head" := hhead
  rw [styleHead_append h, Element.node, styleHead, if_pos hname, Element.node]

theorem Node.exists_of_isHead {n : Node} (h : n.isHead = true) :
    ∃ head : Element, head.node = n ∧ head.localName = "head" := by
  cases n with
  | text s => contradiction
  | element name as cs => exact ⟨⟨name, as, cs⟩, rfl, eq_of_beq h⟩

/-- **The stylesheet is one more child of the first `head`.** -/
theorem Element.headGains_iff {e e' : Element} :
    e.HeadGains styleNode e' ↔ e' = e.withStylesheet := by
  constructor
  · intro h
    cases h with
    | nowhere h => rw [withStylesheet, styleHead_of_no_head h]
    | atEnd h hhead => rw [withStylesheet, styleHead_of_head h hhead]
  · rintro rfl
    obtain ⟨name, attributes, children⟩ := e
    unfold withStylesheet
    cases hfind : children.find? Node.isHead with
    | none =>
      have hno : ∀ n ∈ children, n.isHead = false := by simpa using List.find?_eq_none.mp hfind
      rw [styleHead_of_no_head hno]
      exact .nowhere hno
    | some n =>
      obtain ⟨hn, before, after, rfl, hbefore⟩ := List.find?_eq_some_iff_append.mp hfind
      obtain ⟨head, rfl, hhead⟩ := Node.exists_of_isHead hn
      have hno : ∀ n ∈ before, n.isHead = false := by simpa using hbefore
      rw [styleHead_of_head hno hhead]
      exact .atEnd hno hhead

/-- A prefix does not keep an element from being the first `head`. -/
example (ns : List Node) :
    Element.withStylesheet ⟨"html", [], [.element "h:head" [] ns, .element "head" [] []]⟩ =
      ⟨"html", [], [.element "h:head" [] (ns ++ [styleNode]), .element "head" [] []]⟩ := by
  rfl

/-! ## 2. Two runners -/

namespace Runner

variable {σ : Type}

/-- The runner with the stylesheet embedded or not; all else is as it was. -/
def styled (u : Runner σ) (embed : Bool) : Runner σ :=
  { u with configuration := { u.configuration with embedStylesheet := embed } }

@[simp] theorem load_styled (u : Runner σ) (embed : Bool) (r : Resource) :
    (u.styled embed).load r = u.load r := rfl

@[simp] theorem registry_styled (u : Runner σ) (embed : Bool) :
    (u.styled embed).registry = u.registry := rfl

@[simp] theorem provider_styled (u : Runner σ) (embed : Bool) :
    (u.styled embed).provider = u.provider := rfl

@[simp] theorem target_styled (u : Runner σ) (embed : Bool) :
    (u.styled embed).target = u.target := rfl

/-- The first text is that of the document at the resource, drawn with the outcomes of evaluating
it, and the second is that of the same tree where the first `head` has the stylesheet. -/
def Restyled (u : Runner σ) (r : Resource) (text text' : String) : Prop :=
  ∃ (root tree tree' : Element) (g : Fixture σ) (a : σ), u.load r = .ok root ∧
    tree = root.annotate (root.evaluate u.registry ⟨g, r⟩ a).outcomes ∧
    tree.HeadGains (.element "style" [⟨"type", "text/css"⟩] [.text stylesheet]) tree' ∧
    text = tree.markup ∧ text' = tree'.markup

/-- The same happened, up to the stylesheet in what was stored. -/
inductive SameEvent (u : Runner σ) : Event → Event → Prop
  | entered (r : Resource) : SameEvent u (.entered r) (.entered r)
  | requested (r : Resource) : SameEvent u (.requested r) (.requested r)
  | called (c : Call) : SameEvent u (.called c) (.called c)
  | stored {r : Resource} {text text' : String} (h : u.Restyled r text text') :
      SameEvent u (.stored r text) (.stored r text')
  | left (r : Resource) : SameEvent u (.left r) (.left r)

/-- The results and the fixtures are the same, and so is what happened. -/
structure Alike (u : Runner σ) (plain styled : Run σ) : Prop where
  result : styled.result = plain.result
  state : styled.state = plain.state
  events : List.Forall₂ u.SameEvent plain.events styled.events

/-- The text of a document with and without the stylesheet. -/
theorem restyled_rendered {u : Runner σ} {r : Resource} {root : Element} (h : u.load r = .ok root)
    (g : Fixture σ) (a : σ) :
    u.Restyled r ((u.styled false).rendered root (root.evaluate u.registry ⟨g, r⟩ a).outcomes)
      ((u.styled true).rendered root (root.evaluate u.registry ⟨g, r⟩ a).outcomes) :=
  ⟨root, _, _, g, a, h, rfl, Element.headGains_iff.mpr rfl, rfl, rfl⟩

theorem forall₂_called (u : Runner σ) (cs : List Call) :
    List.Forall₂ u.SameEvent (cs.map Event.called) (cs.map Event.called) :=
  List.rel_map (R := Eq) (fun c _ h => h ▸ .called c) (List.forall₂_eq_eq_eq ▸ rfl)

/-- Entries and events of links, the events up to the stylesheet. -/
def SameLink (u : Runner σ) (plain styled : Child × List Event) : Prop :=
  styled.1 = plain.1 ∧ List.Forall₂ u.SameEvent plain.2 styled.2

/-- A link leads to the same if the visits to its target do. -/
theorem sameLink_follow {u : Runner σ} {path : List Resource}
    (hvisit : ∀ r f s h, u.Alike ((u.styled false).visit path r f s h)
      ((u.styled true).visit path r f s h)) (l : Link) :
    u.SameLink ((u.styled false).follow path l) ((u.styled true).follow path l) := by
  unfold follow
  by_cases hl : l.target ∈ path
  · rw [dif_pos hl, dif_pos hl]
    exact ⟨rfl, .nil⟩
  · rw [dif_neg hl, dif_neg hl]
    simp only [provider_styled]
    cases u.provider l.target with
    | none => exact ⟨rfl, .nil⟩
    | some gt =>
      obtain ⟨g, t⟩ := gt
      have h := hvisit l.target g t hl
      refine ⟨?_, h.events⟩
      dsimp only [Run.child]
      rw [h.result]

theorem sameLink_followAll {u : Runner σ} {path : List Resource}
    (hvisit : ∀ r f s h, u.Alike ((u.styled false).visit path r f s h)
      ((u.styled true).visit path r f s h)) (links : List Link) :
    List.Forall₂ u.SameLink ((u.styled false).followAll path links)
      ((u.styled true).followAll path links) := by
  have hconfiguration : (u.styled true).configuration.followLinks =
    (u.styled false).configuration.followLinks := rfl
  unfold followAll
  rw [hconfiguration]
  split
  · rw [List.forall₂_map_left_iff, List.forall₂_map_right_iff]
    exact List.forall₂_same.mpr fun l _ => sameLink_follow hvisit l
  · exact .nil

theorem entries_eq {u : Runner σ} {xs ys : List (Child × List Event)}
    (h : List.Forall₂ u.SameLink xs ys) : ys.map (·.1) = xs.map (·.1) := by
  induction h with
  | nil => rfl
  | cons hxy _ ih => rw [List.map_cons, List.map_cons, hxy.1, ih]

/-- **A document is visited alike with and without the stylesheet,** and so is everything that is
linked from it.  Both load the same documents and evaluate them against the same fixtures; what is
stored is not read again. -/
theorem alike_visit (u : Runner σ) (path : List Resource) (r : Resource) (f : Fixture σ) (s : σ)
    (h : r ∉ path) :
    u.Alike ((u.styled false).visit path r f s h) ((u.styled true).visit path r f s h) := by
  -- both load what `u` loads, so one induction over the visits of `u` is for both
  induction path, r, f, s, h using visit_induction (u := u) with
  | step path r f s h ih =>
    have hentered : u.SameEvent (.entered r) (.entered r) := .entered r
    have hrequested : u.SameEvent (.requested r) (.requested r) := .requested r
    have hleft : List.Forall₂ u.SameEvent [.left r] [.left r] := .cons (.left r) .nil
    rw [visit_eq, visit_eq]
    simp only [load_styled, registry_styled, target_styled]
    cases hload : u.load r with
    | error e => exact ⟨rfl, rfl, .cons hentered (.cons hrequested hleft)⟩
    | ok root =>
      dsimp only
      set v := root.evaluate u.registry ⟨f, r⟩ s with hv
      have hbefore := List.Forall₂.cons hentered
        (.cons hrequested (u.forall₂_called v.state.calls))
      cases u.target.unwritable.lookup r with
      | some m => exact ⟨rfl, rfl, List.rel_append hbefore hleft⟩
      | none =>
        have hlinks := sameLink_followAll (ih root hload) v.links
        refine ⟨?_, rfl, ?_⟩
        · rw [entries_eq hlinks]
        · have hevents := List.rel_flatMap hlinks fun _ _ hxy => hxy.2
          exact List.rel_append hbefore
            (.cons (.stored (restyled_rendered hload f s)) (List.rel_append hevents hleft))

/-! ## 3. The two runs -/

/-- For every resource both targets hold a text or none does, and the texts differ in the
stylesheet. -/
def SameTarget (u : Runner σ) (plain styled : MemoryTarget) : Prop :=
  ∀ r, Option.Rel (u.Restyled r) (plain.written? r) (styled.written? r)

/-- What the stylesheet leaves alone, and what it does to the stored texts. -/
structure Cosmetic (u : Runner σ) (plain styled : Except RunError Summary × List Event) : Prop where
  /-- The summaries are equal at every depth, or the error is the same. -/
  result : styled.1 = plain.1
  /-- A source in memory is asked for the same. -/
  requested : (Event.source u.source.documents styled.2).requested =
    (Event.source u.source.documents plain.2).requested
  /-- The fixtures are called the same. -/
  calls : Event.calls styled.2 = Event.calls plain.2
  /-- A target in memory is given the same resources. -/
  stored : (Event.target styled.2).stored = (Event.target plain.2).stored
  /-- The texts it is given differ in the stylesheet, one by one. -/
  texts : List.Forall₂ (fun x y => y.1 = x.1 ∧ u.Restyled x.1 x.2 y.2) (Event.stores plain.2)
    (Event.stores styled.2)
  /-- So do those it has in the end. -/
  written : u.SameTarget (Event.target plain.2) (Event.target styled.2)

/-- A record of events is the same if it does not have the stored texts. -/
theorem filterMap_eq_of_sameEvent {u : Runner σ} {α : Type} {g : Event → Option α}
    (hg : ∀ e d, u.SameEvent e d → g d = g e) {es ds : List Event}
    (h : List.Forall₂ u.SameEvent es ds) : ds.filterMap g = es.filterMap g := by
  induction h with
  | nil => rfl
  | cons hed _ ih => rw [List.filterMap_cons, List.filterMap_cons, hg _ _ hed, ih]

/-- The stored texts differ in the stylesheet. -/
theorem forall₂_stores {u : Runner σ} {es ds : List Event} (h : List.Forall₂ u.SameEvent es ds) :
    List.Forall₂ (fun x y => y.1 = x.1 ∧ u.Restyled x.1 x.2 y.2) (Event.stores es)
      (Event.stores ds) := by
  refine List.rel_filterMap ?_ h
  intro e d hed
  cases hed with
  | stored htext => exact .some ⟨rfl, htext⟩
  | _ => exact .none

theorem SameTarget.store {u : Runner σ} {t t' : MemoryTarget} (h : u.SameTarget t t') {q : Resource}
    {text text' : String} (htext : u.Restyled q text text') :
    u.SameTarget (t.store q text) (t'.store q text') := by
  intro r
  simp only [MemoryTarget.written?, MemoryTarget.store, Documents.find?_add]
  split
  · rename_i hr
    exact .some (hr ▸ htext)
  · exact h r

theorem sameTarget_target {u : Runner σ} {es ds : List Event}
    (h : List.Forall₂ (fun x y => y.1 = x.1 ∧ u.Restyled x.1 x.2 y.2) (Event.stores es)
      (Event.stores ds)) : u.SameTarget (Event.target es) (Event.target ds) := by
  refine List.rel_foldl (P := u.SameTarget) ?_ (fun _ => .none) h
  rintro t t' ht ⟨q, text⟩ ⟨_, text'⟩ ⟨rfl, htext⟩
  exact ht.store htext

/-- Runs with the same result and, up to the stylesheet, the same events differ in the
stylesheet. -/
theorem cosmetic_of_sameEvent {u : Runner σ} {plain styled : Except RunError Summary × List Event}
    (hresult : styled.1 = plain.1) (h : List.Forall₂ u.SameEvent plain.2 styled.2) :
    u.Cosmetic plain styled where
  result := hresult
  requested := by
    rw [Event.requested_source, Event.requested_source]
    exact filterMap_eq_of_sameEvent (by rintro e d ⟨⟩ <;> rfl) h
  calls := filterMap_eq_of_sameEvent (by rintro e d ⟨⟩ <;> rfl) h
  stored := by
    rw [Event.stored_target, Event.stored_target, Event.stores_eq_journal, Event.stores_eq_journal]
    exact filterMap_eq_of_sameEvent (by rintro e d ⟨⟩ <;> rfl) h
  texts := forall₂_stores h
  written := sameTarget_target (forall₂_stores h)

/-- **The stylesheet is cosmetic.**  Two runs that differ only in whether it is embedded come to the
same result, ask for the same resources and store the same resources, all in the same order.  What
is stored with the stylesheet is the markup of the tree that is stored without it, where the first
child that is a `head`, if there is one, has a last child more that holds the stylesheet. -/
theorem stylesheet_is_cosmetic (u : Runner σ) (resource : Option Resource)
    (fixture : Option (Fixture σ × σ)) :
    u.Cosmetic ((u.styled false).run resource fixture) ((u.styled true).run resource fixture) := by
  cases fixture with
  | none => exact cosmetic_of_sameEvent rfl .nil
  | some fs =>
    obtain ⟨f, s⟩ := fs
    have h := u.alike_visit [] (resource.getD (u.resourceFor f)) f s List.not_mem_nil
    exact cosmetic_of_sameEvent h.result h.events

end Runner

end LivingDoc
