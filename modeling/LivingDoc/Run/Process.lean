import LivingDoc.Run.Basic

/-!
# Processing a document and all that it links to

Links are followed in depth.  The resources of the documents that are being processed form a path; a
link back to one of them is not followed again, so a run ends for every graph of links: with each
document that is entered, one document fewer is left off the path.

The engine keeps one set of active resources for a top-level call, which it changes on entering and
leaving a document; here the path is an argument, and that both come to the same is a theorem about
the two.

* `Runner.visit_eq`: processing a document is loading it, evaluating it, storing it and following
  its links, in this order.
* `Runner.visit_induction`: proofs about visits go by the visits inside them.
-/

namespace LivingDoc

/-- Fewer items are left off a longer list, if one of them is on it only now.  It is the measure of
`Runner.visit`: the items are the documents there are, and the list is the path. -/
theorem countP_off_cons_lt {α β : Type} [DecidableEq β] {key : α → β} {items : List α}
    {path : List β} {b : β} (hb : b ∉ path) (h : ∃ a ∈ items, key a = b) :
    items.countP (fun a => decide (key a ∉ b :: path))
      < items.countP (fun a => decide (key a ∉ path)) := by
  have mono : ∀ l : List α, l.countP (fun a => decide (key a ∉ b :: path))
      ≤ l.countP (fun a => decide (key a ∉ path)) := fun l =>
    List.countP_mono_left fun a _ ha => by
      simp only [decide_eq_true_eq, List.mem_cons, not_or] at ha ⊢
      exact ha.2
  induction items with
  | nil => simp at h
  | cons a as ih =>
    by_cases ha : key a = b
    · have hm := mono as
      simp only [List.countP_cons, ha, List.mem_cons, true_or, not_true, decide_false, hb,
        not_false_eq_true, decide_true, if_true]
      simpa using Nat.lt_succ_of_le hm
    · obtain ⟨x, hx, hxb⟩ := h
      rcases List.mem_cons.1 hx with rfl | hx
      · exact absurd hxb ha
      · have hk : decide (key a ∉ b :: path) = decide (key a ∉ path) := by simp [ha]
        rw [List.countP_cons, List.countP_cons, hk]
        exact Nat.add_lt_add_right (ih ⟨x, hx, hxb⟩) _

namespace Runner

variable {σ : Type}

/-! ## 1. Following links -/

/-- Process a document that is not on the path, and follow its links: `process_document` with
`process_entered` and `follow_link` inside it, as links lead back to the first.  The stages come one
after the other and the first that fails ends the visit (specification, 4.6); a failed store keeps
what the evaluation did to the fixture, and follows no link.  The body of `follow` is written out
here because the recursion goes through it. -/
def visit (u : Runner σ) (path : List Resource) (r : Resource) (f : Fixture σ) (s : σ)
    (h : r ∉ path) : Run σ :=
  match hload : u.load r with
  | .error e => ⟨.error e, s, [.entered r, .requested r, .left r]⟩
  | .ok root =>
    have := countP_off_cons_lt h (mem_of_load hload)
    let v := root.evaluate u.registry ⟨f, r⟩ s
    let before := .entered r :: .requested r :: v.state.calls.map Event.called
    match u.target.unwritable.lookup r with
    | some m => ⟨.error (.unwritable r m), v.state.fixture, before ++ [.left r]⟩
    | none =>
      let follow (l : Link) : Child × List Event :=
        if hl : l.target ∈ r :: path then (.revisited l.target, [])
        else match u.provider l.target with
          | none => (.unresolved l.target, [])
          | some (g, t) =>
            let run := visit u (r :: path) l.target g t hl
            (run.child l.target, run.events)
      let followed := if u.configuration.followLinks then v.links.map follow else []
      ⟨.ok { v.summary with children := followed.map (·.1) }, v.state.fixture,
        before ++ .stored r (u.rendered root v.outcomes) :: (followed.flatMap (·.2) ++ [.left r])⟩
termination_by u.source.documents.entries.countP fun e => decide (e.1 ∉ path)
decreasing_by assumption

/-- What comes of a link from the document at the end of a path, given first, and what happens:
`follow_link`.  A document on the path is revisited, whether there is a fixture for it or not. -/
def follow (u : Runner σ) (path : List Resource) (l : Link) : Child × List Event :=
  if hl : l.target ∈ path then (.revisited l.target, [])
  else match u.provider l.target with
    | none => (.unresolved l.target, [])
    | some (g, t) =>
      let run := u.visit path l.target g t hl
      (run.child l.target, run.events)

/-- What comes of the links that an evaluation found, and what happens. -/
def followAll (u : Runner σ) (path : List Resource) (links : List Link) :
    List (Child × List Event) :=
  if u.configuration.followLinks then links.map (u.follow path) else []

/-- **A document is loaded, evaluated, stored, and then its links are followed.**  The equation to
use in proofs: unlike the definition it has no proofs in it, and links are followed by
`followAll`. -/
theorem visit_eq (u : Runner σ) (path : List Resource) (r : Resource) (f : Fixture σ) (s : σ)
    (h : r ∉ path) : u.visit path r f s h =
      match u.load r with
      | .error e => ⟨.error e, s, [.entered r, .requested r, .left r]⟩
      | .ok root =>
        let v := root.evaluate u.registry ⟨f, r⟩ s
        let before := .entered r :: .requested r :: v.state.calls.map Event.called
        match u.target.unwritable.lookup r with
        | some m => ⟨.error (.unwritable r m), v.state.fixture, before ++ [.left r]⟩
        | none =>
          let followed := u.followAll (r :: path) v.links
          ⟨.ok { v.summary with children := followed.map (·.1) }, v.state.fixture,
            before ++ .stored r (u.rendered root v.outcomes)
              :: (followed.flatMap (·.2) ++ [.left r])⟩ := by
  rw [visit]
  split <;> rename_i hload
  · simp only [hload]
  · simp only [hload]
    rfl

/-- Induction over visits: what holds of a visit if it holds of all visits inside it, holds.  The
step is given the visits of every resource off the longer path, and only when the document was
loaded. -/
theorem visit_induction {u : Runner σ}
    {P : (path : List Resource) → (r : Resource) → Fixture σ → σ → r ∉ path → Prop}
    (step : ∀ path r f s h,
      (∀ root, u.load r = .ok root → ∀ r' g t h', P (r :: path) r' g t h') → P path r f s h)
    (path : List Resource) (r : Resource) (f : Fixture σ) (s : σ) (h : r ∉ path) :
    P path r f s h :=
  step path r f s h fun _ hload r' g t h' =>
    have := countP_off_cons_lt h (mem_of_load hload)
    visit_induction step (r :: path) r' g t h'
termination_by u.source.documents.entries.countP fun e => decide (e.1 ∉ path)
decreasing_by assumption

/-! ## 2. Whole runs -/

/-- Process a document, by default the one named after the fixture, and all that it links to: the
top-level call, which begins with an empty path. -/
def process (u : Runner σ) (resource : Option Resource) (f : Fixture σ) (s : σ) : Run σ :=
  u.visit [] (resource.getD (u.resourceFor f)) f s List.not_mem_nil

/-- Run a document; without a fixture nothing happens (specification, 4.6: "before any port
interaction"). -/
def run (u : Runner σ) (resource : Option Resource) :
    Option (Fixture σ × σ) → Except RunError Summary × List Event
  | none => (.error .noFixture, [])
  | some (f, s) =>
    let run := u.process resource f s
    (run.result, run.events)

/-- Process a document several times with one fixture: the results, the state of the fixture in the
end, and what happened. -/
def processTimes (u : Runner σ) (resource : Option Resource) (f : Fixture σ) :
    (times : Nat) → σ → List (Except RunError Summary) × σ × List Event
  | 0, s => ([], s, [])
  | n + 1, s =>
    let first := u.process resource f s
    let (results, t, events) := processTimes u resource f n first.state
    (first.result :: results, t, first.events ++ events)

end Runner

end LivingDoc
