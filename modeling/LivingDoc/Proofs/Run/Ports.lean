import LivingDoc.Proofs.Run.Journal

/-!
# Processing on ports that change

`Runner.visit` takes every document from a source that stays as it is, and lists what is asked for
and stored.  Here the same processing acts on a source and a target in memory: the source notes what
it is asked for, the target keeps what is stored, and both are handed on from one document to the
next.  Nothing says that the answer to a request does not depend on what came before it, and again
calls that nest are counted.

* `Runner.processOn_eq`: whatever the ports have seen, processing on them has the result of the
  visit, and leaves on them what the visit lists.
-/

namespace LivingDoc

/-! ## 1. Ports -/

/-- A source and a target in memory, which remember what they were asked for and given. -/
structure Ports where
  source : MemorySource
  target : MemoryTarget

namespace Ports

/-- What an event does to the ports. -/
def note (p : Ports) : Event → Ports
  | .requested r => { p with source := (p.source.fetch r).2 }
  | .stored r text => { p with target := p.target.store r text }
  | .entered _ | .called _ | .left _ => p

/-- The ports after everything that happened. -/
def after (p : Ports) (es : List Event) : Ports := es.foldl note p

/-- The ports have the documents of the source, whatever they have seen. -/
def Serves (p : Ports) (s : Source) : Prop := p.source.documents = s.documents

theorem after_append (p : Ports) (es ds : List Event) :
    p.after (es ++ ds) = (p.after es).after ds := List.foldl_append

theorem after_cons (p : Ports) (e : Event) (es : List Event) :
    p.after (e :: es) = (p.note e).after es := rfl

theorem after_called (p : Ports) (cs : List Call) : p.after (cs.map Event.called) = p := by
  induction cs with
  | nil => rfl
  | cons c cs ih => exact ih

theorem Serves.note {p : Ports} {s : Source} (h : p.Serves s) (e : Event) : (p.note e).Serves s := by
  cases e <;> exact h

theorem Serves.after {p : Ports} {s : Source} (h : p.Serves s) (es : List Event) :
    (p.after es).Serves s := by
  induction es generalizing p with
  | nil => exact h
  | cons e es ih => exact ih (h.note e)

/-- New ports hold afterwards what the events ask for and store. -/
theorem after_new (d : Documents) (es : List Event) :
    (⟨.ofDocuments d, .empty⟩ : Ports).after es = ⟨Event.source d es, Event.target es⟩ := by
  have fold : ∀ p : Ports, p.after es =
      ⟨(Event.requests es).foldl (fun m r => (m.fetch r).2) p.source,
        (Event.stores es).foldl (fun t e => t.store e.1 e.2) p.target⟩ := by
    induction es with
    | nil => intro p; rfl
    | cons e es ih =>
      intro p
      cases e <;> exact ih _
  exact fold _

end Ports

/-! ## 2. Processing on ports -/

/-- Something that is done on ports; nothing comes of it where calls nest too deep. -/
abbrev OnPorts := StateT Ports Option

/-- The entry for a link, by what came of processing its document (`follow_link`). -/
def Child.ofResult (target : Resource) : Except RunError Summary → Child
  | .ok s => s.child target
  | .error e => .failed target e.message

namespace Runner

variable {σ : Type}

/-- Ask the source for a document. -/
def ask (u : Runner σ) (r : Resource) : OnPorts (Except ReadFault String) := fun p =>
  let (answer, source) := p.source.fetch r
  match u.source.unreadable.lookup r with
  | some m => some (.error (.unreadable m), { p with source })
  | none => some (answer, { p with source })

/-- Read and parse a document, as the first two steps of `process_entered`. -/
def loadOn (u : Runner σ) (r : Resource) : OnPorts (Except RunError Element) := do
  match ← u.ask r with
  | .error .missing => return .error (.notFound r)
  | .error (.unreadable m) => return .error (.unreadable r m)
  | .ok text =>
    match Element.parse text with
    | .error f => return .error (.malformed r f)
    | .ok root => return .ok root

/-- Store a document in the target. -/
def keep (u : Runner σ) (r : Resource) (text : String) : OnPorts (Except String Unit) := fun p =>
  match u.target.unwritable.lookup r with
  | some m => some (.error m, p)
  | none => some (.ok (), { p with target := p.target.store r text })

/-- Follow a link from the document at the end of a path. -/
def followOn (u : Runner σ)
    (process : Resource → Fixture σ → σ → OnPorts (Except RunError Summary)) (path : List Resource)
    (l : Link) : OnPorts Child :=
  if l.target ∈ path then pure (.revisited l.target)
  else match u.provider l.target with
    | none => pure (.unresolved l.target)
    | some (g, t) => Child.ofResult l.target <$> process l.target g t

/-- Follow the links that an evaluation found. -/
def followAllOn (u : Runner σ)
    (process : Resource → Fixture σ → σ → OnPorts (Except RunError Summary)) (path : List Resource)
    (links : List Link) : OnPorts (List Child) :=
  if u.configuration.followLinks then links.mapM (u.followOn process path) else pure []

/-- Process a document that is not on the path, and follow its links; at most so many calls nest. -/
def processOn (u : Runner σ) : (depth : Nat) → (path : List Resource) → Resource → Fixture σ → σ →
    OnPorts (Except RunError Summary)
  | 0, _, _, _, _ => failure
  | depth + 1, path, r, f, s => do
    match ← u.loadOn r with
    | .error e => return .error e
    | .ok root =>
      let v := root.evaluate u.registry ⟨f, r⟩ s
      match ← u.keep r (u.rendered root v.outcomes) with
      | .error m => return .error (.unwritable r m)
      | .ok () =>
        let children ← u.followAllOn (u.processOn depth (r :: path)) (r :: path) v.links
        return .ok { v.summary with children }

/-! ## 3. It is a visit -/

/-- On ports with the documents of the source, whatever they have seen, this comes to a value and
does to the ports what some events do. -/
def Comes {α : Type} (u : Runner σ) (m : OnPorts α) (a : α) (es : List Event) : Prop :=
  ∀ p : Ports, p.Serves u.source → m p = some (a, p.after es)

namespace Comes

variable {u : Runner σ} {α β : Type}

theorem pure (a : α) : u.Comes (Pure.pure a) a [] := fun _ _ => rfl

/-- One thing after another: its events come behind those of the first. -/
theorem bind {m : OnPorts α} {a : α} {es : List Event} (h : u.Comes m a es) {k : α → OnPorts β}
    {b : β} {ds : List Event} (hk : u.Comes (k a) b ds) : u.Comes (m >>= k) b (es ++ ds) := by
  intro p hp
  have hm : (m >>= k) p = (m p).bind fun x => k x.1 x.2 := rfl
  rw [hm, h p hp, Option.bind_some, hk _ (hp.after es), Ports.after_append]

theorem map {m : OnPorts α} {a : α} {es : List Event} (h : u.Comes m a es) (g : α → β) :
    u.Comes (g <$> m) (g a) es := by
  have hg := h.bind (k := fun a => Pure.pure (g a)) (pure (g a))
  rwa [List.append_nil, bind_pure_comp] at hg

theorem mapM {γ : Type} {k : γ → OnPorts α} {g : γ → α × List Event}
    (h : ∀ c, u.Comes (k c) (g c).1 (g c).2) (cs : List γ) :
    u.Comes (cs.mapM k) ((cs.map g).map (·.1)) ((cs.map g).flatMap (·.2)) := by
  induction cs with
  | nil => exact pure []
  | cons c cs ih =>
    rw [List.mapM_cons]
    exact (h c).bind (ih.map ((g c).1 :: ·))

theorem of_after_eq {m : OnPorts α} {a : α} {es ds : List Event} (h : u.Comes m a es)
    (heq : ∀ p : Ports, p.after es = p.after ds) : u.Comes m a ds :=
  fun p hp => (h p hp).trans (congrArg (fun q => some (a, q)) (heq p))

/-- The source answers as it always does, since noting a request leaves its documents alone. -/
theorem ask (u : Runner σ) (r : Resource) :
    u.Comes (u.ask r) (u.source.fetch r) [.requested r] := by
  intro p hp
  unfold Runner.ask Source.fetch
  rw [← hp]
  cases u.source.unreadable.lookup r with
  | some m => rfl
  | none => rfl

theorem loadOn (u : Runner σ) (r : Resource) :
    u.Comes (u.loadOn r) (u.load r) [.requested r] := by
  refine (ask u r).bind ?_
  unfold load
  cases u.source.fetch r with
  | error e => cases e <;> exact pure _
  | ok text =>
    dsimp only
    cases Element.parse text <;> exact pure _

theorem keep_of_unwritable {r : Resource} {m : String} (h : u.target.unwritable.lookup r = some m)
    (text : String) : u.Comes (u.keep r text) (.error m) [] := by
  intro p _
  simp only [Runner.keep, h]
  rfl

theorem keep_of_writable {r : Resource} (h : u.target.unwritable.lookup r = none) (text : String) :
    u.Comes (u.keep r text) (.ok ()) [.stored r text] := by
  intro p _
  simp only [Runner.keep, h]
  rfl

end Comes

theorem comes_followOn {u : Runner σ} {path : List Resource}
    {process : Resource → Fixture σ → σ → OnPorts (Except RunError Summary)}
    (hp : ∀ r f s (h : r ∉ path),
      u.Comes (process r f s) (u.visit path r f s h).result (u.visit path r f s h).events)
    (l : Link) : u.Comes (u.followOn process path l) (u.follow path l).1 (u.follow path l).2 := by
  unfold followOn follow
  by_cases hl : l.target ∈ path
  · rw [if_pos hl, dif_pos hl]
    exact .pure _
  · rw [if_neg hl, dif_neg hl]
    cases u.provider l.target with
    | none => exact .pure _
    | some gt =>
      obtain ⟨g, t⟩ := gt
      exact (hp l.target g t hl).map (Child.ofResult l.target)

theorem comes_followAllOn {u : Runner σ} {path : List Resource}
    {process : Resource → Fixture σ → σ → OnPorts (Except RunError Summary)}
    (hp : ∀ r f s (h : r ∉ path),
      u.Comes (process r f s) (u.visit path r f s h).result (u.visit path r f s h).events)
    (links : List Link) : u.Comes (u.followAllOn process path links)
      ((u.followAll path links).map (·.1)) ((u.followAll path links).flatMap (·.2)) := by
  unfold followAllOn followAll
  by_cases hfollow : u.configuration.followLinks = true
  · rw [if_pos hfollow, if_pos hfollow]
    exact .mapM (comes_followOn hp) links
  · rw [if_neg hfollow, if_neg hfollow]
    exact .pure []

/-- **Processing on ports is a visit.**  As long as more calls may nest than there are documents off
the path, it has the result of the visit, and leaves on the ports what the visit lists.  By
induction on the depth, for all ports that serve the documents; nothing else that they have seen is
used. -/
theorem processOn_eq (u : Runner σ) (depth : Nat) : ∀ path : List Resource,
    u.source.documents.entries.countP (fun e => decide (e.1 ∉ path)) < depth →
    ∀ r f s (h : r ∉ path), u.Comes (u.processOn depth path r f s)
      (u.visit path r f s h).result (u.visit path r f s h).events := by
  induction depth with
  | zero => intro path hd; exact absurd hd (Nat.not_lt_zero _)
  | succ depth ih =>
    intro path hd r f s h
    have hload := Comes.loadOn u r
    rw [visit_eq, processOn]
    cases hroot : u.load r with
    | error e =>
      rw [hroot] at hload
      exact Comes.of_after_eq (hload.bind (.pure _)) fun p => rfl
    | ok root =>
      rw [hroot] at hload
      have hp := ih (r :: path)
        (Nat.lt_of_lt_of_le (countP_off_cons_lt h (mem_of_load hroot)) (Nat.lt_succ_iff.mp hd))
      dsimp only
      cases hw : u.target.unwritable.lookup r with
      | some m =>
        refine Comes.of_after_eq
          (hload.bind ((Comes.keep_of_unwritable hw _).bind (.pure _))) fun p => ?_
        simp only [Ports.after_append, Ports.after_cons, Ports.after_called]
        rfl
      | none =>
        have hfollow := comes_followAllOn hp (root.evaluate u.registry ⟨f, r⟩ s).links
        refine Comes.of_after_eq
          (hload.bind ((Comes.keep_of_writable hw _).bind (hfollow.bind (.pure _)))) fun p => ?_
        simp only [Ports.after_append, Ports.after_cons, Ports.after_called]
        rfl

end Runner

end LivingDoc
