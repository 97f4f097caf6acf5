import LivingDoc.Resource

/-!
# Documents in memory

A collection of documents has at most one text for a resource.  A source hands out documents and
remembers what it was asked for; a target keeps the last text of every resource and remembers the
order in which they came.  These are the ports `Source` and `Target` of the specification (6) in
their implementations in memory, with the logs that their tests look into.

* `find?_add`: what was put in last is what is found.
-/

namespace LivingDoc

/-! ## 1. Collections -/

/-- Texts by resource. -/
structure Documents where
  entries : List (Resource × String)
deriving DecidableEq, Repr

namespace Documents

def empty : Documents := ⟨[]⟩

def find? (d : Documents) (r : Resource) : Option String := d.entries.lookup r

/-- Put a document in, in place of one with the same resource.  The map of the port has one entry
for a resource; here the old entry is taken out, so the entries are in the order of the last
`add`. -/
def add (d : Documents) (r : Resource) (text : String) : Documents :=
  ⟨d.entries.filter (·.1 != r) ++ [(r, text)]⟩

/-- The documents put in one after another. -/
def ofList (es : List (Resource × String)) : Documents :=
  es.foldl (fun d e => d.add e.1 e.2) empty

/-- **What was put in is found, and everything else is as it was.**  By induction on the entries
that are kept: looking up passes over the ones that `add` has taken out. -/
theorem find?_add (d : Documents) (r other : Resource) (text : String) :
    (d.add r text).find? other = if other = r then some text else d.find? other := by
  unfold add find?
  induction d.entries with
  | nil =>
    by_cases h : other = r
    · simp [h]
    · have hb : (other == r) = false := by simpa using h
      simp [h, List.lookup_cons, hb]
  | cons e es ih =>
    obtain ⟨k, t⟩ := e
    by_cases hk : k = r
    · subst hk
      by_cases h : other = k
      · simpa [h] using ih
      · have hb : (other == k) = false := by simpa using h
        simpa [h, List.lookup_cons, hb] using ih
    · cases ho : other == k
      · simpa [hk, List.lookup_cons, ho] using ih
      · have he : other = k := by simpa using ho
        subst he
        simp [hk]

theorem mem_of_find? {d : Documents} {r : Resource} {text : String} (h : d.find? r = some text) :
    ∃ e ∈ d.entries, e.1 = r := by
  unfold find? at h
  induction hd : d.entries generalizing d with
  | nil => simp [hd] at h
  | cons e es ih =>
    rw [hd, List.lookup_cons] at h
    cases hr : r == e.1 with
    | true => exact ⟨e, List.mem_cons_self, (by simpa using hr : r = e.1).symm⟩
    | false =>
      rw [hr] at h
      obtain ⟨x, hx, hxr⟩ := ih (d := ⟨es⟩) h rfl
      exact ⟨x, List.mem_cons_of_mem _ hx, hxr⟩

end Documents

/-! ## 2. Reading and writing -/

/-- Why a document cannot be read: the port's `SourceError`, which tells a document that is not
there from one that cannot be read. -/
inductive ReadFault where
  | missing
  | unreadable (message : String)
deriving DecidableEq, Repr

/-- The message about a document that is not there. -/
def missingMessage (r : Resource) : String := "Resource '" ++ r.path ++ "' not found"

/-- A source in memory: its documents, and what it was asked for, found or not. -/
structure MemorySource where
  documents : Documents
  requested : List Resource
deriving DecidableEq, Repr

namespace MemorySource

def ofDocuments (d : Documents) : MemorySource := ⟨d, []⟩

def add (s : MemorySource) (r : Resource) (text : String) : MemorySource :=
  { s with documents := s.documents.add r text }

/-- Ask for a document (`fetch`).  The resource is written down before it is looked for, so the log
also has what is not there. -/
def fetch (s : MemorySource) (r : Resource) : Except ReadFault String × MemorySource :=
  (match s.documents.find? r with
    | some text => .ok text
    | none => .error .missing, { s with requested := s.requested ++ [r] })

end MemorySource

/-- A target in memory: the last text of every resource, and the order of storing, in which a
resource stands as often as it was stored. -/
structure MemoryTarget where
  documents : Documents
  stored : List Resource
deriving DecidableEq, Repr

namespace MemoryTarget

def empty : MemoryTarget := ⟨.empty, []⟩

def store (t : MemoryTarget) (r : Resource) (text : String) : MemoryTarget :=
  ⟨t.documents.add r text, t.stored ++ [r]⟩

/-- The last text of a resource (`written`). -/
def written? (t : MemoryTarget) (r : Resource) : Option String := t.documents.find? r

/-- The last texts of all resources, in the order of resources. -/
def listing (t : MemoryTarget) : List (Resource × String) :=
  t.documents.entries.mergeSort fun a b => a.1.le b.1

end MemoryTarget

end LivingDoc
