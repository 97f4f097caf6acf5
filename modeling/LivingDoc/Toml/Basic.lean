import LivingDoc.Number.Binary64

/-!
# TOML values

The values that a TOML text has, and the tables that its statements build up.  A table remembers how
it came to be, because that decides whether a later statement may add to it: TOML 1.0 forbids
defining a key or a table twice, adding to a table between braces, and reaching by a dotted key into
a table with a header of its own.

* `Entries.put` and the two headers refuse whatever would define a thing twice.
-/

namespace LivingDoc

namespace Toml

/-- How a table came to be. -/
inductive Origin where
  /-- By its own header, or as the whole text. -/
  | header
  /-- By the header of a table inside it. -/
  | implied
  /-- By a key with dots. -/
  | dotted
  /-- Between braces; nothing is added to it later. -/
  | inline
deriving DecidableEq, Repr

end Toml

/-- A TOML value. -/
inductive Toml where
  | string (s : String)
  | integer (n : Int64)
  | float (x : Binary64)
  | boolean (b : Bool)
  /-- A date, a time of day, or both, as it is written. -/
  | datetime (written : List Char)
  | array (items : List Toml)
  | table (origin : Toml.Origin) (entries : List (String × Toml))
  /-- Tables under one header, the last of them still open. -/
  | tables (closed : List Toml) (last : List (String × Toml))
deriving Repr, Inhabited

namespace Toml

/-! ## 1. Looking into values -/

def items? : Toml → Option (List Toml)
  | .array items => some items
  | .tables closed last => some (closed ++ [.table .header last])
  | _ => none

def entries? : Toml → Option (List (String × Toml))
  | .table _ entries => some entries
  | _ => none

def string? : Toml → Option String
  | .string s => some s
  | _ => none

def boolean? : Toml → Option Bool
  | .boolean b => some b
  | _ => none

/-! ## 2. Building tables -/

/-- The entries of a table, in the order in which they were defined.  No name stands in it twice, as
long as it is built by the functions below. -/
abbrev Entries := List (String × Toml)

/-- A key: the names that lead to a table, and the name in it. -/
structure Key where
  path : List String
  name : String
deriving DecidableEq, Repr

namespace Entries

/-- Put a value in the place of the one with the name. -/
def replace (es : Entries) (name : String) (v : Toml) : Entries :=
  es.map fun e => if e.1 = name then (name, v) else e

/-- Change the table that a path leads to.  Tables that are missing are made on the way, with the
origin `made`; a path of dots does not lead into a table that has its own header, and no path leads
into one between braces.  A path into tables under one header leads into the last of them. -/
def change (made : Origin) (f : Origin → Entries → Option Entries) :
    (path : List String) → Origin → Entries → Option Entries
  | [], origin, es => f origin es
  | name :: rest, _, es =>
    match es.lookup name with
    | none => do
      let inner ← change made f rest made []
      return es ++ [(name, .table made inner)]
    | some (.table origin inner) => do
      guard (origin ≠ .inline ∧ ¬(made = .dotted ∧ origin = .header))
      let inner ← change made f rest origin inner
      return es.replace name (.table origin inner)
    | some (.tables closed last) => do
      let last ← change made f rest .header last
      return es.replace name (.tables closed last)
    | some _ => none

/-- Define a name in a table.  A key with dots defines only in tables made by dots, and a key
without dots only in others. -/
def put (key : Key) (v : Toml) (origin : Origin) (es : Entries) : Option Entries := do
  guard ((origin = .dotted ↔ key.path ≠ []) ∧ (es.lookup key.name).isNone)
  return es ++ [(key.name, v)]

/-- Define what a key names, inside a table. -/
def define (key : Key) (v : Toml) (origin : Origin) (es : Entries) : Option Entries :=
  change .dotted (put key v) key.path origin es

/-- Define what key after key names, in a table of its own. -/
def ofPairs (pairs : List (Key × Toml)) : Option Entries :=
  pairs.foldlM (fun es p => define p.1 p.2 .inline es) []

/-- Open the table with this header, which may have come to be only as part of the path of
another. -/
def openTable (key : Key) : Entries → Option Entries :=
  change .implied (fun _ es =>
    match es.lookup key.name with
    | none => some (es ++ [(key.name, .table .header [])])
    | some (.table .implied inner) => some (es.replace key.name (.table .header inner))
    | some _ => none) key.path .header

/-- Open one more of the tables under this header. -/
def openElement (key : Key) : Entries → Option Entries :=
  change .implied (fun _ es =>
    match es.lookup key.name with
    | none => some (es ++ [(key.name, .tables [] [])])
    | some (.tables closed last) =>
      some (es.replace key.name (.tables (closed ++ [.table .header last]) []))
    | some _ => none) key.path .header

end Entries

end Toml

end LivingDoc
