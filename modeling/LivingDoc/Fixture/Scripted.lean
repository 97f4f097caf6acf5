import LivingDoc.Fixture.Table

/-!
# Scripted operations

Operations given as data, for documents about the tool itself.  They work on a ledger: named values
in the order of their names, and a running total.  They make up no part of the engine; they are what
its behaviour is tried on.
-/

namespace LivingDoc

/-- The state of a scripted fixture. -/
structure Ledger where
  entries : List (String × Value)
  total : Int64
deriving Repr

namespace Ledger

def empty : Ledger := ⟨[], 0⟩

/-- Put an entry at its place among entries in order, over one with the same key. -/
def insertIn (key : String) (v : Value) : List (String × Value) → List (String × Value)
  | [] => [(key, v)]
  | e :: rest =>
    if key = e.1 then (key, v) :: rest
    else if key < e.1 then (key, v) :: e :: rest
    else e :: insertIn key v rest

def put (l : Ledger) (key : String) (v : Value) : Ledger :=
  { l with entries := insertIn key v l.entries }

def get? (l : Ledger) (key : String) : Option Value := l.entries.lookup key

end Ledger

/-- A part of a composed text: fixed, or the display of an argument. -/
inductive TextPart where
  | fixed (s : String)
  | argument (index : Nat)
deriving Repr

/-- What a scripted operation does. -/
inductive Script where
  | constant (v : Value)
  | argument (index : Nat)
  | compose (parts : List TextPart)
  | kinds
  | equals (v : Value)
  | add
  | put
  | get
  | has
  | visit
  | fail (message : String) (causes : List String)
  | panic (message : Option String)
deriving Repr

namespace Script

/-- The argument at a place, or null. -/
def argumentAt (as : List Value) (i : Nat) : Value := as.getD i .null

/-- A part of a text with the arguments put in. -/
def partText (as : List Value) : TextPart → String
  | .fixed s => s
  | .argument i => (argumentAt as i).display

/-- The integers among the arguments, added up with wrapping. -/
def sumFrom (start : Int64) (as : List Value) : Int64 :=
  as.foldl (fun n v => match v with | .int m => n + m | _ => n) start

def visits : Option Value → Int64
  | some (.int n) => n
  | _ => 0

/-- Run a script on a state with the arguments: the answer, and the state behind it. -/
def run (s : Script) (l : Ledger) (as : List Value) : Reply × Ledger :=
  let key := (argumentAt as 0).display
  match s with
  | .constant v => (.returned v, l)
  | .argument i => (.returned (argumentAt as i), l)
  | .compose parts => (.returned (.text (String.join (parts.map (partText as)))), l)
  | .kinds => (.returned (.text (String.intercalate "," (as.map Value.kind))), l)
  | .equals v => (.returned (.bool ((argumentAt as 0).sameValue v)), l)
  | .add =>
    let n := sumFrom l.total as
    (.returned (.int n), { l with total := n })
  | .put => (.returned .null, l.put key (argumentAt as 1))
  | .get => (.returned (Value.ofOption (l.get? key)), l)
  | .has => (.returned (.bool (l.get? key).isSome), l)
  | .visit =>
    let n := visits (l.get? key) + 1
    (.returned (.int n), l.put key (.int n))
  | .fail m causes => (.raised m causes, l)
  | .panic m => (.panicked m, l)

def operation (s : Script) (signature : Signature) : Operation Ledger := ⟨signature, s.run⟩

end Script

end LivingDoc
