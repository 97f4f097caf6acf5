import LivingDoc.Fixture.Table
import LivingDoc.Command.Registry
import LivingDoc.Summary

/-!
# Plain-text reports

Summaries as indented trees (`format_summary`), recorded outcomes with their place
(`format_failure`), and descriptions of registries, requests and tables of operations.
-/

namespace LivingDoc

/-! ## 1. Summaries -/

/-- Tallies in words. -/
def Counts.line (c : Counts) : String :=
  toString c.successes ++ " passed, " ++ toString c.failures ++ " failed, " ++ toString c.exceptions
    ++ " exceptions"

def indentation (depth : Nat) : String := String.ofList (List.replicate (2 * depth) ' ')

/-- The line of an entry: where the link leads, and what came of it. -/
def Child.line (depth : Nat) (c : Child) : String :=
  let what := match c with
    | .processed .. => c.totals.line
    | .revisited _ => "revisited"
    | .unresolved _ => "unresolved (no fixture)"
    | .failed _ m => "failed: " ++ m
  indentation depth ++ "-> " ++ c.target.path ++ ": " ++ what ++ "\n"

mutual
/-- The lines of an entry and of those below it, one level deeper. -/
def Child.report (depth : Nat) : Child → String
  | .processed t r own cs =>
    Child.line depth (.processed t r own cs) ++ Child.reportAll (depth + 1) cs
  | .revisited t => Child.line depth (.revisited t)
  | .unresolved t => Child.line depth (.unresolved t)
  | .failed t m => Child.line depth (.failed t m)
def Child.reportAll (depth : Nat) : List Child → String
  | [] => ""
  | c :: rest => c.report depth ++ Child.reportAll depth rest
end

/-- The report of a summary: whether it is satisfied, its totals, and a line for every entry. -/
def Summary.report (s : Summary) : String :=
  (if s.isSatisfied then "PASS" else "FAIL") ++ ": " ++ s.resource.path ++ "\n  " ++ s.totals.line
    ++ "\n" ++ Child.reportAll 1 s.children

/-! ## 2. Outcomes -/

/-- The report of an outcome: its place, its command, and what it came to. -/
def Recorded.report (r : Recorded) (resource : Resource) : String :=
  let label := match r.outcome with
    | .success => "PASS"
    | .failure .. => "FAIL"
    | .exception _ => "ERROR"
  let details := match r.outcome with
    | .success => []
    | .failure expected actual =>
      ["expected \x60" ++ expected ++ "\x60, found \x60" ++ actual ++ "\x60"]
    | .exception c => c.message :: c.context
  label ++ ": " ++ resource.path ++ " [" ++ String.intercalate "." (r.path.map toString) ++ "]\n  "
    ++ r.command ++ ": " ++ r.expression ++ "\n"
    ++ String.join (details.map fun d => "    " ++ d ++ "\n")

/-! ## 3. Descriptions -/

/-- A name in double quotes, with quotes and backslashes escaped. -/
def quotedName (s : String) : String :=
  String.ofList ('"' :: s.toList.flatMap (fun c => if c = '"' ∨ c = '\\' then ['\\', c] else [c])
    ++ ['"'])

def nameList (names : List String) : String :=
  "[" ++ String.intercalate ", " (names.map quotedName) ++ "]"

/-- A record with the texts of its fields. -/
def fieldList (name : String) (fields : List (String × String)) : String :=
  name ++ " \x7b " ++ String.intercalate ", " (fields.map fun f => f.1 ++ ": " ++ f.2) ++ " \x7d"

/-- The commands of a registry, in the order in which they are tried. -/
def Registry.description (r : Registry) : String := nameList (r.map (·.command.name))

def Request.description (q : Request) (e : Element) : String :=
  fieldList "CommandCall" [("command", quotedName q.command.name), ("element", quotedName e.name),
    ("expression", quotedName q.expression)]

def OperationTable.description {σ : Type} (t : OperationTable σ) : String :=
  fieldList "MethodFixture" [("type_name", quotedName t.typeName), ("methods", nameList t.names)]

end LivingDoc
