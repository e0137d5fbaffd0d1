import ElmScope.Workspace.Referent
import ElmScope.Workspace.Update
import ElmScope.Report.Inspection
/-!
# The command line

Two commands. `inspect FILE` shows what a file declares, as JSON with `--json`. `definition
ROOT FILE LINE CHARACTER`, or `def`, loads the source files below a directory and shows what
the name under a cursor refers to; line and character count from zero, in the answer from one.
-/
namespace ElmScope

/-- What a user asks for. -/
inductive Command where
  | inspect (file : Text) (json : Bool)
  | definition (root file : Text) (position : Position)

/-- What a run comes to: its exit code and what it writes. -/
structure Outcome where
  code : Nat
  stdout : String
  stderr : String
deriving DecidableEq, Repr

namespace Command

/-- A number of at most 32 bits in decimal digits. A plus sign in front is idle. -/
def number? (s : String) : Option UInt32 :=
  let digits : Text :=
    match s.toList with
    | '+' :: t => t
    | t => t
  (digits.natural?.filter (· < UInt32.size)).map .ofNat

/-- The command that some arguments ask for. -/
def ofArguments? (arguments : List String) : Option Command :=
  let flags := arguments.filter (· = "--json")
  match arguments.filter (· ≠ "--json") with
  | ["inspect", file] => if flags.length ≤ 1 then some (inspect file.toList (flags ≠ [])) else none
  | [name, root, file, line, character] =>
    if (name = "definition" ∨ name = "def") ∧ flags = [] then do
      return definition root.toList file.toList ⟨← number? line, ← number? character⟩
    else none
  | _ => none

/-- Lines as output, each one ended. -/
def output (lines : List String) : String := .join (lines.map (· ++ "\n"))

/-- The outcome of a run with an answer. -/
def succeed (lines : List String) : Outcome := ⟨0, output lines, ""⟩

/-- The outcome of a run that failed. -/
def fail (failure : Failure) : Outcome := ⟨1, "", output ["Error: " ++ failure.message]⟩

/-- The outcome of arguments that make no command. -/
def usage : Outcome :=
  ⟨2, "", output
    ["Usage: inspect FILE [--json]", "       definition ROOT FILE LINE CHARACTER"]⟩

/-- The line that shows a definition: its place, its kind and its name. -/
def definitionLine (d : Definition) : String :=
  let p := d.source.text.positionOf (d.source.tree.start d.node)
  d.file.uri ++ ":" ++ toString (p.line + 1) ++ ":" ++ toString (p.character + 1) ++ " "
    ++ d.kind.name ++ " " ++ d.name?.getD ""

/-- Carry out a command (`inspect` and `definition`). -/
def run (parse : Text → Tree) (disk : Disk) : Command → Outcome
  | inspect file json =>
    let u := Workspace.loadFile parse disk ∅ file true
    match u.result with
    | .error failure => fail failure
    | .ok id =>
      match (u.workspace.entry? id).map Inspection.ofEntry with
      | some i => succeed (if json then [i.toJson.pretty] else i.lines)
      | none => succeed []
  | definition root file position =>
    let w := (Workspace.loadDirectory parse disk ∅ root true).workspace
    let u := w.loadFile parse disk file true
    match u.result with
    | .error failure => fail failure
    | .ok id =>
      succeed
        [match (u.workspace.referentAt id position).found with
          | some d => definitionLine d
          | none => "No definition found"]

/-- Carry out what some arguments ask for. -/
def runArguments (parse : Text → Tree) (disk : Disk) (arguments : List String) : Outcome :=
  match ofArguments? arguments with
  | some command => run parse disk command
  | none => usage

end Command
end ElmScope
