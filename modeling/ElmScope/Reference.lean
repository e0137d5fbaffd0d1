import ElmScope.Module.Structure
import ElmScope.Text.Quoted
/-!
# References

A name as written at a use: the module path or alias before it, the name itself, and which
declarations it can mean. `Reference.ofNode?` reads the reference an identifier stands for.

A dotted path is read segment by segment. The last segment is the name and the segments
before it its qualifier; any other segment, together with those before it, names a module.
-/
namespace ElmScope

/-- Which declarations a name can mean. -/
inductive Namespace where
  /-- Functions, ports and operators. -/
  | value
  /-- Types and type aliases. -/
  | type
  /-- Union constructors, and aliases of records used as such. -/
  | constructor
  /-- Modules and the aliases of imports. -/
  | module
deriving DecidableEq, Repr

/-- The written name of a namespace. -/
def Namespace.name : Namespace → String
  | value => "Value"
  | type => "Type"
  | constructor => "Constructor"
  | module => "Module"

/-- A name as written at a use. -/
structure Reference where
  qualifier? : Option String
  name : String
  namesp : Namespace
deriving DecidableEq, Repr

namespace Reference

/-- A name without a qualifier (`Reference::unqualified`). -/
def unqualified (name : String) (namesp : Namespace) : Reference := ⟨none, name, namesp⟩

/-- A reference as a log shows it. -/
def describe (r : Reference) : String :=
  let qualifier :=
    match r.qualifier? with
    | some q => "Some(" ++ quoted q ++ ")"
    | none => "None"
  "Reference \x7b qualifier: " ++ qualifier ++ ", name: " ++ quoted r.name ++ ", namespace: "
    ++ r.namesp.name ++ " \x7d"

/-- The identifiers of a dotted path. -/
def segments (t : Tree) (path : Nat) : List Nat :=
  t.childrenOf ["upper_case_identifier", "lower_case_identifier"] path

/-- The last identifier of a dotted path (`last_segment`). -/
def lastSegment? (t : Tree) (path : Nat) : Option Nat := (segments t path).getLast?

/-- The kinds of dotted paths. -/
def pathKinds : List String := ["value_qid", "upper_case_qid"]

/-- The kinds of identifiers a reference can be read from. -/
def identifierKinds : List String :=
  ["lower_case_identifier", "upper_case_identifier", "operator_identifier"]

/-- The identifier a node stands for: a path for its last segment, an expression for the path it
holds, any other node for itself (part of `Reference::at`). -/
def identifier? (t : Tree) (n : Nat) : Option Nat :=
  if t.kind n = "value_expr" then (t.namedChildren n).head?.bind (lastSegment? t)
  else if pathKinds.contains (t.kind n) then lastSegment? t n
  else some n

/-- Whether an identifier stands right after a dot and an upper-case segment (`is_qualified`). -/
def followsDot (t : Tree) (n : Nat) : Bool :=
  (((t.prevSibling? n).filter fun d => t.kind d = "dot" || t.kind d = ".").bind t.prevSibling?).any
    fun m => t.kind m = "upper_case_identifier"

/-- The texts of some segments with dots between them. -/
def dotted (s : Source) (segments : List Nat) : String :=
  ".".intercalate (segments.map s.textOf)

/-- What an identifier outside of a path refers to (part of `Reference::at`). -/
def plain (s : Source) (n : Nat) : Reference :=
  let afterAs := (s.tree.parent? n).any fun p => s.tree.kind p = "as_clause"
  .unqualified (s.textOf n) <|
    if s.tree.kind n = "upper_case_identifier" then (if afterAs then .module else .type) else .value

/-- Which declarations the last segment of a path can mean (part of `Reference::at`). -/
def namespaceOf (t : Tree) (path n : Nat) : Namespace :=
  if t.kind n = "lower_case_identifier" then .value
  else
    match (t.parent? path).map t.kind with
    | some "type_ref" => .type
    | some "module_declaration" => .module
    | some "import_clause" => .module
    | _ => .constructor

/-- What an identifier in a dotted path refers to (part of `Reference::at`). -/
def inPath? (s : Source) (path n : Nat) : Option Reference :=
  let all := segments s.tree path
  if !all.contains n then none
  else
    let before := all.takeWhile (· ≠ n)
    if before.length + 1 ≠ all.length then some (.unqualified (dotted s (before ++ [n])) .module)
    else
      let qualifier? := if before = [] then none else some (dotted s before)
      if qualifier?.isSome && !followsDot s.tree n then none
      else
        match namespaceOf s.tree path n with
        | .module => some (.unqualified (s.textOf path) .module)
        | namesp => some ⟨qualifier?, s.textOf n, namesp⟩

/-- The reference a node stands for (`Reference::at`). -/
def ofNode? (s : Source) (node : Nat) : Option Reference :=
  (identifier? s.tree node).bind fun n =>
    if !identifierKinds.contains (s.tree.kind n) then none
    else
      match (s.tree.parent? n).filter fun p => pathKinds.contains (s.tree.kind p) with
      | none => some (plain s n)
      | some path => inPath? s path n

end Reference
end ElmScope
