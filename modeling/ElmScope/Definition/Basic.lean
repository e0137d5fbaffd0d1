import ElmScope.Definition.Kind
import ElmScope.Module.Structure
/-!
# Definitions

A node of some source, and what it defines. Two definitions are the same when they name the
same node of the same file with the same kind; a node of a draft is no node of the file.
-/
namespace ElmScope

/-- What a name turned out to be. -/
structure Definition where
  node : Nat
  source : Source
  kind : DefinitionKind
deriving DecidableEq

namespace Definition

/-- The file of a definition (`Definition::file`). -/
def file (d : Definition) : FileId := d.source.file

/-- Whether two definitions are the same (`Definition::eq`). -/
def isSame (d e : Definition) : Bool :=
  d.node = e.node && d.source.isDraft = e.source.isDraft && d.kind = e.kind && d.file = e.file

/-- The node that holds the name of a definition. A declared value names itself on its left
side, a pattern or a variable is its own name. -/
def nameNode? (d : Definition) : Option Nat :=
  match d.kind with
  | .function => some ((d.source.functionName? d.node).getD d.node)
  | .module => some ((d.source.tree.child? "name" d.node).getD d.node)
  | .operator => d.source.tree.child? "operator" d.node
  | .typeAlias | .type | .unionConstructor | .fieldType | .port =>
    d.source.tree.child? "name" d.node
  | .functionParameter | .casePattern | .anonymousFunctionParameter | .typeVariable => some d.node

/-- The name of a definition (`Definition::name`). -/
def name? (d : Definition) : Option String := d.nameNode?.map d.source.textOf

/-- A definition as a log shows it. -/
def describe (d : Definition) : String :=
  "Definition \x7b kind: " ++ d.kind.name ++ ", file: " ++ d.file.describe ++ ", node: "
    ++ d.source.describeNode d.node ++ " \x7d"

end Definition
end ElmScope
