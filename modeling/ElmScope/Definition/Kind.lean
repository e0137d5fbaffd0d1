/-!
# Kinds of definitions

The closed list of what a name can turn out to be.
-/
namespace ElmScope

/-- What a definition is. -/
inductive DefinitionKind where
  /-- A value declaration at the top level or in a `let`. -/
  | function
  /-- A name bound by a parameter of a value declaration. -/
  | functionParameter
  /-- `type alias Name = ...` -/
  | typeAlias
  /-- `type Name = A | B` -/
  | type
  /-- The declaration of an infix operator. -/
  | operator
  /-- A module, by its declaration or by an import of it. -/
  | module
  /-- A name bound by the pattern of a `case` branch. -/
  | casePattern
  /-- A name bound by a parameter of `\x -> ...`. -/
  | anonymousFunctionParameter
  /-- A variant of a union type. -/
  | unionConstructor
  /-- A field of a record type. -/
  | fieldType
  /-- A variable of a type or alias declaration. -/
  | typeVariable
  /-- A port annotation. -/
  | port
deriving DecidableEq, Repr

namespace DefinitionKind

/-- The written name of a kind. -/
def name : DefinitionKind → String
  | function => "Function"
  | functionParameter => "FunctionParameter"
  | typeAlias => "TypeAlias"
  | type => "Type"
  | operator => "Operator"
  | module => "Module"
  | casePattern => "CasePattern"
  | anonymousFunctionParameter => "AnonymousFunctionParameter"
  | unionConstructor => "UnionConstructor"
  | fieldType => "FieldType"
  | typeVariable => "TypeVariable"
  | port => "Port"

/-- Every kind, in the order of declaration. -/
def all : List DefinitionKind :=
  [function, functionParameter, typeAlias, type, operator, module, casePattern,
    anonymousFunctionParameter, unionConstructor, fieldType, typeVariable, port]

/-- Whether a name of this kind stands for a type (`is_type_level`). -/
def isTypeLevel : DefinitionKind → Bool
  | typeAlias | type | typeVariable => true
  | _ => false

theorem mem_all (k : DefinitionKind) : k ∈ all := by cases k <;> decide

end DefinitionKind
end ElmScope
