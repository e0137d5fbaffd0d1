import ElmScope.Source.Basic
/-!
# Exposing lists

What a module declaration or an import lets through: everything, or the items of a list. An
item names a value, an operator (without its parentheses) or a type, and a type item may
carry constructors. Only a name that starts with an ASCII capital counts as the name of a
type when a type is asked for.
-/
namespace ElmScope

/-- The constructors that come with an exposed type. -/
inductive Constructors where
  /-- `Type(..)` -/
  | all
  /-- `Type(A, B)` -/
  | listed (names : List String)
deriving DecidableEq, Repr

/-- Whether a constructor comes along (`Constructors::contains`). -/
def Constructors.contains (name : String) : Constructors → Bool
  | all => true
  | listed names => names.contains name

/-- One item of an exposing list (`ExposedEntry`). -/
structure ExposedItem where
  name : String
  constructors : Option Constructors
deriving DecidableEq, Repr

namespace ExposedItem

/-- The item of a value or an operator (`ExposedEntry::value`). -/
def value (name : String) : ExposedItem := ⟨name, none⟩

/-- Whether an item has the name of a type (`ExposedEntry::is_type`). -/
def isType (e : ExposedItem) : Bool := e.name.toList.head?.any Char.isUpper

end ExposedItem

/-- What a module or an import exposes. -/
inductive Exposing where
  /-- `exposing (..)` -/
  | all
  /-- `exposing (a, B, C(..))` -/
  | listed (items : List ExposedItem)
deriving DecidableEq, Repr

namespace Exposing

/-- An import without an exposing list exposes nothing (`Exposing::default`). -/
def nothing : Exposing := listed []

/-- Whether everything is exposed (`is_all`). -/
def isAll : Exposing → Bool
  | all => true
  | listed _ => false

/-- The items of the list; none under a wildcard (`entries`). -/
def items : Exposing → List ExposedItem
  | all => []
  | listed es => es

/-- The first item of a name (`entry`). -/
def item? (e : Exposing) (name : String) : Option ExposedItem := e.items.find? (·.name = name)

/-- Whether a name is let through (`is_exposed`). -/
def exposes (e : Exposing) (name : String) : Bool := e.isAll || (e.item? name).isSome

/-- Whether the type or alias of a name is let through (`is_exposed_type_or_alias`). -/
def exposesType (e : Exposing) (name : String) : Bool :=
  e.isAll || (e.item? name).any ExposedItem.isType

/-- Whether a constructor of a type is let through (`exposes_constructor`). -/
def exposesConstructor (e : Exposing) (typeName constructor : String) : Bool :=
  e.isAll ||
    ((e.item? typeName).bind ExposedItem.constructors).any fun c => c.contains constructor

/-! ## Reading a list -/

/-- Constructors as written after a type (part of `exposed_entry`). -/
def constructorsOf (s : Source) (n : Nat) : Constructors :=
  if (s.tree.firstChild? "double_dot" n).isSome then .all
  else .listed ((s.tree.childrenOf ["upper_case_identifier"] n).map s.textOf)

/-- An operator's text without the parentheses around it (part of `exposed_entry`). -/
def bareOperator (text : String) : String :=
  let isParenthesis := fun c => c = '(' || c = ')'
  .ofList ((text.toList.dropWhile isParenthesis).reverse.dropWhile isParenthesis).reverse

/-- One written item (`exposed_entry`). -/
def itemOf? (s : Source) (n : Nat) : Option ExposedItem :=
  match s.tree.kind n with
  | "exposed_value" => some (.value (s.textOf n))
  | "exposed_operator" =>
    some <| .value <|
      match s.tree.firstChild? "operator_identifier" n with
      | some operator => s.textOf operator
      | none => bareOperator (s.textOf n)
  | "exposed_type" =>
    (s.tree.firstChild? "upper_case_identifier" n).map fun name =>
      ⟨s.textOf name, (s.tree.firstChild? "exposed_union_constructors" n).map (constructorsOf s)⟩
  | _ => none

/-- The kinds of nodes that are items of an exposing list. -/
def itemKinds : List String := ["exposed_value", "exposed_type", "exposed_operator"]

/-- A written exposing list (`Exposing::from_list`). -/
def ofNode (s : Source) (list : Nat) : Exposing :=
  if (s.tree.firstChild? "double_dot" list).isSome then all
  else listed ((s.tree.childrenOf itemKinds list).filterMap (itemOf? s))

end Exposing
end ElmScope
