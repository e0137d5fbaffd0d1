import ElmScope.NameMap
import ElmScope.Definition.Kind
import ElmScope.Module.Structure
/-!
# What a module offers

The definitions other modules can see, by name. The table is filled kind by kind: functions,
ports, operators and aliases keep what already has their name, a union type replaces it.
-/
namespace ElmScope

/-- A constructor that is visible along with its type (`ExposedConstructor`). -/
structure ExportedConstructor where
  name : String
  node : Nat
deriving DecidableEq, Repr

/-- A definition that other modules can see (`Exposed`). Only a union type has constructors. -/
structure Export where
  name : String
  node : Nat
  kind : DefinitionKind
  constructors : List ExportedConstructor
deriving DecidableEq, Repr

/-- The definitions a module offers, by name (`ExposingTable`). -/
structure Exports where
  table : NameMap Export

namespace Exports

/-- The declarations of one kind that are visible, with their names (part of
`ExposingTable::build`). -/
def visible (declarations : List Nat) (name? : Nat → Option String) (admits : String → Bool)
    (kind : DefinitionKind) (constructors : String → Nat → List ExportedConstructor) : List Export :=
  declarations.filterMap fun d =>
    ((name? d).filter admits).map fun name => ⟨name, d, kind, constructors name d⟩

/-- The visible constructors of a type declaration (part of `ExposingTable::build`). -/
def visibleConstructors (s : Source) (typeName : String) (declaration : Nat) :
    List ExportedConstructor :=
  (s.variants declaration).filterMap fun v =>
    ((s.declaredName? v).filter (s.exposing.exposesConstructor typeName)).map fun name => ⟨name, v⟩

/-- The visible definitions that keep what already has their name, in the order in which they
are entered (`ExposingTable::insert`). -/
def deferring (s : Source) : List Export :=
  let plain := fun (_ : String) (_ : Nat) => ([] : List ExportedConstructor)
  visible s.valueDeclarations (fun d => (s.functionName? d).map s.textOf) s.exposing.exposes
      .function plain
    ++ visible s.portAnnotations s.declaredName? s.exposing.exposes .port plain
    ++ visible s.infixDeclarations s.operatorName? s.exposing.exposes .operator plain
    ++ visible s.aliasDeclarations s.declaredName? s.exposing.exposesType .typeAlias plain

/-- The visible union types, which replace what has their name (part of `ExposingTable::build`). -/
def replacing (s : Source) : List Export :=
  visible s.typeDeclarations s.declaredName? s.exposing.exposesType .type (visibleConstructors s)

/-- The offer of a file (`ExposingTable::build`). -/
def ofSource (s : Source) : Exports :=
  let kept := (deferring s).foldl (fun m e => m.insertIfNew e.name e) (∅ : NameMap Export)
  ⟨(replacing s).foldl (fun m e => m.insert e.name e) kept⟩

/-- The definition of a name (`ExposingTable::get`). -/
def get? (x : Exports) (name : String) : Option Export := x.table.get? name

/-- The definitions in ascending order of their names (`ExposingTable::iter`). -/
def toList (x : Exports) : List Export := x.table.values

/-- A visible constructor and the type it belongs to, the first by the name of the type
(`ExposingTable::constructor`). -/
def constructor? (x : Exports) (name : String) : Option (Export × ExportedConstructor) :=
  x.toList.findSome? fun e => (e.constructors.find? (·.name = name)).map fun c => (e, c)

end Exports
end ElmScope
