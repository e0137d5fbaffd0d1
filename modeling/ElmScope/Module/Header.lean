import ElmScope.Module.Structure
/-!
# Module headers

What a file says about itself and the modules it uses: module name, exposing list, imports.
Every module also receives a fixed list of imports without writing them; an import written for
one of those modules takes its place.
-/
namespace ElmScope

/-- One import (`ImportInfo`). -/
structure Import where
  moduleName : String
  alias? : Option String
  exposing : Exposing
deriving DecidableEq, Repr

/-- The name an import is visible under: the alias hides the module name
(`ImportInfo::qualifier`). -/
def Import.qualifier (i : Import) : String := i.alias?.getD i.moduleName

/-- The imports every module receives (`implicit_imports`). -/
def defaultImports : List Import :=
  let exposingOnly (name : String) (constructors : Option Constructors) : Exposing :=
    .listed [⟨name, constructors⟩]
  [ ⟨"Basics", none, .all⟩,
    ⟨"List", none, .listed [⟨"List", none⟩, .value "::"]⟩,
    ⟨"Maybe", none, exposingOnly "Maybe" (some .all)⟩,
    ⟨"Result", none, exposingOnly "Result" (some .all)⟩,
    ⟨"String", none, exposingOnly "String" none⟩,
    ⟨"Char", none, exposingOnly "Char" none⟩,
    ⟨"Tuple", none, .nothing⟩,
    ⟨"Debug", none, .nothing⟩,
    ⟨"Platform", none, exposingOnly "Program" none⟩,
    ⟨"Platform.Cmd", some "Cmd", exposingOnly "Cmd" none⟩,
    ⟨"Platform.Sub", some "Sub", exposingOnly "Sub" none⟩ ]

/-- What a file says about itself and the modules it uses (`ModuleIndex`). -/
structure ModuleHeader where
  name? : Option String
  exposing : Exposing
  imports : List Import
deriving DecidableEq, Repr

namespace ModuleHeader

/-- The import an import clause writes down (part of `ModuleIndex::build`). -/
def importOf? (s : Source) (clause : Nat) : Option Import :=
  (s.importedName? clause).map fun name =>
    ⟨s.textOf name, (s.importAlias? clause).map s.textOf,
      ((s.tree.child? "exposing" clause).map (Exposing.ofNode s)).getD .nothing⟩

/-- The header of a file (`ModuleIndex::build`). -/
def ofSource (s : Source) : ModuleHeader :=
  ⟨s.moduleName?, s.exposing, s.importClauses.filterMap (importOf? s)⟩

/-- The written imports, then the default ones of modules without a written import
(`imports_with_implicit`). -/
def allImports (header : ModuleHeader) : List Import :=
  header.imports
    ++ defaultImports.filter fun i => !header.imports.any fun j => j.moduleName = i.moduleName

end ModuleHeader
end ElmScope
