import ElmScope.Workspace.Basic
import ElmScope.Module.Exports
import ElmScope.Report.Json
/-!
# Inspections

What there is to say about one file: its module, its imports, what it exposes, and which of
its values lack a type annotation; as lines to read or as JSON.
-/
namespace ElmScope

/-- What there is to say about a file. -/
structure Inspection where
  file : FileId
  header : ModuleHeader
  exported : List Export
  unannotated : List String

namespace Inspection

/-- The inspection of a file of a workspace. -/
def ofEntry (e : Entry) : Inspection where
  file := e.source.file
  header := e.header
  exported := (Exports.ofSource e.source).toList
  unannotated :=
    (e.source.unannotatedDeclarations.filterMap e.source.functionName?).map e.source.textOf

/-! ## As lines -/

/-- The line of an import. -/
def importLine (i : Import) : String :=
  match i.alias? with
  | some name => "  " ++ i.moduleName ++ " as " ++ name
  | none => "  " ++ i.moduleName

/-- The line of a definition that other modules can see. -/
def exportLine (e : Export) : String :=
  let head := "  " ++ e.name ++ " (" ++ e.kind.name ++ ")"
  if e.constructors = [] then head
  else head ++ " " ++ " | ".intercalate (e.constructors.map (·.name))

/-- The lines of an inspection. -/
def lines (i : Inspection) : List String :=
  ["=== " ++ i.file.uri ++ " ===", "module: " ++ i.header.name?.getD "<none>", "imports:"]
    ++ i.header.imports.map importLine
    ++ ["exposed:"]
    ++ i.exported.map exportLine
    ++ if i.unannotated = [] then []
      else ["missing type annotations: " ++ ", ".intercalate i.unannotated]

/-! ## As JSON -/

/-- A choice that carries a value. -/
def tagged (tag : String) (value : Json) : Json := .object [(tag, value)]

/-- Constructors in JSON. -/
def constructorsJson : Constructors → Json
  | .all => .string "All"
  | .listed names => tagged "Explicit" (.list (names.map .string))

/-- An item of an exposing list in JSON. -/
def itemJson (e : ExposedItem) : Json :=
  .object [("name", .string e.name), ("constructors", .optional constructorsJson e.constructors)]

/-- An exposing list in JSON. -/
def exposingJson : Exposing → Json
  | .all => .string "All"
  | .listed items => tagged "Explicit" (.list (items.map itemJson))

/-- An import in JSON. -/
def importJson (i : Import) : Json :=
  .object
    [("module_name", .string i.moduleName), ("alias", .optional .string i.alias?),
      ("exposing", exposingJson i.exposing)]

/-- A visible definition in JSON. -/
def exportJson (e : Export) : Json :=
  .object
    [("name", .string e.name), ("kind", .string e.kind.name),
      ("constructors", .list (e.constructors.map fun c => .string c.name))]

/-- An inspection in JSON. -/
def toJson (i : Inspection) : Json :=
  .object
    [("file", .string i.file.uri), ("name", .optional .string i.header.name?),
      ("exposing", exposingJson i.header.exposing), ("imports", .list (i.header.imports.map importJson)),
      ("exposed", .list (i.exported.map exportJson)),
      ("missing_signatures", .list (i.unannotated.map .string))]

end Inspection
end ElmScope
