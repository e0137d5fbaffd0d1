import ElmScope.Keyed
import ElmScope.Module.Header
/-!
# Workspaces

One entry per file: its source, whether an editor has it open, and its header. Beside the
entries stands a register of the files that declare each module, files of the project before
those of dependencies, and within the two groups in the order in which they came. The first
file of a module is the one an import of it means.

A file that is installed again under the same module name, and still in the same group, keeps
its place in the register; otherwise it goes to the end of its group.
-/
namespace ElmScope

/-- A file of a workspace (`ForestEntry`). -/
structure Entry where
  source : Source
  isOpen : Bool
  header : ModuleHeader

/-- One source per file, and the files of every module (`Forest`). -/
structure Workspace where
  entries : List (FileId × Entry)
  modules : List (String × List FileId)

namespace Workspace

/-- The workspace without files (`Forest::new`). -/
def empty : Workspace := ⟨[], []⟩

instance : EmptyCollection Workspace := ⟨empty⟩

variable (w : Workspace)

/-- The entry of a file (`Forest::entry`). -/
def entry? (file : FileId) : Option Entry := Keyed.get? w.entries file

/-- The source of a file (`get_tree`). -/
def source? (file : FileId) : Option Source := (w.entry? file).map Entry.source

/-- The header of a file (`Forest::index`). -/
def header? (file : FileId) : Option ModuleHeader := (w.entry? file).map Entry.header

/-- How many files there are (`Forest::len`). -/
def size : Nat := w.entries.length

/-- The files that declare a module, in the order in which they count. -/
def filesOf (name : String) : List FileId := (Keyed.get? w.modules name).getD []

/-- The source an import of a module means (`by_module_name`). -/
def module? (name : String) : Option Source := (w.filesOf name).head?.bind w.source?

/-- Whether a file is there and belongs to the project. -/
def isProjectFile (file : FileId) : Bool := (w.entry? file).any (·.source.writeable)

/-- The register without a file (`unregister_module`). A module that no file declares leaves it. -/
def withdraw (file : FileId) : List (String × List FileId) :=
  match (w.entry? file).bind (·.header.name?) with
  | none => w.modules
  | some name =>
    match (w.filesOf name).filter (· ≠ file) with
    | [] => Keyed.erase w.modules name
    | files => Keyed.put w.modules name files

/-- Where a file of a group goes among the files of its module (part of `Forest::insert`). -/
def place (writeable : Bool) (files : List FileId) : Nat :=
  if writeable then (files.takeWhile w.isProjectFile).length else files.length

/-- A register with a source at the end of its group (part of `Forest::insert`). -/
def enroll (s : Source) (modules : List (String × List FileId)) : List (String × List FileId) :=
  match s.moduleName? with
  | none => modules
  | some name =>
    let files := (Keyed.get? modules name).getD []
    Keyed.put modules name (files.insertIdx (w.place s.writeable files) s.file)

/-- Whether an installation leaves the place of the file in the register as it is (part of
`Forest::insert`). -/
def keepsPlace (s : Source) : Bool :=
  (w.entry? s.file).any fun e =>
    e.header.name? = s.moduleName? && e.source.writeable = s.writeable

/-- Install a source, in place of any entry its file has (`Forest::insert`). -/
def install (s : Source) (isOpen : Bool) : Workspace where
  entries := Keyed.put w.entries s.file ⟨s, isOpen, ModuleHeader.ofSource s⟩
  modules := if w.keepsPlace s then w.modules else w.enroll s (w.withdraw s.file)

/-- Mark a file as open or closed (`Forest::set_open`). A file that is not there stays away. -/
def setOpen (file : FileId) (isOpen : Bool) : Workspace :=
  match w.entry? file with
  | some e => { w with entries := Keyed.put w.entries file { e with isOpen := isOpen } }
  | none => w

/-- Take a file out (`Forest::remove`). -/
def remove (file : FileId) : Workspace where
  entries := Keyed.erase w.entries file
  modules := w.withdraw file

end Workspace
end ElmScope
