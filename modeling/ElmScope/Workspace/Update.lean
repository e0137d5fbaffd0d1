import ElmScope.Disk
import ElmScope.Event
import ElmScope.Text.Edit
import ElmScope.Workspace.Basic
/-!
# Keeping a workspace up to date

What editors and disks do to a workspace. An editor opens, changes and closes documents; files
and whole directories are loaded from disk. Each operation answers an `Update`: its result, the
workspace after it, and its events. An operation that fails leaves the workspace as it was.

The parser is a parameter: any total function from texts to trees. Every installed tree is the
tree of exactly the text beside it; a changed text is parsed anew as a whole.
-/
namespace ElmScope

/-- What an operation on a workspace comes to. -/
structure Update (α : Type) where
  result : Except Failure α
  workspace : Workspace
  events : List Event

namespace Workspace

variable (parse : Text → Tree) (disk : Disk) (w : Workspace)

/-- The event of an installation. -/
def installed (s : Source) : Event :=
  let header := ModuleHeader.ofSource s
  .treeInstalled s.file header.name? header.imports.length

/-- Whether an editor has a file open (`is_open`). -/
def isOpen (file : FileId) : Bool := (w.entry? file).any Entry.isOpen

/-- A document comes from an editor (`did_open`). It belongs to the project unless the workspace
knows better. -/
def openDocument (uri : String) (text : Text) : Update Unit :=
  let file := FileId.ofUri uri
  let writeable := (w.source? file).all Source.writeable
  let s : Source := ⟨file, text, parse text, writeable, false⟩
  ⟨.ok (), w.install s true, [.documentOpened file, installed s]⟩

/-- The text at a path (`read_path`). -/
def readPath (path : Text) : Except Failure Text :=
  (disk.readText path).mapError fun fault => .unreadable (.ofList path) fault.message

/-- The text of a file that the workspace does not hold (`read_file`). -/
def readFile (file : FileId) : Except Failure Text :=
  match file.path? with
  | some path => readPath disk path
  | none => .error (.notAFile file)

/-- A document as an editor finds it: its text, whether it is open, and whether it belongs to
the project. -/
structure Document where
  text : Text
  isOpen : Bool
  writeable : Bool

/-- The document of a file (part of `did_change`). One that the workspace does not hold is read
from disk, as an open file of the project. -/
def document (file : FileId) : Except Failure Document :=
  match w.entry? file with
  | some e => .ok ⟨e.source.text, e.isOpen, e.source.writeable⟩
  | none => (readFile disk file).map fun text => ⟨text, true, true⟩

/-- An editor changes a document (`did_change`). All edits apply or none does. -/
def changeDocument (uri : String) (version : Int) (edits : List Edit) : Update Unit :=
  let file := FileId.ofUri uri
  let events := if (w.entry? file).isSome then [] else [.unknownDocumentChanged file]
  match w.document disk file with
  | .error failure => ⟨.error failure, w, events⟩
  | .ok d =>
    match d.text.editAll? edits with
    | none => ⟨.error (.invalidRange file), w, events⟩
    | some text =>
      let s : Source := ⟨file, text, parse text, d.writeable, false⟩
      ⟨.ok (), w.install s d.isOpen,
        events ++ [.documentReparsed file version edits.length, installed s]⟩

/-- An editor closes a document (`did_close`). Its tree stays. -/
def closeDocument (uri : String) : Update Unit :=
  let file := FileId.ofUri uri
  ⟨.ok (), w.setOpen file false,
    [if (w.entry? file).isSome then .documentClosed file else .unknownDocumentClosed file]⟩

/-- A file is loaded from disk (`load_file`). One that an editor has open stays open. -/
def loadFile (path : Text) (writeable : Bool) : Update FileId :=
  match readPath disk path with
  | .error failure => ⟨.error failure, w, []⟩
  | .ok text =>
    let file := FileId.ofPath disk.workingDirectory path
    let s : Source := ⟨file, text, parse text, writeable, false⟩
    ⟨.ok file, w.install s (w.isOpen file), [installed s]⟩

/-- Whether a path is that of a source file (part of `load_directory`). -/
def isSourcePath (path : Text) : Bool := Path.extension? path = some ['e', 'l', 'm']

/-- What a visit comes across is loaded in turn, source files only (part of `load_directory`).
What cannot be visited and what fails to load is reported and left out. The result is how many
files were loaded. -/
def loadEntries (writeable : Bool) : List DiskEntry → Workspace → Nat × Workspace × List Event
  | [], w => (0, w, [])
  | .fault path fault :: entries, w =>
    let (count, last, events) := loadEntries writeable entries w
    (count, last, .entrySkipped (.ofList path) fault.message :: events)
  | .file path :: entries, w =>
    if !isSourcePath path then loadEntries writeable entries w
    else
      let u := w.loadFile parse disk path writeable
      let (count, last, events) := loadEntries writeable entries u.workspace
      match u.result with
      | .ok _ => (count + 1, last, u.events ++ events)
      | .error failure => (count, last, u.events ++ .fileSkipped (.ofList path) failure :: events)

/-- Every source file of a directory is loaded (`load_directory`). -/
def loadDirectory (root : Text) (writeable : Bool) : Update Nat :=
  let (count, last, events) := loadEntries parse disk writeable (disk.visit root) w
  ⟨.ok count, last, events ++ [.directoryLoaded (.ofList root) count]⟩

end Workspace
end ElmScope
