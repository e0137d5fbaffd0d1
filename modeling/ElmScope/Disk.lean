import ElmScope.Path
import ElmScope.Text.Utf8
/-!
# Disks

A snapshot of a file system: what stands at which place, and the working directory of the program.
A place is the list of names from the root to it. The directories above a place are there too; one
that holds nothing, or that cannot be listed, has an entry of its own. Opening or reading a file may
fail, and so may listing a directory, each with the words of the system.

A path is followed name by name, from the root or from the working directory. Each name, also an
idle one, asks that the place so far is a directory; that is why a slash after a file fails.
-/
namespace ElmScope

/-- Why a path could not be read. -/
inductive DiskFault where
  | notFound
  | notADirectory
  | isADirectory
  | notUtf8
  | hasNul
  /-- The system fails to open or to read what is there, for a reason of its own. -/
  | refused (message : String)
deriving DecidableEq, Repr

/-- The wording of a fault. -/
def DiskFault.message : DiskFault → String
  | notFound => "No such file or directory (os error 2)"
  | notADirectory => "Not a directory (os error 20)"
  | isADirectory => "Is a directory (os error 21)"
  | notUtf8 => "stream contained invalid UTF-8"
  | hasNul => "file name contained an unexpected NUL byte"
  | refused message => message

/-- A place on a disk: the names from the root to it. -/
abbrev Place := List Text

/-- What stands at a place: a file with its octets, or with what reading it fails with, or a
directory, with what listing it fails with, if it does. -/
inductive DiskNode where
  | file (content : Except String Octets)
  | directory (failure? : Option String)

/-- What stands on a disk, in the order in which directories are listed, and the working directory.
There is none if it was removed. -/
structure Disk where
  nodes : List (Place × DiskNode)
  workingDirectory : Option Place

/-- What a visit of a directory comes across: a file, or something that could not be visited. -/
inductive DiskEntry where
  | file (path : Text)
  | fault (path : Text) (fault : DiskFault)

/-- The octets of a file, if that is what stands there, or what reading it fails with. -/
def DiskNode.content? : DiskNode → Option (Except String Octets)
  | file content => some content
  | directory _ => none

/-- Whether a visit ends at what stands there: at a file, and at a directory that cannot be
listed. -/
def DiskNode.isSealed : DiskNode → Bool
  | file _ | directory (some _) => true
  | directory none => false

/-- What a visit comes across at a path; nothing to tell of a directory that can be listed. -/
def DiskNode.entry? (path : Text) : DiskNode → Option DiskEntry
  | file _ => some (.file path)
  | directory failure? => failure?.map fun message => .fault path (.refused message)

namespace Disk

/-- The disk without files. -/
def empty : Disk := ⟨[], none⟩

variable (disk : Disk)

/-- What stands at a place, directories that only lie above something aside. -/
def node? (place : Place) : Option DiskNode := (disk.nodes.find? (·.1 = place)).map (·.2)

/-- The octets of the file at a place, or what reading it fails with. -/
def file? (place : Place) : Option (Except String Octets) := (disk.node? place).bind DiskNode.content?

/-- Whether a place is a directory: the root, one with an entry of its own, or one with something
in it. -/
def isDirectory (place : Place) : Bool :=
  place = [] || disk.nodes.any fun (p, node) =>
    place.isPrefixOf p && (p ≠ place || node.content?.isNone)

/-- Go from a directory by one component of a path. -/
def enter (place : Place) (component : Text) : Except DiskFault Place :=
  if !disk.isDirectory place then .error .notADirectory
  else if !Path.isStep component then .ok place
  else if component = ['.', '.'] then .ok place.dropLast
  else
    let next := place ++ [component]
    if disk.isDirectory next || (disk.file? next).isSome then .ok next else .error .notFound

/-- Where a path starts: at the root, or at the working directory. The empty path starts nowhere. -/
def startOf? (path : Text) : Option Place :=
  if Path.isAbsolute path then some []
  else if path = [] then none
  else disk.workingDirectory

/-- The place a path leads to. -/
def locate (path : Text) : Except DiskFault Place :=
  if path.contains '\x00' then .error .hasNul
  else
    match disk.startOf? path with
    | some place => (Path.components path).foldlM disk.enter place
    | none => .error .notFound

/-- The octets of the file at a path. -/
def read (path : Text) : Except DiskFault Octets := do
  let place ← disk.locate path
  match disk.node? place with
  | some (.file content) => content.mapError .refused
  | some (.directory (some message)) => .error (.refused message)
  | _ => .error .isADirectory

/-- The text of the file at a path (`read_path`). -/
def readText (path : Text) : Except DiskFault Text := do
  match Text.decode? (← disk.read path) with
  | some text => .ok text
  | none => .error .notUtf8

/-- Whether a visit of one place gets to another: the other is at it or below it, and every
directory from the one on down to the other can be listed. -/
def reaches (place target : Place) : Bool :=
  place.isPrefixOf target && !disk.nodes.any fun (p, node) =>
    node.isSealed && place.isPrefixOf p && p.isPrefixOf target && p ≠ target

/-- What a visit of a path comes across, each with a path written from that path on (`WalkDir`). A
directory that cannot be listed is come across, but nothing below it. -/
def visit (path : Text) : List DiskEntry :=
  match disk.locate path with
  | .error fault => [.fault path fault]
  | .ok place =>
    disk.nodes.filterMap fun (p, node) =>
      if disk.reaches place p then node.entry? ((p.drop place.length).foldl Path.join path)
      else none

end Disk
end ElmScope
