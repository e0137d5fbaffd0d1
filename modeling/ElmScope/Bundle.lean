import ElmScope.Disk
import ElmScope.FileId.Percent
import ElmScope.Tree.Basic
/-!
# Bundles

A bundle is a disk together with the syntax trees of its files, written as lines. A line is a
word and its parts with one space between them:

* `working PATH` — the working directory
* `directory PATH` — a directory, which may be empty
* `locked PATH` — a file or a directory that may not be read
* `file PATH` — a file without content; the lines below add to the last file
* `octets HEX` — content, two hexadecimal digits an octet
* `node PARENT START STOP NAMED ROLE KIND` — the next node of the tree, in the order of the
  numbers; `NAMED` is `1` for a named node, a dash stands for no parent and for no role
* `link NAME NODE TARGET` — a link against the shape of the tree, a dash for one that leads
  nowhere

A parser is any function from texts to trees. That of a bundle knows the files of the bundle
and takes every other text for one in which nothing was recognised.
-/
namespace ElmScope

/-- A file of a bundle and its tree, as far as they have been read. -/
structure BundledFile where
  place : Place
  octets : Octets
  nodes : Array TreeNode
  irregular : List (Link × Nat × Option Nat)

/-- A disk and the trees of its files, the last file first. -/
structure Bundle where
  files : List BundledFile
  directories : List Place
  locked : List Place
  workingDirectory : Option Place

namespace Bundle

/-- The bundle without files. -/
def empty : Bundle := ⟨[], [], [], none⟩

/-! ## Reading -/

/-- The octets that pairs of hexadecimal digits write. -/
def octetsOf? : List Char → Option Octets
  | [] => some []
  | [_] => none
  | a :: b :: t => do
    let high ← Percent.hexValue? a
    let low ← Percent.hexValue? b
    return .ofNat (high * 16 + low) :: (← octetsOf? t)

/-- The number a part writes. -/
def numberOf? (part : String) : Option Nat := Text.natural? part.toList

/-- A part that a dash may stand for. -/
def dashOr? {α : Type} (read? : String → Option α) (part : String) : Option (Option α) :=
  if part = "-" then some none else (read? part).map some

/-- The node that the parts of a `node` line write. -/
def nodeOf? : List String → Option TreeNode
  | [parent, start, stop, named, role, kind] => do
    let parent ← dashOr? numberOf? parent
    let start ← numberOf? start
    let stop ← numberOf? stop
    let role ← dashOr? some role
    return ⟨kind, named = "1", role, .ofNat start, .ofNat stop, parent⟩
  | _ => none

/-- The link of a name. A name that is none of the directions is a role. -/
def linkOf : String → Link
  | "next_sibling" => .nextSibling
  | "prev_sibling" => .prevSibling
  | "prev_named_sibling" => .prevNamedSibling
  | "parent" => .parent
  | role => .field role

/-- Change the last file. There has to be one. -/
def amend? (b : Bundle) (change : BundledFile → BundledFile) : Option Bundle :=
  match b.files with
  | [] => none
  | file :: files => some { b with files := change file :: files }

/-- The place of an absolute path. -/
def placeOf (parts : List String) : Place :=
  (Path.components (" ".intercalate parts).toList).filter Path.isStep

/-- Read one more line. -/
def readLine? (b : Bundle) (line : String) : Option Bundle :=
  match line.splitOn " " with
  | "working" :: path => some { b with workingDirectory := some (placeOf path) }
  | "directory" :: path => some { b with directories := placeOf path :: b.directories }
  | "locked" :: path => some { b with locked := placeOf path :: b.locked }
  | "file" :: path => some { b with files := ⟨placeOf path, [], #[], []⟩ :: b.files }
  | ["octets", digits] => do
    let octets ← octetsOf? digits.toList
    b.amend? fun file => { file with octets := file.octets ++ octets }
  | "node" :: parts => do
    let node ← nodeOf? parts
    b.amend? fun file => { file with nodes := file.nodes.push node }
  | ["link", name, node, target] => do
    let node ← numberOf? node
    let target ← dashOr? numberOf? target
    b.amend? fun file => { file with irregular := file.irregular ++ [(linkOf name, node, target)] }
  | _ => none

/-- The bundle that some lines write, or the number of the first line that cannot be read. -/
def ofLines (lines : List String) : Except Nat Bundle :=
  (lines.zipIdx 1).foldlM (fun b (line, n) => (b.readLine? line).elim (.error n) .ok) empty

/-! ## Using -/

variable (b : Bundle)

/-- What the system says about a place that may not be read. -/
def denied : String := "Permission denied (os error 13)"

/-- What stands at the place of a file. -/
def nodeAt (file : BundledFile) : DiskNode :=
  .file (if b.locked.contains file.place then .error denied else .ok file.octets)

/-- The disk of a bundle. -/
def disk : Disk where
  nodes :=
    b.files.reverse.map (fun file => (file.place, b.nodeAt file))
      ++ (b.locked.filter fun place => !b.files.any (·.place = place)).map
        (·, .directory (some denied))
      ++ (b.directories.filter fun place => !b.locked.contains place).map (·, .directory none)
  workingDirectory := b.workingDirectory

/-- The tree of a text: that of the first file with this content. -/
def parse (text : Text) : Tree :=
  let octets := Text.encode text
  ((b.files.reverse.find? fun file => file.octets = octets).bind fun file =>
    Tree.ofNodes? file.nodes file.irregular).getD (Tree.bare octets.length)

end Bundle
end ElmScope
