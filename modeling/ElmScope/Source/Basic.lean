import ElmScope.FileId.Basic
import ElmScope.Text.Position
import ElmScope.Tree.Navigation
/-!
# Source files

A source file: its identity, its text, the syntax tree of that text, and whether the file
belongs to the project (writeable) or to a dependency. It never changes; an edit makes
another one.

A draft is a text one can ask about without installing it. It may have the identity and even
the text of a file of the workspace, and yet its nodes are nodes of a tree of its own.
-/
namespace ElmScope

/-- A parsed file (`SourceTree`). -/
structure Source where
  file : FileId
  text : Text
  tree : Tree
  writeable : Bool
  /-- Whether the source stands beside the workspace. -/
  isDraft : Bool
deriving DecidableEq

namespace Source

variable (s : Source)

/-- The text a node covers (`text_of`). -/
def textOf (n : Nat) : String := .ofList (s.text.slice (s.tree.start n) (s.tree.stop n))

/-- Where a node starts. -/
def startPoint (n : Nat) : Point := s.text.pointAt (s.tree.start n)

/-- Where a node ends. -/
def stopPoint (n : Nat) : Point := s.text.pointAt (s.tree.stop n)

/-- A source as a log shows it: without its text. -/
def describe : String :=
  "SourceTree \x7b file: " ++ s.file.describe ++ ", writeable: " ++ toString s.writeable
    ++ ", len_bytes: " ++ toString s.text.byteLength ++ " \x7d"

/-- A node as a log shows it: its kind and where it stands. -/
def describeNode (n : Nat) : String :=
  "\x7bNode " ++ s.tree.kind n ++ " " ++ (s.startPoint n).describe ++ " - "
    ++ (s.stopPoint n).describe ++ "\x7d"

end Source
end ElmScope
