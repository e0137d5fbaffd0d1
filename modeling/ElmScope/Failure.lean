import ElmScope.FileId.Basic
/-!
# Failures

What can fail is reading, editing and writing; a name or a node that is not there is an
ordinary absence. A failure says its cause, its wording is in `message`.
-/
namespace ElmScope

/-- Why an operation failed (`AnalysisError`). -/
inductive Failure where
  /-- A path could not be read. -/
  | unreadable (path : String) (cause : String)
  /-- An identity that stands for no path. -/
  | notAFile (file : FileId)
  /-- A text the parser gave up on. -/
  | unparsed (file : FileId)
  /-- An edit whose range is not one of the text. -/
  | invalidRange (file : FileId)
  /-- An answer that could not be written down. -/
  | unwritable (cause : String)
deriving DecidableEq, Repr

namespace Failure

/-- The wording of a failure. -/
def message : Failure → String
  | unreadable path cause => "Failed to read " ++ path ++ ": " ++ cause
  | notAFile file => "Not a file URI: " ++ file.uri
  | unparsed file => "Failed to parse " ++ file.uri
  | invalidRange file => "Invalid edit range in " ++ file.uri
  | unwritable cause => "Failed to serialize output: " ++ cause

/-- What a failure goes back to, where something else failed first. -/
def cause? : Failure → Option String
  | unreadable _ cause => some cause
  | unwritable cause => some cause
  | _ => none

end Failure
end ElmScope
