import ElmScope.Text.Basic
/-!
# Paths

A path is a text cut by slashes. `components` cuts it; empty components and single dots say
nothing, a double dot is kept because only the file system knows what it leads to. A path that does
not start at the root starts at the working directory.
-/
namespace ElmScope
namespace Path

/-- The pieces of a path between its slashes, empty ones included. -/
def components (t : Text) : List Text := t.pieces '/'

/-- Whether a component says where to go: neither empty nor a single dot. -/
def isStep (p : Text) : Bool := p ≠ [] && p ≠ ['.']

/-- Whether a path starts at the root. -/
def isAbsolute (t : Text) : Bool := t.head? = some '/'

/-- The leading slashes that are kept: exactly two stay two, any other number is one. -/
def rootSlashes : Text → Text
  | '/' :: '/' :: '/' :: _ => ['/']
  | '/' :: '/' :: _ => ['/', '/']
  | _ => ['/']

/-- An absolute path without the components that say nothing. A slash at the end is kept,
for it asks for a directory. -/
def normalize (t : Text) : Text :=
  let steps := (components t).filter isStep
  let body := List.intercalate ['/'] steps
  let tail := if t.getLast? = some '/' ∧ steps ≠ [] then ['/'] else []
  rootSlashes t ++ body ++ tail

/-- A path made absolute: its normal form, or that of the path from the working directory on
(`absolute`). There is none for the empty path, nor for one from a working directory that cannot be
told. -/
def absolute? (workingDirectory : Option (List Text)) (t : Text) : Option Text :=
  if isAbsolute t then some (normalize t)
  else if t = [] then none
  else workingDirectory.map fun names => normalize ('/' :: List.intercalate ['/'] (names ++ [t]))

/-- A path inside a directory. -/
def join (directory name : Text) : Text :=
  if directory.getLast? = some '/' then directory ++ name else directory ++ '/' :: name

/-- The last component. -/
def fileName (t : Text) : Text := (components t).getLast?.getD []

/-- What follows the last dot of the file name, unless the name starts with that dot or is
a double dot. -/
def extension? (t : Text) : Option Text :=
  let name := fileName t
  if name = ['.', '.'] then none
  else
    let tail := name.reverse.takeWhile (· ≠ '.')
    if tail.length + 1 < name.length then some tail.reverse else none

end Path
end ElmScope
