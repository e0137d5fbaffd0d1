import ElmScope.Path
import ElmScope.FileId.Uri
import ElmScope.Text.Quoted
/-!
# File identities

A file is known by its `file://` URI. A path from the file system and a URI from an editor
lead to the same identity: both go through the path, which is made absolute, free of idle
components, and coded again. A URI that names no absolute path is kept as it stands.
-/
namespace ElmScope

/-- The identity of a source file. -/
structure FileId where
  uri : String
deriving DecidableEq, Repr

namespace FileId

/-- An identity as a log shows it. -/
def describe (file : FileId) : String := "FileId(" ++ quoted file.uri ++ ")"

/-- What the URI of a file starts with. -/
def scheme : Text := ['f', 'i', 'l', 'e', ':', '/', '/']

/-- The identity of the file at a path (`FileId::from_path`). A path that cannot be made absolute is
set below the root as it stands. -/
def ofPath (workingDirectory : Option (List Text)) (path : Text) : FileId :=
  let coded := Percent.encode ((Path.absolute? workingDirectory path).getD path)
  ⟨.ofList (scheme ++ if Path.isAbsolute coded then coded else '/' :: coded)⟩

/-- The path of an identity; none when its URI has another scheme (`to_path`). -/
def path? (file : FileId) : Option Text :=
  let t := file.uri.toList
  if scheme.isPrefixOf t then some (Percent.decode (t.drop scheme.length)) else none

/-- The identity an editor's URI stands for (`FileId::from`). An absolute path needs no working
directory. -/
def ofUri (uri : String) : FileId :=
  match (⟨uri⟩ : FileId).path? with
  | some path => if Path.isAbsolute path then ofPath none path else ⟨uri⟩
  | none => ⟨uri⟩

end FileId
end ElmScope
