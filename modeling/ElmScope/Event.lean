import ElmScope.Failure
import ElmScope.Reference
/-!
# Events

What the library reports while it works. Operations answer their events along with their
result, in the order in which they happened; nothing is written anywhere. An event knows its
level, the part of the library it comes from, a message, and fields by name.
-/
namespace ElmScope

/-- How much an event matters. -/
inductive Level where
  | warn
  | info
  | debug
  | trace
deriving DecidableEq, Repr

/-- The written name of a level. -/
def Level.name : Level → String
  | warn => "WARN"
  | info => "INFO"
  | debug => "DEBUG"
  | trace => "TRACE"

/-- The part of the library an event comes from. -/
inductive Topic where
  /-- Trees and the modules they declare. -/
  | trees
  /-- Texts that come from editors and disk. -/
  | documents
  /-- Looking for definitions. -/
  | definitions
  /-- Looking up references. -/
  | references
deriving DecidableEq, Repr

/-- Something that happened. -/
inductive Event where
  | treeInstalled (file : FileId) (moduleName? : Option String) (imports : Nat)
  | documentOpened (file : FileId)
  | documentClosed (file : FileId)
  | unknownDocumentClosed (file : FileId)
  | unknownDocumentChanged (file : FileId)
  | documentReparsed (file : FileId) (version : Int) (changes : Nat)
  | entrySkipped (path : String) (cause : String)
  | fileSkipped (path : String) (failure : Failure)
  | directoryLoaded (root : String) (files : Nat)
  | definitionRequested (file : FileId) (position : Position) (kind : String)
  | definitionNotFound (file : FileId) (kind : String)
  | referenceUnresolved (file : FileId) (reference : Reference)
deriving DecidableEq, Repr

namespace Event

/-- How much an event matters. -/
def level : Event → Level
  | documentOpened .. | documentClosed .. | directoryLoaded .. => .info
  | entrySkipped .. | fileSkipped .. => .warn
  | definitionNotFound .. | referenceUnresolved .. => .trace
  | _ => .debug

/-- Where an event comes from. -/
def topic : Event → Topic
  | treeInstalled .. => .trees
  | definitionRequested .. | definitionNotFound .. => .definitions
  | referenceUnresolved .. => .references
  | _ => .documents

/-- The message of an event. -/
def message : Event → String
  | treeInstalled .. => "Installing tree"
  | documentOpened .. => "Document opened"
  | documentClosed .. => "Document closed"
  | unknownDocumentClosed .. => "Closed a document that was never loaded"
  | unknownDocumentChanged .. => "Change for unknown document, reading from disk"
  | documentReparsed .. => "Document reparsed"
  | entrySkipped .. => "Skipping unreadable directory entry"
  | fileSkipped .. => "Skipping file"
  | directoryLoaded .. => "Loaded directory"
  | definitionRequested .. => "Definition request"
  | definitionNotFound .. => "No definition found"
  | referenceUnresolved .. => "Reference not resolved"

/-- The fields of an event, in their order. -/
def fields : Event → List (String × String)
  | treeInstalled file name? imports =>
    [("uri", file.uri), ("module", name?.getD "<none>"), ("imports", toString imports)]
  | documentOpened file | documentClosed file | unknownDocumentClosed file
  | unknownDocumentChanged file => [("uri", file.uri)]
  | documentReparsed file version changes =>
    [("uri", file.uri), ("version", toString version), ("changes", toString changes)]
  | entrySkipped path cause => [("error", "IO error for operation on " ++ path ++ ": " ++ cause)]
  | fileSkipped path failure => [("path", path), ("error", failure.message)]
  | directoryLoaded root files => [("root", root), ("loaded", toString files)]
  | definitionRequested file position kind =>
    [("uri", file.uri), ("line", toString position.line), ("character", toString position.character),
      ("kind", kind)]
  | definitionNotFound file kind => [("uri", file.uri), ("kind", kind)]
  | referenceUnresolved file reference =>
    [("uri", file.uri), ("reference", reference.describe)]

end Event
end ElmScope
