import ElmScope.Text.Basic
/-!
# Indented JSON

A document of strings, lists and objects, and how it is written down: two spaces a level, one
item a line, an empty list or object in one piece. Characters are written as they are unless
the format forbids it.
-/
namespace ElmScope

/-- A JSON document. The members of an object keep their order. -/
inductive Json where
  | null
  | string (s : String)
  | list (items : List Json)
  | object (members : List (String × Json))

namespace Json

/-- A value that may be missing. -/
def optional {α : Type} (f : α → Json) : Option α → Json
  | some a => f a
  | none => null

/-- A control character by number: four lower-case hexadecimal digits. -/
def controlEscape (c : Char) : Text :=
  let digits := Nat.toDigits 16 c.toNat
  ['\\', 'u'] ++ List.replicate (4 - digits.length) '0' ++ digits

/-- A character inside a string. -/
def escapeChar (c : Char) : Text :=
  match c with
  | '"' => ['\\', '"']
  | '\\' => ['\\', '\\']
  | '\x08' => ['\\', 'b']
  | '\t' => ['\\', 't']
  | '\n' => ['\\', 'n']
  | '\x0c' => ['\\', 'f']
  | '\r' => ['\\', 'r']
  | c => if c.toNat < 0x20 then controlEscape c else [c]

/-- A string in its quotes. -/
def escape (s : String) : Text := '"' :: s.toList.flatMap escapeChar ++ ['"']

/-- The start of a line `level` levels deep. -/
def newLine (level : Nat) : Text := '\n' :: List.replicate (2 * level) ' '

/-- Items between brackets, one a line, or the brackets alone. -/
def bracket (left right : Char) (level : Nat) (items : List Text) : Text :=
  if items = [] then [left, right]
  else
    left :: List.intercalate [','] (items.map (newLine (level + 1) ++ ·)) ++ newLine level ++ [right]

mutual

/-- A document written `level` levels deep. -/
def write (level : Nat) : Json → Text
  | null => ['n', 'u', 'l', 'l']
  | string s => escape s
  | list items => bracket '[' ']' level (writeItems (level + 1) items)
  | object members => bracket '\x7b' '\x7d' level (writeMembers (level + 1) members)

/-- The items of a list, each one written. -/
def writeItems (level : Nat) : List Json → List Text
  | [] => []
  | item :: items => write level item :: writeItems level items

/-- The members of an object, each one written. -/
def writeMembers (level : Nat) : List (String × Json) → List Text
  | [] => []
  | (key, value) :: members =>
    (escape key ++ ':' :: ' ' :: write level value) :: writeMembers level members

end

/-- A document as text (`to_string_pretty`). -/
def pretty (j : Json) : String := .ofList (j.write 0)

end Json
end ElmScope
