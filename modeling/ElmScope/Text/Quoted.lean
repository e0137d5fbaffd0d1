import ElmScope.Text.Hidden
import ElmScope.Text.Basic
/-!
# Quoted text

A text between double quotes, as a log shows it: quotes and backslashes are escaped, common
controls have a letter, and characters without a shape of their own are written by number.
-/
namespace ElmScope
namespace Text

/-- A character by number: lower-case hexadecimal digits in braces. -/
def byNumber (c : Char) : Text :=
  ['\\', 'u', '\x7b'] ++ Nat.toDigits 16 c.toNat ++ ['\x7d']

/-- A character inside quotes. -/
def quoteChar (c : Char) : Text :=
  match c with
  | '"' => ['\\', '"']
  | '\\' => ['\\', '\\']
  | '\n' => ['\\', 'n']
  | '\r' => ['\\', 'r']
  | '\t' => ['\\', 't']
  | '\x00' => ['\\', '0']
  | c => if isHidden c then byNumber c else [c]

/-- A text inside quotes. -/
def quote (t : Text) : Text := '"' :: t.flatMap quoteChar ++ ['"']

end Text

/-- A string inside quotes. -/
def quoted (s : String) : String := .ofList (Text.quote s.toList)

end ElmScope
