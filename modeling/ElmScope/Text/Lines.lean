import ElmScope.Text.Basic
/-!
# Lines of a text

A line ends after its break, which stays part of it. What ends a line is a parameter:
`linesBy` cuts after every character of a class, except between a carriage return and the
line feed that follows it. Buffers cut after every vertical space (`isLineBreak`); rows of a
syntax tree know the line feed only.

* `flatten_linesBy` — cutting loses nothing
* `linesBy_ne_nil` — there is always a line, the last one possibly empty
-/
namespace ElmScope
namespace Text

/-- The characters after which a buffer starts a new line. -/
def isLineBreak (c : Char) : Bool :=
  c = '\n' || c = '\r' || c = '\x0b' || c = '\x0c' || c = '\u0085' || c = '\u2028' || c = '\u2029'

/-- Put a character in front of the first line. -/
def glue (c : Char) : List Text → List Text
  | [] => [[c]]
  | l :: ls => (c :: l) :: ls

/-- The lines of a text when `brk` says what ends one, each with its break. -/
def linesBy (brk : Char → Bool) : Text → List Text
  | [] => [[]]
  | c :: t =>
    if brk c && !(c = '\r' && t.head? = some '\n') then [c] :: linesBy brk t
    else glue c (linesBy brk t)

/-- The lines of a buffer. -/
def lines (t : Text) : List Text := t.linesBy isLineBreak

/-- A line without the line feeds and carriage returns at its end. Other breaks stay. -/
def trimBreak (line : Text) : Text :=
  (line.reverse.dropWhile fun c => c = '\n' || c = '\r').reverse

/-- The text of line `row` without its line feed and carriage return (`line_text`). -/
def lineText? (t : Text) (row : Nat) : Option Text := t.lines[row]?.map trimBreak

/-! ## Cutting loses nothing -/

@[simp] theorem flatten_glue (c : Char) (ls : List Text) : (glue c ls).flatten = c :: ls.flatten := by
  cases ls <;> simp [glue]

theorem linesBy_ne_nil (brk : Char → Bool) (t : Text) : t.linesBy brk ≠ [] := by
  cases t with
  | nil => simp [linesBy]
  | cons c t => 
    simp only [linesBy]
    split
    · simp
    · cases linesBy brk t <;> simp [glue]

theorem flatten_linesBy (brk : Char → Bool) (t : Text) : (t.linesBy brk).flatten = t := by
  induction t with
  | nil => rfl
  | cons c t ih => simp only [linesBy]; split <;> simp [ih]

end Text
end ElmScope
