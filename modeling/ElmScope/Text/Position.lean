import ElmScope.Text.Lines
/-!
# Places in a text

Three ways to name a place. An *offset* counts bytes from the start. A *position* is what an
editor sends: a line of the buffer and a count of UTF-16 code units in it, both of 32 bits. A
*point* is what a syntax tree reports: a row, counting line feeds only, and a count of bytes since
the last one.

* `offsetOf?` takes a position to its offset; a character past the end of the line stands for
  the end of the line before its break, one inside a surrogate pair for the start of the pair.
* `positionOf` takes an offset to its position, clamped to the end of the text. The line and the
  code units are counted without a bound (`linePlaceOf`) and cut down to 32 bits at the end.
* `pointOf?` names the offset of a position by its buffer line, `pointAt` by its tree row.
  The two agree only where every line break before the place is a line feed.
-/
namespace ElmScope

/-- A place as an editor names it: buffer line and UTF-16 code units, both from zero and of 32
bits. -/
structure Position where
  line : UInt32
  character : UInt32
deriving DecidableEq, Repr

/-- A place as a buffer counts it: the line and the code units before the place in it. -/
structure LinePlace where
  line : Nat
  units : Nat
deriving DecidableEq, Repr

/-- The position of a place. What does not fit into 32 bits wraps around. -/
def LinePlace.toPosition (p : LinePlace) : Position := ⟨.ofNat p.line, .ofNat p.units⟩

/-- A place as a syntax tree names it: row and byte column, both from zero. -/
structure Point where
  row : Nat
  column : Nat
deriving DecidableEq, Repr

namespace Point

/-- A point as a log shows it. -/
def describe (p : Point) : String := "(" ++ toString p.row ++ ", " ++ toString p.column ++ ")"

/-- Points are ordered by row, then by column. -/
instance : LT Point := ⟨fun a b => a.row < b.row ∨ a.row = b.row ∧ a.column < b.column⟩

instance : LE Point := ⟨fun a b => a.row < b.row ∨ a.row = b.row ∧ a.column ≤ b.column⟩

instance (a b : Point) : Decidable (a < b) :=
  inferInstanceAs (Decidable (a.row < b.row ∨ a.row = b.row ∧ a.column < b.column))

instance (a b : Point) : Decidable (a ≤ b) :=
  inferInstanceAs (Decidable (a.row < b.row ∨ a.row = b.row ∧ a.column ≤ b.column))

theorem lt_def {a b : Point} : a < b ↔ a.row < b.row ∨ a.row = b.row ∧ a.column < b.column := Iff.rfl

theorem le_def {a b : Point} : a ≤ b ↔ a.row < b.row ∨ a.row = b.row ∧ a.column ≤ b.column := Iff.rfl

theorem not_le {a b : Point} : ¬ a ≤ b ↔ b < a := by rw [le_def, lt_def]; omega

theorem not_lt {a b : Point} : ¬ a < b ↔ b ≤ a := by rw [le_def, lt_def]; omega

end Point

namespace Text

/-- The byte at which buffer line `row` starts. -/
def lineStart (t : Text) (row : Nat) : Nat := byteLength (t.lines.take row).flatten

/-- How many bytes of a line stand before code unit `character` of it. -/
def columnOf (line : Text) (character : Nat) : Nat :=
  let body := trimBreak line
  byteLength (body.take (body.indexAt unitSize (min character body.unitLength)))

/-- The offset of the place behind some code units of a line; none when the buffer has no such
line. -/
def offsetAt? (t : Text) (row units : Nat) : Option Nat :=
  t.lines[row]?.map fun line => t.lineStart row + columnOf line units

/-- The offset of a position (`offset_from_position`). -/
def offsetOf? (t : Text) (p : Position) : Option Nat :=
  t.offsetAt? p.line.toNat p.character.toNat

/-- The point of a position, its row being the line of the buffer (`point_from_position`). -/
def pointOf? (t : Text) (p : Position) : Option Point :=
  t.lines[p.line.toNat]?.map fun line => ⟨p.line.toNat, columnOf line p.character.toNat⟩

/-- The line that holds character `k` of their concatenation, and the code units before it
there. The place past the last character belongs to the last line. -/
def locate : List Text → Nat → LinePlace
  | [], _ => ⟨0, 0⟩
  | [line], k => ⟨0, unitLength (line.take k)⟩
  | line :: lines, k =>
    if k < line.length then ⟨0, unitLength (line.take k)⟩
    else
      let p := locate lines (k - line.length)
      ⟨p.line + 1, p.units⟩

/-- The line of an offset, and the code units before it there. Past the end it is the end; inside
a character its start. -/
def linePlaceOf (t : Text) (offset : Nat) : LinePlace :=
  locate t.lines (t.indexAt Char.utf8Size (min offset t.byteLength))

/-- The position of an offset (`position_from_offset`). -/
def positionOf (t : Text) (offset : Nat) : Position := (t.linePlaceOf offset).toPosition

/-- The point of an offset: the line feeds before it and the bytes since the last of them. -/
def pointAt : Text → Nat → Point
  | [], _ => ⟨0, 0⟩
  | c :: t, n =>
    if n < c.utf8Size then ⟨0, n⟩
    else
      let p := pointAt t (n - c.utf8Size)
      if c = '\n' then ⟨p.row + 1, p.column⟩
      else if p.row = 0 then ⟨0, c.utf8Size + p.column⟩
      else p

end Text
end ElmScope
