import ElmScope.Text.Position
/-!
# Edits

What an editor reports when a document changes: a new text for the whole document, or for a
range of it. A range is good when its lines exist and it does not end before it starts. The
edits of one report apply one after the other, each to the text the one before it left.
-/
namespace ElmScope

/-- A range between two places, as an editor names it. -/
structure Range where
  start : Position
  stop : Position
deriving DecidableEq, Repr

/-- New text for a range, or for everything. -/
structure Edit where
  range? : Option Range
  text : Text
deriving DecidableEq, Repr

namespace Text

/-- Replace the characters between two offsets. -/
def splice (t : Text) (start stop : Nat) (new : Text) : Text :=
  t.take (t.indexAt Char.utf8Size start) ++ new ++ t.drop (t.indexAt Char.utf8Size stop)

/-- The offsets of a range, if it is a range of the text (part of `apply_change`). -/
def offsetsOf? (t : Text) (r : Range) : Option (Nat × Nat) :=
  match t.offsetOf? r.start, t.offsetOf? r.stop with
  | some start, some stop => if start ≤ stop then some (start, stop) else none
  | _, _ => none

/-- The text after an edit; none when the range is not one of the text (`apply_change`). -/
def edit? (t : Text) (e : Edit) : Option Text :=
  match e.range? with
  | none => some e.text
  | some r => (t.offsetsOf? r).map fun (start, stop) => t.splice start stop e.text

/-- The text after some edits in turn; none as soon as one does not apply (part of `did_change`). -/
def editAll? (t : Text) (edits : List Edit) : Option Text := edits.foldlM edit? t

end Text
end ElmScope
