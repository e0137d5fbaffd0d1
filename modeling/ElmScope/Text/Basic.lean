/-!
# Text and its units

A text is a list of characters. A place in it can be counted in characters, in bytes
(UTF-8) or in code units (UTF-16); the last two differ from the first only in how much
each character weighs. `width` measures a text under such a weight and `indexAt` goes
back from a measure to the character that holds it.

Two readers work on characters alone: `pieces` cuts a text at every occurrence of one, and
`natural?` reads a decimal number.

* `width_append` — the measure of two pieces is the sum of their measures
* `width_take_indexAt_le` — the character found starts no later than asked
* `intercalate_pieces` — cutting at a character loses nothing but the character
-/
namespace ElmScope

/-- A text: its characters in order. -/
abbrev Text := List Char

namespace Text

/-- Code units of a character in UTF-16: two beyond the basic plane. -/
def unitSize (c : Char) : Nat := if c.val < 0x10000 then 1 else 2

/-- The measure of a text when each character `c` weighs `w c`. -/
def width (w : Char → Nat) (t : Text) : Nat := t.foldr (fun c n => w c + n) 0

/-- The index of the character that holds unit `n`, the first when `n` is inside it.
At or past the end it is the length. -/
def indexAt (w : Char → Nat) : Text → Nat → Nat
  | [], _ => 0
  | c :: t, n => if n < w c then 0 else indexAt w t (n - w c) + 1

/-- Length in bytes. -/
def byteLength (t : Text) : Nat := t.width Char.utf8Size

/-- Length in UTF-16 code units. -/
def unitLength (t : Text) : Nat := t.width unitSize

/-- The part from byte `start` to byte `stop`. A bound inside a character is moved to
the start of that character, one past the end to the end. -/
def slice (t : Text) (start stop : Nat) : Text :=
  (t.take (t.indexAt Char.utf8Size stop)).drop (t.indexAt Char.utf8Size start)

/-- The character that ends exactly at byte `n`. -/
def charEndingAt? : Text → Nat → Option Char
  | [], _ => none
  | c :: t, n =>
    if n = c.utf8Size then some c
    else if n < c.utf8Size then none
    else charEndingAt? t (n - c.utf8Size)

/-- The pieces of a text between the occurrences of a character, empty ones included. -/
def pieces (sep : Char) : Text → List Text
  | [] => [[]]
  | c :: t =>
    if c = sep then [] :: pieces sep t
    else
      match pieces sep t with
      | [] => [[c]]
      | p :: ps => (c :: p) :: ps

/-- The number that a text of decimal digits writes. -/
def natural? (t : Text) : Option Nat :=
  if t ≠ [] ∧ t.all Char.isDigit then
    some (t.foldl (fun n c => n * 10 + (c.toNat - '0'.toNat)) 0)
  else none

/-! ## Measures -/

@[simp] theorem width_nil (w : Char → Nat) : width w [] = 0 := rfl

@[simp] theorem width_cons (w : Char → Nat) (c : Char) (t : Text) :
    width w (c :: t) = w c + width w t := rfl

@[simp] theorem width_append (w : Char → Nat) (s t : Text) :
    width w (s ++ t) = width w s + width w t := by
  induction s with
  | nil => simp
  | cons c s ih => simp [ih, Nat.add_assoc]

theorem indexAt_le_length (w : Char → Nat) (t : Text) (n : Nat) : t.indexAt w n ≤ t.length := by
  fun_induction indexAt w t n <;> simp_all

theorem width_take_indexAt_le (w : Char → Nat) (t : Text) (n : Nat) :
    width w (t.take (t.indexAt w n)) ≤ n := by
  fun_induction indexAt w t n with
  | case1 => simp
  | case2 => simp
  | case3 c t n h ih => simp only [List.take_succ_cons, width_cons]; omega

/-! ## Pieces -/

theorem pieces_ne_nil (sep : Char) (t : Text) : t.pieces sep ≠ [] := by
  fun_cases pieces sep t <;> simp

theorem intercalate_pieces (sep : Char) (t : Text) : List.intercalate [sep] (t.pieces sep) = t := by
  induction t with
  | nil => rfl
  | cons c t ih =>
    have hne := pieces_ne_nil sep t
    by_cases h : c = sep
    · cases hp : pieces sep t with
      | nil => exact absurd hp hne
      | cons p ps => simp_all [pieces, List.intercalate]
    · cases hp : pieces sep t with
      | nil => exact absurd hp hne
      | cons p ps => cases ps <;> simp_all [pieces, List.intercalate]

end Text
end ElmScope
