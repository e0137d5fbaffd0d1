import ElmScope.Proofs.Text.Rows
/-!
# The place after a character

An offset names the character that ends at it or before it, and a position names one too. For a
character that is no line break the two go through the same line: it holds the character, and what
stands before the character in the line is all that lies between the start of the line and the
character.

* `indexAt_mono`, `pointAt_mono`, `pointAt_lt` — later offsets are later characters and later points
* `pointAt_append_char` — the points before and after a character
* `addressable_of_lt` — positions name every place in the first four gigabytes
* `exists_line_of_char` — the line a character stands in
* `place_after` — the position after a character, its point and its offset
* `point_after` — its point in the tree, where lines are rows
* `exists_char_of_slice` — the character before a place in a part of a text
-/
namespace ElmScope

theorem Point.le_trans {a b c : Point} (hab : a ≤ b) (hbc : b ≤ c) : a ≤ c := by
  rw [Point.le_def] at hab hbc ⊢
  omega

theorem Point.le_of_lt {a b : Point} (hab : a < b) : a ≤ b := by
  rw [Point.lt_def] at hab
  rw [Point.le_def]
  omega

theorem Point.lt_of_le_of_lt {a b c : Point} (hab : a ≤ b) (hbc : b < c) : a < c := by
  rw [Point.le_def] at hab
  rw [Point.lt_def] at hbc ⊢
  omega

theorem Point.lt_of_lt_of_le {a b c : Point} (hab : a < b) (hbc : b ≤ c) : a < c := by
  rw [Point.lt_def] at hab ⊢
  rw [Point.le_def] at hbc
  omega

namespace Text

variable {t a b y z : Text} {c : Char} {m n o : Nat} {w : Char → Nat}

/-! ## Offsets in order -/

theorem indexAt_mono (w : Char → Nat) (t : Text) (h : m ≤ n) : t.indexAt w m ≤ t.indexAt w n := by
  induction t generalizing m n with
  | nil => exact Nat.le_refl 0
  | cons c t ih =>
    simp only [indexAt]
    split
    · exact Nat.zero_le _
    · rw [if_neg (by omega)]
      exact Nat.succ_le_succ (ih (Nat.sub_le_sub_right h _))

/-- The character an offset names has not ended before the offset. -/
theorem lt_width_take_indexAt (h : t.indexAt w n < t.length) :
    n < width w (t.take (t.indexAt w n + 1)) := by
  induction t generalizing n with
  | nil => exact absurd h (Nat.not_lt_zero _)
  | cons c t ih =>
    simp only [indexAt] at h ⊢
    split at h
    · next hc => simp [hc]
    · next hc =>
      rw [if_neg hc, List.take_succ_cons, width_cons]
      have := ih (Nat.lt_of_succ_lt_succ h)
      omega

theorem width_take_mono (w : Char → Nat) (t : Text) (h : m ≤ n) :
    width w (t.take m) ≤ width w (t.take n) := by
  obtain ⟨tail, htail⟩ := List.take_prefix_take_left (l := t) h
  rw [← htail, width_append]
  exact Nat.le_add_right _ _

theorem pointAt_mono (t : Text) (h : m ≤ n) : t.pointAt m ≤ t.pointAt n := by
  induction t generalizing m n with
  | nil => exact Point.le_def.2 (.inr ⟨rfl, Nat.le_refl 0⟩)
  | cons c t ih =>
    by_cases hn : n < c.utf8Size
    · rw [pointAt, pointAt, if_pos hn, if_pos (Nat.lt_of_le_of_lt h hn)]
      exact Point.le_def.2 (.inr ⟨rfl, h⟩)
    · obtain ⟨n, rfl⟩ := Nat.exists_eq_add_of_le (Nat.le_of_not_lt hn)
      rw [pointAt_cons_add]
      by_cases hm : m < c.utf8Size
      · rw [pointAt, if_pos hm, Point.le_def]
        split
        · exact .inl (Nat.succ_pos _)
        · split
          · exact .inr ⟨rfl, Nat.le_add_right_of_le (Nat.le_of_lt hm)⟩
          · exact .inl (Nat.pos_of_ne_zero ‹_›)
      · obtain ⟨m, rfl⟩ := Nat.exists_eq_add_of_le (Nat.le_of_not_lt hm)
        have hrest := Point.le_def.1 (ih (Nat.le_of_add_le_add_left h))
        rw [pointAt_cons_add, Point.le_def]
        simp only [apply_ite Point.row, apply_ite Point.column]
        grind

/-- Within the text, later offsets are later points. -/
theorem pointAt_lt (t : Text) (h : m < n) (hn : n ≤ t.byteLength) : t.pointAt m < t.pointAt n := by
  induction t generalizing m n with
  | nil => exact absurd (Nat.lt_of_lt_of_le h hn) (Nat.not_lt_zero m)
  | cons c t ih =>
    by_cases hfirst : n < c.utf8Size
    · rw [pointAt, pointAt, if_pos hfirst, if_pos (Nat.lt_trans h hfirst)]
      exact Point.lt_def.2 (.inr ⟨rfl, h⟩)
    · obtain ⟨n, rfl⟩ := Nat.exists_eq_add_of_le (Nat.le_of_not_lt hfirst)
      rw [pointAt_cons_add]
      by_cases hm : m < c.utf8Size
      · rw [pointAt, if_pos hm, Point.lt_def]
        split
        · exact .inl (Nat.succ_pos _)
        · split
          · exact .inr ⟨rfl, Nat.lt_add_right _ hm⟩
          · exact .inl (Nat.pos_of_ne_zero ‹_›)
      · obtain ⟨m, rfl⟩ := Nat.exists_eq_add_of_le (Nat.le_of_not_lt hm)
        have hrest := Point.lt_def.1
          (ih (Nat.lt_of_add_lt_add_left h) (Nat.le_of_add_le_add_left hn))
        rw [pointAt_cons_add, Point.lt_def]
        simp only [apply_ite Point.row, apply_ite Point.column]
        grind

/-- A character moves a place by its size. -/
theorem pointAt_append_char (hc : c ≠ '\n') (a b : Text) :
    pointAt (a ++ c :: b) (byteLength (a ++ [c])) =
      ⟨(pointAt (a ++ c :: b) (byteLength a)).row,
        (pointAt (a ++ c :: b) (byteLength a)).column + c.utf8Size⟩ := by
  induction a with
  | nil =>
    have hafter : byteLength ([] ++ [c]) = c.utf8Size + 0 := rfl
    have hbefore : byteLength [] = 0 := rfl
    rw [List.nil_append, hafter, hbefore, pointAt_cons_add, pointAt_zero, pointAt_zero, if_neg hc,
      if_pos rfl, Nat.add_comm]
  | cons d a ih =>
    have hlength : ∀ u : Text, byteLength (d :: u) = d.utf8Size + byteLength u := fun u => rfl
    rw [List.cons_append, List.cons_append, hlength, hlength, pointAt_cons_add, pointAt_cons_add,
      ih]
    split
    · rfl
    · split <;> simp [Nat.add_assoc]

/-! ## Cuts -/

@[simp] theorem byteLength_append (a b : Text) :
    byteLength (a ++ b) = byteLength a + byteLength b := width_append _ a b

@[simp] theorem unitLength_append (a b : Text) :
    unitLength (a ++ b) = unitLength a + unitLength b := width_append _ a b

/-- A cut between the characters that an offset names. -/
theorem exists_cut (t : Text) (o : Nat) : ∃ a b, a ++ b = t ∧
    a.length = t.indexAt Char.utf8Size o ∧ byteLength a ≤ min o t.byteLength := by
  have hcut := List.take_append_drop (t.indexAt Char.utf8Size o) t
  have hlength := congrArg byteLength hcut
  rw [byteLength_append] at hlength
  refine ⟨_, _, hcut, List.length_take_of_le (indexAt_le_length _ t o), Nat.le_min.2 ⟨?_, ?_⟩⟩
  · exact width_take_indexAt_le Char.utf8Size t o
  · exact Nat.le_of_add_right_le (Nat.le_of_eq hlength)

theorem linePlaceOf_eq (ha : a.length = t.indexAt Char.utf8Size o) :
    t.linePlaceOf o = locate t.lines a.length := by
  rw [linePlaceOf, byteLength, indexAt_min_width, ha]

/-! ## The line of a character -/

theorem EndsLine.isLineBreak_of_mem {stop rest : Text} (h : EndsLine stop rest) (hc : c ∈ stop) :
    isLineBreak c = true := by
  cases h with
  | pair rest =>
    rcases List.mem_cons.1 hc with rfl | hc
    · rfl
    · rw [List.mem_singleton.1 hc]
      rfl
  | single hbreak hpair => rwa [List.mem_singleton.1 hc]

/-- What is no break does not end a line. -/
theorem EndsLine.ne_nil_of_append_cons {x stop rest : Text} (h : EndsLine stop rest)
    (hc : isLineBreak c = false) (heq : x ++ stop = a ++ c :: z) : z ≠ [] := by
  rintro rfl
  obtain ⟨d, hd⟩ := Option.isSome_iff_exists.1 (List.getLast?_isSome.2 h.ne_nil)
  have hlast := congrArg List.getLast? heq
  rw [List.getLast?_append, List.getLast?_concat, hd] at hlast
  obtain rfl : d = c := Option.some.inj hlast
  exact absurd (h.isLineBreak_of_mem (List.mem_of_getLast? hd)) (by simp [hc])

/-- A character of a text in two parts stands in the second part or in the first. -/
theorem append_eq_append_cons {s u : Text} (h : s ++ u = a ++ c :: b) :
    (∃ a', a = s ++ a' ∧ u = a' ++ c :: b) ∨ ∃ z, s = a ++ c :: z := by
  rcases List.append_eq_append_iff.1 h with hsecond | ⟨z, hfirst, hz⟩
  · exact .inl hsecond
  · cases z with
    | nil => exact .inl ⟨[], by simpa using hfirst.symm, hz.symm⟩
    | cons d z =>
      obtain ⟨rfl, -⟩ := List.cons.inj hz
      exact .inr ⟨z, hfirst⟩

theorem lineStart_succ {line rest : Text} {l : Nat} (h : t.lines = line :: rest.lines) :
    t.lineStart (l + 1) = byteLength line + rest.lineStart l := by
  rw [lineStart, h, List.take_succ_cons, List.flatten_cons, byteLength, width_append]
  rfl

theorem locate_cons {line rest : Text} (k : Nat) : locate (line :: rest.lines) k =
    if k < line.length then ⟨0, unitLength (line.take k)⟩
    else ⟨(locate rest.lines (k - line.length)).line + 1,
      (locate rest.lines (k - line.length)).units⟩ := by
  cases hrest : rest.lines with
  | nil => exact absurd hrest (linesBy_ne_nil _ rest)
  | cons next lines => rw [locate]; exact List.cons_ne_nil _ _

/-- The place after a character that is no line break is in the line of the character. -/
theorem exists_line_of_char (hc : isLineBreak c = false) (ht : t = a ++ c :: b) :
    ∃ y z, t.lines[(locate t.lines (a.length + 1)).line]? = some (y ++ c :: z) ∧
      (locate t.lines (a.length + 1)).units = unitLength (y ++ [c]) ∧
      t.lineStart (locate t.lines (a.length + 1)).line + byteLength y = byteLength a := by
  have htake : ∀ a z : Text, (a ++ c :: z).take (a.length + 1) = a ++ [c] := by
    intro a z
    rw [List.take_length_add_append, List.take_succ_cons, List.take_zero]
  induction t using line_induction generalizing a with
  | last t hu =>
    subst ht
    rw [lines_of_unbroken hu, locate, htake]
    exact ⟨a, b, rfl, rfl, Nat.zero_add _⟩
  | line x stop rest hx hstop ih =>
    have hlines := lines_append hx hstop
    rw [hlines, locate_cons]
    rcases append_eq_append_cons ht with ⟨a', rfl, hrest⟩ | ⟨z, hline⟩
    · -- The character stands after the first line.
      have hlength : (x ++ stop ++ a').length + 1 = (x ++ stop).length + (a'.length + 1) := by
        rw [List.length_append, Nat.add_assoc]
      obtain ⟨y, z, hat, hunits, hstart⟩ := ih hrest
      rw [hlength, if_neg (by omega), Nat.add_sub_cancel_left]
      refine ⟨y, z, hat, hunits, ?_⟩
      rw [lineStart_succ hlines, Nat.add_assoc, hstart, ← byteLength_append]
    · -- It stands in the first line, and not at its end, where the break is.
      have hlength : a.length + 1 < (x ++ stop).length := by
        have := List.length_pos_iff.2 (hstop.ne_nil_of_append_cons hc hline)
        rw [hline, List.length_append, List.length_cons]
        omega
      rw [if_pos hlength, hline, htake]
      exact ⟨a, z, rfl, rfl, Nat.zero_add _⟩

/-! ## Places of 32 bits -/

/-- Whether a position can name the place of an offset: its line and the code units before it there
fit into 32 bits. -/
def Addressable (t : Text) (o : Nat) : Prop :=
  (t.linePlaceOf o).line < UInt32.size ∧ (t.linePlaceOf o).units < UInt32.size

instance (t : Text) (o : Nat) : Decidable (t.Addressable o) :=
  inferInstanceAs (Decidable (_ ∧ _))

theorem Addressable.line_positionOf (h : t.Addressable o) :
    (t.positionOf o).line.toNat = (t.linePlaceOf o).line := UInt32.toNat_ofNat_of_lt' h.1

theorem Addressable.character_positionOf (h : t.Addressable o) :
    (t.positionOf o).character.toNat = (t.linePlaceOf o).units := UInt32.toNat_ofNat_of_lt' h.2

/-- The position of an addressable offset has the offset of its place. -/
theorem Addressable.offsetOf?_positionOf (h : t.Addressable o) :
    t.offsetOf? (t.positionOf o) =
      t.offsetAt? (t.linePlaceOf o).line (t.linePlaceOf o).units := by
  rw [offsetOf?, h.line_positionOf, h.character_positionOf]

theorem length_le_byteLength (t : Text) : t.length ≤ byteLength t := by
  induction t with
  | nil => exact Nat.le_refl 0
  | cons c t ih =>
    have hc := c.utf8Size_pos
    rw [List.length_cons, byteLength, width_cons]
    exact Nat.add_comm 1 t.length ▸ Nat.add_le_add hc ih

theorem unitSize_le_utf8Size (c : Char) : unitSize c ≤ c.utf8Size := by
  rw [unitSize]
  split
  · exact c.utf8Size_pos
  · next hc =>
    -- Beyond the basic plane a character takes more than one byte.
    have hne : c.utf8Size ≠ 1 := fun hone => by
      have hascii := Char.utf8Size_eq_one_iff.1 hone
      exact hc (UInt32.lt_of_le_of_lt hascii (by decide))
    have := c.utf8Size_pos
    omega

theorem unitLength_le_byteLength (t : Text) : unitLength t ≤ byteLength t := by
  induction t with
  | nil => exact Nat.le_refl 0
  | cons c t ih => exact Nat.add_le_add (unitSize_le_utf8Size c) ih

/-- The line of a cut is no more than the characters before it, for every line in front has one. -/
theorem locate_le (hcut : a ++ b = t) : (locate t.lines a.length).line ≤ a.length ∧
    (locate t.lines a.length).units ≤ unitLength a := by
  induction t using line_induction generalizing a with
  | last t hu =>
    rw [lines_of_unbroken hu, locate, ← hcut, List.take_left]
    exact ⟨Nat.zero_le _, Nat.le_refl _⟩
  | line x stop rest hx hstop ih =>
    rw [lines_append hx hstop, locate_cons]
    split
    · next hlength =>
      obtain ⟨m, hm⟩ := List.prefix_of_prefix_length_le (List.prefix_append a b)
        (hcut ▸ List.prefix_append (x ++ stop) rest) (Nat.le_of_lt hlength)
      rw [← hm, List.take_left]
      exact ⟨Nat.zero_le _, Nat.le_refl _⟩
    · next hlength =>
      obtain ⟨y, rfl⟩ := List.prefix_of_prefix_length_le (List.prefix_append (x ++ stop) rest)
        (hcut ▸ List.prefix_append a b) (Nat.le_of_not_lt hlength)
      rw [List.append_assoc (x ++ stop)] at hcut
      obtain ⟨hline, hunits⟩ := ih (List.append_cancel_left hcut)
      have hpos := List.length_pos_iff.2 hstop.ne_nil
      have hlength : ((x ++ stop) ++ y).length = x.length + stop.length + y.length := by
        rw [List.length_append, List.length_append]
      have hindex : ((x ++ stop) ++ y).length - (x ++ stop).length = y.length := by
        rw [List.length_append, Nat.add_sub_cancel_left]
      rw [hindex, unitLength_append (x ++ stop)]
      exact ⟨by simp only; omega, Nat.le_add_left_of_le hunits⟩

/-- Positions name every place in the first four gigabytes of a text. -/
theorem addressable_of_lt (h : min o t.byteLength < UInt32.size) : t.Addressable o := by
  obtain ⟨a, b, hcut, ha, hle⟩ := exists_cut t o
  obtain ⟨hline, hunits⟩ := locate_le hcut
  rw [← linePlaceOf_eq ha] at hline hunits
  have hlength := length_le_byteLength a
  have hunit := unitLength_le_byteLength a
  exact ⟨by omega, by omega⟩

/-! ## The column after a character -/

/-- Only what follows the last character that is neither line feed nor carriage return is cut. -/
theorem exists_trimBreak (hc : c ≠ '\n' ∧ c ≠ '\r') (y z : Text) :
    ∃ z', trimBreak (y ++ c :: z) = y ++ c :: z' := by
  have hkeep : (c :: y.reverse).dropWhile (fun c => c = '\n' || c = '\r') = c :: y.reverse :=
    List.dropWhile_cons_of_neg (by simpa using hc)
  rw [trimBreak, List.reverse_append, List.reverse_cons, List.append_assoc, List.singleton_append,
    List.dropWhile_append]
  split
  · exact ⟨[], by rw [hkeep, List.reverse_cons, List.reverse_reverse]⟩
  · exact ⟨(z.reverse.dropWhile fun c => c = '\n' || c = '\r').reverse, by simp⟩

theorem charEndingAt?_append (y z : Text) (c : Char) :
    charEndingAt? (y ++ c :: z) (byteLength (y ++ [c])) = some c := by
  induction y with
  | nil => exact if_pos rfl
  | cons d y ih =>
    have hpos : 0 < byteLength (y ++ [c]) := by
      have := c.utf8Size_pos
      rw [byteLength, width_append, width_cons]
      omega
    have hlength : byteLength (d :: y ++ [c]) = d.utf8Size + byteLength (y ++ [c]) := rfl
    rw [hlength, List.cons_append, charEndingAt?, if_neg (by omega), if_neg (by omega),
      Nat.add_sub_cancel_left, ih]

/-- If an offset names the place after a character that is no line break, then that place is in the
line of the character, where the character ends, and has the offset after the character. -/
theorem place_after (hc : isLineBreak c = false) (ht : t = a ++ c :: b)
    (ho : t.indexAt Char.utf8Size o = a.length + 1) :
    ∃ line, t.lines[(t.linePlaceOf o).line]? = some line ∧
      t.offsetAt? (t.linePlaceOf o).line (t.linePlaceOf o).units =
        some (byteLength (a ++ [c])) ∧
      (trimBreak line).charEndingAt? (columnOf line (t.linePlaceOf o).units) = some c := by
  have hplace : t.linePlaceOf o = locate t.lines (a.length + 1) := by
    rw [linePlaceOf, byteLength, indexAt_min_width, ho]
  obtain ⟨y, z, hline, hunits, hstart⟩ := exists_line_of_char hc ht
  rw [← hplace] at hline hunits hstart
  obtain ⟨z', htrim⟩ := exists_trimBreak (ne_of_isLineBreak_eq_false hc) y z
  have hcolumn : columnOf (y ++ c :: z) (t.linePlaceOf o).units = byteLength (y ++ [c]) := by
    rw [columnOf, htrim, unitLength, indexAt_min_width, hunits, List.append_cons, unitLength,
      indexAt_width unitSize_pos, List.take_left]
  have hoff : t.lineStart (t.linePlaceOf o).line + byteLength (y ++ [c]) =
      byteLength (a ++ [c]) := by
    simp only [byteLength_append] at hstart ⊢
    omega
  refine ⟨y ++ c :: z, hline, ?_, ?_⟩
  · rw [offsetAt?, hline, Option.map_some, hcolumn, hoff]
  · rw [hcolumn, htrim, charEndingAt?_append]

/-- Where every break has a line feed, the point of the position there is the one in the tree, a
character further on in the row than where the character starts. -/
theorem point_after (hbreaks : ∀ b ∈ t.breaks, b = ['\n'] ∨ b = ['\r', '\n'])
    (hc : isLineBreak c = false) (ht : t = a ++ c :: b)
    (ho : t.indexAt Char.utf8Size o = a.length + 1) (h : t.Addressable o) :
    ∃ q, t.pointOf? (t.positionOf o) = some q ∧ q = t.pointAt (byteLength (a ++ [c])) ∧
      q = ⟨(t.pointAt (byteLength a)).row, (t.pointAt (byteLength a)).column + c.utf8Size⟩ ∧
      (t.lineText? q.row).bind (·.charEndingAt? q.column) = some c := by
  obtain ⟨line, hline, hoff, hat⟩ := place_after hc ht ho
  have hpoint : t.pointOf? (t.positionOf o) =
      some ⟨(t.linePlaceOf o).line, columnOf line (t.linePlaceOf o).units⟩ := by
    rw [pointOf?, h.line_positionOf, h.character_positionOf, hline, Option.map_some]
  have hsame : (⟨(t.linePlaceOf o).line, columnOf line (t.linePlaceOf o).units⟩ : Point) =
      t.pointAt (byteLength (a ++ [c])) :=
    (row_le_line_and_eq_iff hline hoff).2.2 fun b hb => hbreaks b (List.mem_of_mem_take hb)
  refine ⟨_, hpoint, hsame, ?_, ?_⟩
  · rw [hsame, ht]
    exact pointAt_append_char (ne_of_isLineBreak_eq_false hc).1 a b
  · rw [lineText?, hline, Option.map_some, Option.bind_some, hat]

/-! ## Parts -/

section
variable {start stop k : Nat}

/-- Two parts, one right after the other, are one part. -/
theorem slice_append (t : Text) (hm : start ≤ m) (hstop : m ≤ stop) :
    t.slice start m ++ t.slice m stop = t.slice start stop := by
  have hle := indexAt_mono Char.utf8Size t hm
  obtain ⟨rest, hrest⟩ :=
    List.take_prefix_take_left (l := t) (indexAt_mono Char.utf8Size t hstop)
  have hlength : (t.take (t.indexAt Char.utf8Size m)).length = t.indexAt Char.utf8Size m :=
    List.length_take_of_le (indexAt_le_length _ t m)
  rw [slice, slice, slice, ← hrest, List.drop_append_of_le_length (by omega),
    List.drop_append_of_le_length (by omega), List.append_cancel_left_eq]
  rw [List.drop_eq_nil_of_le (by omega), List.nil_append]

theorem mem_slice (hstart : t.indexAt Char.utf8Size start ≤ k)
    (hstop : k < t.indexAt Char.utf8Size stop) (hc : t[k]? = some c) : c ∈ t.slice start stop := by
  rw [slice, List.mem_iff_getElem?]
  refine ⟨k - t.indexAt Char.utf8Size start, ?_⟩
  rw [List.getElem?_drop, Nat.add_sub_cancel' hstart, List.getElem?_take_of_lt hstop, hc]

theorem indexAt_lt_of_slice (h : t.slice start stop ≠ []) :
    t.indexAt Char.utf8Size start < t.indexAt Char.utf8Size stop := by
  refine Nat.lt_of_not_le fun hle => h (List.drop_eq_nil_of_le ?_)
  exact Nat.le_trans (List.length_take_le _ _) hle

/-- A place in a part of a text whose characters take one byte each, and not at its start, is the
one after a character of the part. The bounds of the part may be anywhere. -/
theorem exists_char_of_slice (hne : t.slice start stop ≠ [])
    (hsize : ∀ c ∈ t.slice start stop, c.utf8Size = 1) (hstart : start < o) (hstop : o ≤ stop) :
    ∃ x c y, t = x ++ c :: y ∧ c ∈ t.slice start stop ∧
      t.indexAt Char.utf8Size o = x.length + 1 ∧
      start < byteLength (x ++ [c]) ∧ byteLength (x ++ [c]) ≤ o := by
  have hlength := indexAt_le_length Char.utf8Size t stop
  have hpart := indexAt_lt_of_slice hne
  have hto : t.indexAt Char.utf8Size o ≤ t.indexAt Char.utf8Size stop := indexAt_mono _ _ hstop
  have hfrom : t.indexAt Char.utf8Size start < t.indexAt Char.utf8Size o := by
    -- The first character takes one byte, so an offset after its start is after its end.
    refine Nat.lt_of_not_le fun hle => ?_
    have heq : t.indexAt Char.utf8Size o = t.indexAt Char.utf8Size start :=
      Nat.le_antisymm hle (indexAt_mono _ _ (Nat.le_of_lt hstart))
    have hfirst := List.getElem?_eq_getElem (Nat.lt_of_lt_of_le hpart hlength)
    have hone := hsize _ (mem_slice (Nat.le_refl _) hpart hfirst)
    have hbefore := width_take_indexAt_le Char.utf8Size t start
    have hafter := lt_width_take_indexAt (w := Char.utf8Size) (t := t) (n := o) (by omega)
    rw [heq, List.take_add_one, hfirst, width_append, Option.toList_some, width_cons, width_nil,
      hone] at hafter
    omega
  obtain ⟨k, hk⟩ := Nat.exists_eq_add_one_of_ne_zero (Nat.ne_zero_of_lt hfrom)
  have hlt : k < t.length := by omega
  have htake : t.take k ++ [t[k]] = t.take (k + 1) := List.take_append_getElem hlt
  refine ⟨t.take k, t[k], t.drop (k + 1), ?_,
    mem_slice (by omega) (by omega) (List.getElem?_eq_getElem hlt), ?_, ?_, ?_⟩
  · rw [List.append_cons, htake, List.take_append_drop]
  · rw [hk, List.length_take_of_le (Nat.le_of_lt hlt)]
  · have hend := lt_width_take_indexAt (w := Char.utf8Size) (t := t) (n := start) (by omega)
    rw [htake]
    exact Nat.lt_of_lt_of_le hend (width_take_mono _ _ (by omega))
  · rw [htake, ← hk]
    exact width_take_indexAt_le Char.utf8Size t o

end

end Text
end ElmScope
