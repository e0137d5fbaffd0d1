import ElmScope.Proofs.Text.Lines
/-!
# Lines of a buffer and rows of a tree

A buffer counts every line break, a tree counts line feeds. So the point of a position, its row
being the line of the buffer, is the point of its offset in the tree exactly if every break before
the line has a line feed in it. Otherwise the tree is some rows behind.

* `pointAt_append_feed`, `pointAt_append_of_not_mem` — points behind a line with a feed and without
* `row_le_line_and_eq_iff` — the tree is never ahead of the buffer, and when it is not behind
* `pointOf?_eq_pointAt_iff` — when the two ways to name a place agree
-/
namespace ElmScope
namespace Text

/-- The line breaks of a text in order. A carriage return and the line feed after it are one. -/
def breaks : Text → List Text
  | [] => []
  | '\r' :: '\n' :: t => ['\r', '\n'] :: breaks t
  | c :: t => if isLineBreak c then [c] :: breaks t else breaks t

variable {t x a b stop rest line : Text} {c : Char} {l n off : Nat} {pt : Point}

/-! ## Breaks line by line -/

theorem breaks_cons (h : ¬(c = '\r' ∧ t.head? = some '\n')) :
    breaks (c :: t) = if isLineBreak c then [c] :: breaks t else breaks t := by
  rw [breaks]
  rintro u rfl rfl
  exact h ⟨rfl, rfl⟩

theorem breaks_append_of_unbroken (hx : Unbroken x) (t : Text) : breaks (x ++ t) = breaks t := by
  induction x with
  | nil => rfl
  | cons c x ih =>
    obtain ⟨hc, hx⟩ := hx.of_cons
    have hpair : ¬(c = '\r' ∧ (x ++ t).head? = some '\n') := by
      rintro ⟨rfl, -⟩
      exact absurd hc (by decide)
    rw [List.cons_append, breaks_cons hpair, hc, ih hx]
    rfl

theorem breaks_line (hx : Unbroken x) (h : EndsLine stop rest) :
    breaks (x ++ stop ++ rest) = stop :: breaks rest := by
  rw [List.append_assoc, breaks_append_of_unbroken hx]
  cases h with
  | pair rest => rfl
  | single hc hpair => rw [List.singleton_append, breaks_cons hpair, if_pos hc]

/-! ## Points behind a line -/

theorem pointAt_zero (t : Text) : t.pointAt 0 = ⟨0, 0⟩ := by
  cases t with
  | nil => rfl
  | cons c t => rw [pointAt, if_pos c.utf8Size_pos]

theorem pointAt_cons_add (c : Char) (t : Text) (n : Nat) :
    pointAt (c :: t) (c.utf8Size + n) =
      if c = '\n' then ⟨(t.pointAt n).row + 1, (t.pointAt n).column⟩
      else if (t.pointAt n).row = 0 then ⟨0, c.utf8Size + (t.pointAt n).column⟩
      else t.pointAt n := by
  rw [pointAt, if_neg (by omega), Nat.add_sub_cancel_left]

/-- Characters that are no line feed move a place in the row they stand in. -/
theorem pointAt_append_of_not_mem (ha : '\n' ∉ a) (b : Text) (n : Nat) :
    pointAt (a ++ b) (byteLength a + n) =
      if (pointAt b n).row = 0 then ⟨0, byteLength a + (pointAt b n).column⟩ else pointAt b n := by
  induction a with
  | nil =>
    have hlength : byteLength [] + n = n := Nat.zero_add n
    rw [List.nil_append, hlength]
    split
    · next hrow => rw [← hrow, byteLength, width_nil, Nat.zero_add]
    · rfl
  | cons c a ih =>
    rw [List.mem_cons, not_or] at ha
    have hlength : byteLength (c :: a) + n = c.utf8Size + (byteLength a + n) := Nat.add_assoc ..
    rw [List.cons_append, hlength, pointAt_cons_add, if_neg (Ne.symm ha.1), ih ha.2]
    by_cases hrow : (pointAt b n).row = 0
    · simp [hrow, byteLength, Nat.add_assoc]
    · simp [hrow]

theorem pointAt_of_not_mem (ha : '\n' ∉ a) (b : Text) :
    pointAt (a ++ b) (byteLength a) = ⟨0, byteLength a⟩ := by
  simpa [pointAt_zero] using pointAt_append_of_not_mem ha b 0

/-- A line feed begins a row. -/
theorem pointAt_append_feed (ha : '\n' ∉ a) (b : Text) (n : Nat) :
    pointAt (a ++ ['\n'] ++ b) (byteLength (a ++ ['\n']) + n) =
      ⟨(pointAt b n).row + 1, (pointAt b n).column⟩ := by
  have hfeed : pointAt ('\n' :: b) ('\n'.utf8Size + n) =
      ⟨(pointAt b n).row + 1, (pointAt b n).column⟩ := by
    rw [pointAt_cons_add, if_pos rfl]
  have hlength : byteLength (a ++ ['\n']) + n = byteLength a + ('\n'.utf8Size + n) := by
    simp [byteLength, Nat.add_assoc]
  rw [List.append_assoc, List.singleton_append, hlength, pointAt_append_of_not_mem ha, hfeed,
    if_neg (Nat.succ_ne_zero _)]

/-! ## Places in a line -/

theorem Unbroken.feed_not_mem (hx : Unbroken x) : '\n' ∉ x := by
  intro h
  exact absurd (hx _ h) (by decide)

theorem ne_of_isLineBreak_eq_false (hc : isLineBreak c = false) : c ≠ '\n' ∧ c ≠ '\r' := by
  constructor
  all_goals
    rintro rfl
    exact absurd hc (by decide)

theorem Unbroken.ne_of_getLast? (hx : Unbroken x) : ∀ c ∈ x.getLast?, c ≠ '\n' ∧ c ≠ '\r' :=
  fun c hc => ne_of_isLineBreak_eq_false (hx c (List.mem_of_getLast? hc))

/-- What ends a line has its one line feed at its end, if it has one. -/
theorem EndsLine.cases_feed (h : EndsLine stop rest) :
    stop = ['\n'] ∨ stop = ['\r', '\n'] ∨ '\n' ∉ stop := by
  cases h with
  | pair rest => exact .inr (.inl rfl)
  | @single c _ hc hpair =>
    by_cases hfeed : c = '\n'
    · exact .inl (by rw [hfeed])
    · exact .inr (.inr (by simpa using Ne.symm hfeed))

theorem isPrefix_trimBreak (line : Text) : trimBreak line <+: line := by
  rw [trimBreak, ← List.reverse_suffix, List.reverse_reverse]
  exact List.dropWhile_suffix _

/-- What is left of a line without its line feed and carriage return has no line feed. -/
theorem EndsLine.feed_not_mem_trimBreak (h : EndsLine stop rest) (hx : Unbroken x) :
    '\n' ∉ trimBreak (x ++ stop) := by
  rcases h.cases_feed with rfl | rfl | hno
  · rw [trimBreak_append hx.ne_of_getLast? (by simp)]
    exact hx.feed_not_mem
  · rw [trimBreak_append hx.ne_of_getLast? (by simp)]
    exact hx.feed_not_mem
  · intro hmem
    rcases List.mem_append.1 ((isPrefix_trimBreak _).subset hmem) with hmem | hmem
    · exact hx.feed_not_mem hmem
    · exact hno hmem

/-- A place in the first line of a text stands in the first row. -/
theorem pointAt_columnOf (h : '\n' ∉ trimBreak line) (rest : Text) (n : Nat) :
    pointAt (line ++ rest) (columnOf line n) = ⟨0, columnOf line n⟩ := by
  obtain ⟨tail, htail⟩ := isPrefix_trimBreak line
  rw [columnOf]
  generalize (trimBreak line).indexAt unitSize (min n (trimBreak line).unitLength) = k
  have hline : line ++ rest =
      (trimBreak line).take k ++ ((trimBreak line).drop k ++ tail ++ rest) := by
    rw [← List.append_assoc, ← List.append_assoc, List.take_append_drop, htail]
  have htake : '\n' ∉ (trimBreak line).take k := fun hmem => h (List.mem_of_mem_take hmem)
  rw [hline]
  exact pointAt_of_not_mem htake _

/-- A line that ends with a line feed, alone or after a carriage return, is a row. -/
theorem pointAt_line (hx : Unbroken x) (hstop : stop = ['\n'] ∨ stop = ['\r', '\n']) (rest : Text)
    (n : Nat) : pointAt (x ++ stop ++ rest) (byteLength (x ++ stop) + n) =
      ⟨(pointAt rest n).row + 1, (pointAt rest n).column⟩ := by
  rcases hstop with rfl | rfl
  · exact pointAt_append_feed hx.feed_not_mem rest n
  · have hno : '\n' ∉ x ++ ['\r'] := by simpa using hx.feed_not_mem
    have hline : x ++ ['\r', '\n'] = x ++ ['\r'] ++ ['\n'] := List.append_cons ..
    rw [hline]
    exact pointAt_append_feed hno rest n

/-- A line that ends otherwise is no row. -/
theorem row_pointAt_line (hx : Unbroken x) (hstop : '\n' ∉ stop) (rest : Text) (n : Nat) :
    (pointAt (x ++ stop ++ rest) (byteLength (x ++ stop) + n)).row = (pointAt rest n).row := by
  have hno : '\n' ∉ x ++ stop := List.not_mem_append hx.feed_not_mem hstop
  rw [pointAt_append_of_not_mem hno]
  split
  · next hrow => exact hrow.symm
  · rfl

/-! ## Places in a text -/

/-- The row of an offset is at most its line, and the two ways to name the place agree exactly if
every break before the line has a line feed. -/
theorem row_le_line_and_eq_iff (hline : t.lines[l]? = some line)
    (hoff : t.offsetAt? l n = some off) :
    (t.pointAt off).row ≤ l ∧
      (⟨l, columnOf line n⟩ = t.pointAt off ↔
        ∀ b ∈ t.breaks.take l, b = ['\n'] ∨ b = ['\r', '\n']) := by
  have first : ∀ {t first rest : Text} {ls : List Text} {off : Nat}, t = first ++ rest →
      t.lines = first :: ls → '\n' ∉ trimBreak first → t.offsetAt? 0 n = some off →
      t.pointAt off = ⟨0, columnOf first n⟩ := by
    rintro t first rest ls off rfl hlines hfeed hoff
    rw [offsetAt?_zero hlines] at hoff
    obtain rfl := Option.some.inj hoff
    exact pointAt_columnOf hfeed rest n
  -- Line by line from the end of the text: each line in front adds a line, and a row if it has a
  -- feed, so a tree that is behind stays behind.
  induction t using line_induction generalizing l off with
  | last t hu =>
    rw [lines_of_unbroken hu] at hline
    obtain ⟨rfl, rfl⟩ : l = 0 ∧ t = line := by simpa using List.getElem?_singleton.symm.trans hline
    have hfeed : '\n' ∉ trimBreak t := fun h => hu.feed_not_mem ((isPrefix_trimBreak t).subset h)
    rw [first (List.append_nil t).symm (lines_of_unbroken hu) hfeed hoff]
    simp
  | line x stop rest hx hstop ih =>
    have hlines := lines_append hx hstop
    rw [hlines] at hline
    cases l with
    | zero =>
      obtain rfl := Option.some.inj hline
      rw [first rfl hlines (hstop.feed_not_mem_trimBreak hx) hoff]
      simp
    | succ l =>
      rw [offsetAt?_succ hlines] at hoff
      obtain ⟨off, hrest, rfl⟩ := Option.map_eq_some_iff.1 hoff
      obtain ⟨hrow, hiff⟩ := ih hline hrest
      rw [breaks_line hx hstop, List.take_succ_cons, List.forall_mem_cons, ← hiff]
      by_cases hnewline : stop = ['\n'] ∨ stop = ['\r', '\n']
      · rw [pointAt_line hx hnewline]
        refine ⟨Nat.succ_le_succ hrow, ?_⟩
        cases pointAt rest off
        simp [hnewline]
      · have hno : '\n' ∉ stop := by
          rcases hstop.cases_feed with h | h | h
          · exact absurd (.inl h) hnewline
          · exact absurd (.inr h) hnewline
          · exact h
        have hbehind := row_pointAt_line hx hno rest off
        refine ⟨by omega, iff_of_false (fun heq => ?_) fun h => hnewline h.1⟩
        rw [← heq] at hbehind
        simp only at hbehind
        omega

/-- **Lines and rows agree exactly if every break before the line has a line feed.** Whenever a
position has a point, it has an offset, and the point is the one of that offset in the tree if and
only if each of the breaks before the line of the position is a line feed or a carriage return and a
line feed. A lone carriage return, a vertical tab, a form feed, a next line and a line or paragraph
separator each put the two apart for the rest of the text. -/
theorem pointOf?_eq_pointAt_iff {t : Text} {p : Position} {pt : Point} (h : t.pointOf? p = some pt) :
    ∃ off, t.offsetOf? p = some off ∧
      (pt = t.pointAt off ↔
        ∀ b ∈ t.breaks.take p.line.toNat, b = ['\n'] ∨ b = ['\r', '\n']) := by
  obtain ⟨line, hline, rfl⟩ := Option.map_eq_some_iff.1 h
  have hoff : t.offsetAt? p.line.toNat p.character.toNat =
      some (t.lineStart p.line.toNat + columnOf line p.character.toNat) := by
    rw [offsetAt?, hline, Option.map_some]
  exact ⟨_, hoff, (row_le_line_and_eq_iff hline hoff).2⟩

/-- Behind a carriage return and a line feed the two agree, behind a vertical tab as well they do
not. -/
theorem pointOf?_eq_pointAt_iff_tab :
    let t : Text := ['a', '\r', '\n', 'b', '\x0b', 'c']
    (t.pointOf? ⟨1, 1⟩ = some ⟨1, 1⟩ ∧ t.offsetOf? ⟨1, 1⟩ = some 4 ∧ t.pointAt 4 = ⟨1, 1⟩) ∧
      t.pointOf? ⟨2, 0⟩ = some ⟨2, 0⟩ ∧ t.offsetOf? ⟨2, 0⟩ = some 5 ∧ t.pointAt 5 ≠ ⟨2, 0⟩ := by
  intro t
  have hone : t.pointOf? ⟨1, 1⟩ = some ⟨1, 1⟩ := by decide
  have htwo : t.pointOf? ⟨2, 0⟩ = some ⟨2, 0⟩ := by decide
  obtain ⟨off₁, hoff₁, hiff₁⟩ := pointOf?_eq_pointAt_iff hone
  obtain ⟨off₂, hoff₂, hiff₂⟩ := pointOf?_eq_pointAt_iff htwo
  have h₁ : t.offsetOf? ⟨1, 1⟩ = some 4 := by decide
  have h₂ : t.offsetOf? ⟨2, 0⟩ = some 5 := by decide
  obtain rfl := Option.some.inj (h₁.symm.trans hoff₁)
  obtain rfl := Option.some.inj (h₂.symm.trans hoff₂)
  exact ⟨⟨hone, h₁, (hiff₁.2 (by decide)).symm⟩, htwo, h₂, fun heq =>
    absurd (hiff₂.1 heq.symm) (by decide)⟩

end Text
end ElmScope
