import ElmScope.Text.Position
/-!
# A text line by line

A text either has no line break, and is one line, or starts with a line: characters without a
break, and then a break, which is one character or a carriage return and a line feed together.
What holds of texts without a break, and passes from the rest of a text to the text, holds of all
texts (`line_induction`).

* `lines_append`, `offsetAt?_succ` — lines and offsets, with one line in front
* `columnOf_append` — a column in a line whose break is stripped
* `indexAt_width` — the character after a part of a text
-/
namespace ElmScope
namespace Text

/-- A text in one line. -/
def Unbroken (t : Text) : Prop := ∀ c ∈ t, isLineBreak c = false

/-- What ends a line before the rest of a text: a carriage return and a line feed, or one break
that is not the first half of those. -/
inductive EndsLine : Text → Text → Prop
  | pair (rest : Text) : EndsLine ['\r', '\n'] rest
  | single {c : Char} {rest : Text} (hc : isLineBreak c = true)
      (hpair : ¬(c = '\r' ∧ rest.head? = some '\n')) : EndsLine [c] rest

variable {t x stop rest : Text} {c : Char} {l n : Nat}

theorem EndsLine.ne_nil (h : EndsLine stop rest) : stop ≠ [] := by
  cases h <;> exact List.cons_ne_nil _ _

theorem Unbroken.of_cons (h : Unbroken (c :: t)) : isLineBreak c = false ∧ Unbroken t :=
  List.forall_mem_cons.1 h

/-- Every text is one line, or a line and what follows it. -/
theorem unbroken_or_exists_line (t : Text) :
    Unbroken t ∨ ∃ x stop rest, t = x ++ stop ++ rest ∧ Unbroken x ∧ EndsLine stop rest := by
  induction t with
  | nil => exact .inl nofun
  | cons c t ih =>
    cases hc : isLineBreak c with
    | false =>
      rcases ih with h | ⟨x, stop, rest, rfl, hx, hstop⟩
      · exact .inl (List.forall_mem_cons.2 ⟨hc, h⟩)
      · exact .inr ⟨c :: x, stop, rest, by simp, List.forall_mem_cons.2 ⟨hc, hx⟩, hstop⟩
    | true =>
      right
      by_cases hpair : c = '\r' ∧ t.head? = some '\n'
      · obtain ⟨rfl, hhead⟩ := hpair
        obtain ⟨rest, rfl⟩ := List.head?_eq_some_iff.1 hhead
        exact ⟨[], ['\r', '\n'], rest, rfl, nofun, .pair rest⟩
      · exact ⟨[], [c], t, rfl, nofun, .single hc hpair⟩

/-- Induction on a text from its last line to its first. -/
theorem line_induction {P : Text → Prop} (last : ∀ t, Unbroken t → P t)
    (line : ∀ x stop rest, Unbroken x → EndsLine stop rest → P rest → P (x ++ stop ++ rest))
    (t : Text) : P t := by
  induction hn : t.length using Nat.strongRecOn generalizing t with
  | _ n ih =>
    rcases unbroken_or_exists_line t with h | ⟨x, stop, rest, rfl, hx, hstop⟩
    · exact last t h
    · refine line x stop rest hx hstop (ih rest.length ?_ rest rfl)
      have := List.length_pos_iff.2 hstop.ne_nil
      simp only [List.length_append] at hn
      omega

/-! ## Lines and offsets -/

theorem lines_of_unbroken (h : Unbroken t) : t.lines = [t] := by
  induction t with
  | nil => rfl
  | cons c t ih =>
    obtain ⟨hc, ht⟩ := h.of_cons
    have := ih ht
    simp only [lines] at this
    simp [lines, linesBy, hc, this, glue]

theorem lines_append (hx : Unbroken x) (hstop : EndsLine stop rest) :
    (x ++ stop ++ rest).lines = (x ++ stop) :: rest.lines := by
  induction x with
  | nil =>
    cases hstop with
    | pair rest => simp [lines, linesBy, isLineBreak, glue]
    | single hc hpair =>
      have hnot := decide_eq_false hpair
      rw [Bool.decide_and] at hnot
      simp only [List.nil_append, List.singleton_append, lines, linesBy, hc, hnot]
      rfl
  | cons c x ih =>
    obtain ⟨hc, hx⟩ := hx.of_cons
    have := ih hx
    simp only [lines] at this
    simp only [List.cons_append, lines, linesBy, hc, Bool.false_and, Bool.false_eq_true, if_false]
    rw [this, glue]

theorem offsetAt?_zero {line : Text} {ls : List Text} (h : t.lines = line :: ls) (n : Nat) :
    t.offsetAt? 0 n = some (columnOf line n) := by
  simp [offsetAt?, lineStart, h, byteLength]

/-- A place after the first line of a text is one in the rest. -/
theorem offsetAt?_succ {line : Text} (h : t.lines = line :: rest.lines) (l n : Nat) :
    t.offsetAt? (l + 1) n = (rest.offsetAt? l n).map (byteLength line + ·) := by
  simp only [offsetAt?, lineStart, h, List.getElem?_cons_succ, List.take_succ_cons,
    List.flatten_cons, Option.map_map]
  congr 1
  funext line'
  simp [byteLength, Nat.add_assoc]

/-! ## Columns -/

/-- Past the end of a text its last character has ended. -/
theorem indexAt_min_width (w : Char → Nat) (t : Text) (n : Nat) :
    t.indexAt w (min n (width w t)) = t.indexAt w n := by
  induction t generalizing n with
  | nil => rfl
  | cons c t ih =>
    have hmin : min n (w c + width w t) - w c = min (n - w c) (width w t) := by omega
    rw [width_cons]
    by_cases h : n < w c
    · have hc : min n (w c + width w t) < w c := by omega
      simp [indexAt, h, hc]
    · have hc : ¬min n (w c + width w t) < w c := by omega
      simp [indexAt, h, hc, hmin, ih]

/-- The character after a part of a text, where no character weighs nothing. -/
theorem indexAt_width {w : Char → Nat} (hw : ∀ c, 0 < w c) (a b : Text) :
    (a ++ b).indexAt w (width w a) = a.length := by
  induction a with
  | nil =>
    cases b with
    | nil => rfl
    | cons c b => simp [indexAt, hw c]
  | cons c a ih => simp [indexAt, ih]

theorem trimBreak_append (hx : ∀ c ∈ x.getLast?, c ≠ '\n' ∧ c ≠ '\r')
    (hstop : ∀ c ∈ stop, c = '\n' ∨ c = '\r') : trimBreak (x ++ stop) = x := by
  have hkeep : x.reverse.dropWhile (fun c => c = '\n' || c = '\r') = x.reverse := by
    cases hr : x.reverse with
    | nil => rfl
    | cons c r =>
      have hlast := hx c (by rw [← List.head?_reverse, hr]; rfl)
      rw [List.dropWhile_cons_of_neg (by simpa using hlast)]
  rw [trimBreak, List.reverse_append, List.dropWhile_append_of_pos, hkeep, List.reverse_reverse]
  intro c hc
  simpa using hstop c (List.mem_reverse.1 hc)

/-- A column in a line: what comes before it in the line without its line feed and carriage
return. -/
theorem columnOf_append (hx : ∀ c ∈ x.getLast?, c ≠ '\n' ∧ c ≠ '\r')
    (hstop : ∀ c ∈ stop, c = '\n' ∨ c = '\r') (n : Nat) :
    columnOf (x ++ stop) n = byteLength (x.take (x.indexAt unitSize n)) := by
  simp only [columnOf, trimBreak_append hx hstop, unitLength, indexAt_min_width]

theorem unitSize_pos (c : Char) : 0 < unitSize c := by
  unfold unitSize
  split <;> decide

theorem columnOf_zero (line : Text) : columnOf line 0 = 0 := by
  have hindex : ∀ t : Text, t.indexAt unitSize 0 = 0 := fun t => indexAt_width unitSize_pos [] t
  simp [columnOf, hindex, byteLength]

end Text
end ElmScope
