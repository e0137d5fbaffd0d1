import ElmScope.Proofs.Text.Lines
import ElmScope.Text.Edit
/-!
# Places as editors mean them

An editor's lines end with a line feed or with a carriage return, the two together being one end.
No other character ends a line. A position names a line and counts code units in it: a count past
the end of the line means the end of the line before its terminator, and a count that ends inside a
surrogate pair means the start of the pair. `placeOf?` reads a position in this way, by cutting the
text in two at the place that is meant.

A buffer also ends its lines at vertical tabs, form feeds, next lines, and line and paragraph
separators. In a text without any of those, positions and edits mean what an editor means by them.
In a text with one, the buffer has a line that no editor knows.

* `placeOf?_append` — a place is a cut of the text
* `offsetAt?_eq_editorOffsetAt?`, `exists_offsetAt?_ne` — texts without a foreign break, and with one
* `offsetOf?_edit?_iff` — when positions and edits mean what an editor means
-/
namespace ElmScope
namespace Text

/-- The characters that end a line for an editor. -/
def isTerminator (c : Char) : Bool := c = '\n' || c = '\r'

/-- The characters that end a line of a buffer but none of an editor. -/
def foreignBreaks : List Char := ['\x0b', '\x0c', '\u0085', '\u2028', '\u2029']

/-- A text cut after its first line, terminator included, if that line is terminated. -/
def cutLine? : Text → Option (Text × Text)
  | [] => none
  | c :: t =>
    if c = '\n' ∨ c = '\r' ∧ t.head? ≠ some '\n' then some ([c], t)
    else (cutLine? t).map fun (line, rest) => (c :: line, rest)

/-- A text cut in its first line, after as many whole characters as `n` code units hold, and
before the terminator of the line. -/
def cutColumn : Text → Nat → Text × Text
  | [], _ => ([], [])
  | c :: t, n =>
    if isTerminator c ∨ n < unitSize c then ([], c :: t)
    else
      let (a, b) := cutColumn t (n - unitSize c)
      (c :: a, b)

/-- A text cut in line `l` after `n` code units; none if there is no such line. -/
def cutAt? (t : Text) : (l n : Nat) → Option (Text × Text)
  | 0, n => some (cutColumn t n)
  | l + 1, n =>
    (cutLine? t).bind fun (line, rest) => (cutAt? rest l n).map fun (a, b) => (line ++ a, b)

/-- What stands before and after the place an editor means by a position. -/
def placeOf? (t : Text) (p : Position) : Option (Text × Text) :=
  cutAt? t p.line.toNat p.character.toNat

/-- The offset of the place an editor means by a line and code units in it. -/
def editorOffsetAt? (t : Text) (l n : Nat) : Option Nat :=
  (cutAt? t l n).map fun (before, _) => byteLength before

/-- The offset of the place an editor means by a position. -/
def editorOffset? (t : Text) (p : Position) : Option Nat :=
  t.editorOffsetAt? p.line.toNat p.character.toNat

/-- The text after an edit as an editor means it: the new text stands between what was before the
start of the range and what was after its end. -/
def editorEdit? (t : Text) (e : Edit) : Option Text :=
  match e.range? with
  | none => some e.text
  | some r =>
    match t.placeOf? r.start, t.placeOf? r.stop with
    | some (before, _), some (upToStop, after) =>
      if before.length ≤ upToStop.length then some (before ++ e.text ++ after) else none
    | _, _ => none

variable {t x stop rest a b : Text} {c : Char} {l n : Nat} {p : Position}

/-! ## Places are cuts -/

theorem cutLine?_append (h : cutLine? t = some (a, b)) : a ++ b = t ∧ a ≠ [] := by
  induction t generalizing a with
  | nil => exact nomatch h
  | cons c t ih =>
    rw [cutLine?] at h
    split at h
    · obtain ⟨rfl, rfl⟩ := Prod.mk.inj (Option.some.inj h)
      exact ⟨rfl, List.cons_ne_nil _ _⟩
    · obtain ⟨⟨line, rest⟩, hcut, heq⟩ := Option.map_eq_some_iff.1 h
      obtain ⟨rfl, rfl⟩ := Prod.mk.inj heq
      exact ⟨congrArg (c :: ·) (ih hcut).1, List.cons_ne_nil _ _⟩

theorem cutColumn_append (t : Text) (n : Nat) : (cutColumn t n).1 ++ (cutColumn t n).2 = t := by
  induction t generalizing n with
  | nil => rfl
  | cons c t ih =>
    rw [cutColumn]
    split
    · rfl
    · exact congrArg (c :: ·) (ih _)

theorem cutAt?_append (h : cutAt? t l n = some (a, b)) : a ++ b = t := by
  induction l generalizing t a with
  | zero =>
    have hcut := cutColumn_append t n
    rwa [Option.some.inj h] at hcut
  | succ l ih =>
    obtain ⟨⟨line, rest⟩, hline, hmap⟩ := Option.bind_eq_some_iff.1 h
    obtain ⟨⟨a', b'⟩, hrest, heq⟩ := Option.map_eq_some_iff.1 hmap
    obtain ⟨rfl, rfl⟩ := Prod.mk.inj heq
    rw [List.append_assoc, ih hrest]
    exact (cutLine?_append hline).1

/-- A place is a cut of the text. -/
theorem placeOf?_append (h : t.placeOf? p = some (a, b)) : a ++ b = t := cutAt?_append h

/-! ## Places line by line -/

theorem isLineBreak_iff : isLineBreak c = true ↔ isTerminator c = true ∨ c ∈ foreignBreaks := by
  simp [isLineBreak, isTerminator, foreignBreaks, or_assoc]

theorem isTerminator_of_mem_foreignBreaks (h : c ∈ foreignBreaks) : isTerminator c = false := by
  simp only [foreignBreaks, List.mem_cons, List.not_mem_nil, or_false] at h
  rcases h with rfl | rfl | rfl | rfl | rfl <;> decide

theorem Unbroken.isTerminator (h : Unbroken x) : ∀ c ∈ x, isTerminator c = false := by
  intro c hc
  rw [Bool.eq_false_iff]
  intro hterm
  exact absurd (isLineBreak_iff.2 (.inl hterm)) (Bool.eq_false_iff.1 (h c hc))

/-- Characters that end no line for an editor stay with the line that follows them. -/
theorem cutLine?_append_of_not_terminator (hx : ∀ c ∈ x, isTerminator c = false) (t : Text) :
    cutLine? (x ++ t) = (cutLine? t).map fun (line, rest) => (x ++ line, rest) := by
  induction x with
  | nil => simp
  | cons c x ih =>
    obtain ⟨hc, hx⟩ := List.forall_mem_cons.1 hx
    simp only [Text.isTerminator, Bool.or_eq_false_iff, decide_eq_false_iff_not] at hc
    simp [cutLine?, hc.1, hc.2, ih hx, Function.comp_def]

theorem cutLine?_of_not_terminator (hx : ∀ c ∈ x, isTerminator c = false) :
    cutLine? x = none := by
  have := cutLine?_append_of_not_terminator hx []
  rwa [List.append_nil] at this

/-- Up to the end of its first line, a text is cut where the code units run out. -/
theorem cutColumn_of_not_terminator (hx : ∀ c ∈ x, isTerminator c = false)
    (hrest : ∀ c ∈ rest.head?, isTerminator c = true) (n : Nat) :
    (cutColumn (x ++ rest) n).1 = x.take (x.indexAt unitSize n) := by
  induction x generalizing n with
  | nil =>
    cases rest with
    | nil => rfl
    | cons c rest => simp [cutColumn, hrest c rfl]
  | cons c x ih =>
    obtain ⟨hc, hx⟩ := List.forall_mem_cons.1 hx
    by_cases hn : n < unitSize c
    · simp [cutColumn, indexAt, hn]
    · simp [cutColumn, indexAt, hn, hc, ih hx]

/-- What ends a line of a buffer ends one of an editor, unless it is foreign. -/
theorem EndsLine.terminators (h : EndsLine stop rest) (hstop : ∀ c ∈ stop, c ∉ foreignBreaks) :
    (∀ c ∈ stop, c = '\n' ∨ c = '\r') ∧ cutLine? (stop ++ rest) = some (stop, rest) := by
  cases h with
  | pair rest => simp [cutLine?]
  | @single c _ hc hpair =>
    have hterm : c = '\n' ∨ c = '\r' := by
      simpa [Text.isTerminator] using
        (isLineBreak_iff.1 hc).resolve_right (hstop c List.mem_cons_self)
    refine ⟨by simpa using hterm, ?_⟩
    rw [List.singleton_append, cutLine?, if_pos]
    exact hterm.imp_right fun hr => ⟨hr, fun hn => hpair ⟨hr, hn⟩⟩

theorem cutLine?_line (hx : Unbroken x) (h : EndsLine stop rest)
    (hstop : ∀ c ∈ stop, c ∉ foreignBreaks) :
    cutLine? (x ++ stop ++ rest) = some (x ++ stop, rest) := by
  rw [List.append_assoc, cutLine?_append_of_not_terminator hx.isTerminator,
    (h.terminators hstop).2]
  rfl

theorem editorOffsetAt?_succ {line : Text} (h : cutLine? t = some (line, rest)) (l n : Nat) :
    t.editorOffsetAt? (l + 1) n = (rest.editorOffsetAt? l n).map (byteLength line + ·) := by
  simp [editorOffsetAt?, cutAt?, h, Function.comp_def, byteLength]

theorem columnOf_line (hx : Unbroken x) (hstop : ∀ c ∈ stop, c = '\n' ∨ c = '\r')
    (hend : ∀ c ∈ (stop ++ rest).head?, Text.isTerminator c = true) (n : Nat) :
    columnOf (x ++ stop) n = byteLength (cutColumn (x ++ stop ++ rest) n).1 := by
  have hlast : ∀ c ∈ x.getLast?, c ≠ '\n' ∧ c ≠ '\r' := by
    intro c hc
    simpa [Text.isTerminator] using hx.isTerminator c (List.mem_of_getLast? hc)
  rw [columnOf_append hlast hstop, List.append_assoc,
    cutColumn_of_not_terminator hx.isTerminator hend]

/-! ## Texts without a foreign break -/

/-- Without a foreign break every place has the offset that an editor means. -/
theorem offsetAt?_eq_editorOffsetAt? (ht : ∀ c ∈ t, c ∉ foreignBreaks) (l n : Nat) :
    t.offsetAt? l n = t.editorOffsetAt? l n := by
  induction t using line_induction generalizing l with
  | last t hu =>
    cases l with
    | zero =>
      have hcolumn := @columnOf_line t [] [] hu nofun nofun n
      simp only [List.append_nil] at hcolumn
      rw [offsetAt?_zero (lines_of_unbroken hu), hcolumn]
      rfl
    | succ l =>
      simp [offsetAt?, lines_of_unbroken hu, editorOffsetAt?, cutAt?,
        cutLine?_of_not_terminator hu.isTerminator]
  | line x stop rest hx hstop ih =>
    have hown : ∀ c ∈ stop, c ∉ foreignBreaks := fun c hc => ht c (by simp [hc])
    obtain ⟨hterm, -⟩ := hstop.terminators hown
    cases l with
    | zero =>
      have hend : ∀ c ∈ (stop ++ rest).head?, Text.isTerminator c = true := by
        intro c hc
        obtain ⟨d, ds, rfl⟩ := List.exists_cons_of_ne_nil hstop.ne_nil
        obtain rfl : d = c := Option.some.inj hc
        simpa [Text.isTerminator] using hterm d List.mem_cons_self
      rw [offsetAt?_zero (lines_append hx hstop), columnOf_line hx hterm hend]
      rfl
    | succ l =>
      rw [offsetAt?_succ (lines_append hx hstop), editorOffsetAt?_succ (cutLine?_line hx hstop hown),
        ih fun c hc => ht c (by simp [hc])]

theorem length_le_iff_byteLength_le {a' b' : Text} (h : a ++ b = a' ++ b') :
    a.length ≤ a'.length ↔ byteLength a ≤ byteLength a' := by
  have hle : ∀ {a b a' b' : Text}, a ++ b = a' ++ b' → a.length ≤ a'.length →
      byteLength a ≤ byteLength a' := by
    intro a b a' b' h hlen
    obtain ⟨m, rfl⟩ := List.prefix_of_prefix_length_le (List.prefix_append a b)
      (h ▸ List.prefix_append a' b') hlen
    simp [byteLength]
  refine ⟨hle h, fun hbytes => ?_⟩
  rcases Nat.le_total a.length a'.length with hlen | hlen
  · exact hlen
  · -- Equally many bytes up to both cuts: nothing stands between the two.
    obtain ⟨m, rfl⟩ := List.prefix_of_prefix_length_le (List.prefix_append a' b')
      (h ▸ List.prefix_append a b) hlen
    cases m with
    | nil => simp
    | cons c m =>
      have := c.utf8Size_pos
      simp only [byteLength, width_append, width_cons] at hbytes
      omega

theorem splice_of_cuts {a' b' new : Text} (h : a ++ b = t) (h' : a' ++ b' = t) :
    t.splice (byteLength a) (byteLength a') new = a ++ new ++ b' := by
  have hindex : ∀ {a b : Text}, a ++ b = t → t.indexAt Char.utf8Size (byteLength a) = a.length := by
    rintro a b rfl
    exact indexAt_width Char.utf8Size_pos a b
  have htake : t.take a.length = a := by rw [← h, List.take_left]
  have hdrop : t.drop a'.length = b' := by rw [← h', List.drop_left]
  rw [splice, hindex h, hindex h', htake, hdrop]

/-- Without a foreign break an edit does what an editor means by it. -/
theorem edit?_eq_editorEdit? (ht : ∀ c ∈ t, c ∉ foreignBreaks) (e : Edit) :
    t.edit? e = t.editorEdit? e := by
  unfold edit? editorEdit? offsetsOf?
  cases e.range? with
  | none => rfl
  | some r =>
    have hoffset : ∀ p, t.offsetOf? p = (t.placeOf? p).map fun (before, _) => byteLength before :=
      fun p => offsetAt?_eq_editorOffsetAt? ht _ _
    simp only [hoffset]
    cases hstart : t.placeOf? r.start with
    | none => rfl
    | some start =>
      cases hstop : t.placeOf? r.stop with
      | none => rfl
      | some stop =>
        obtain ⟨a, b⟩ := start
        obtain ⟨a', b'⟩ := stop
        have ha := placeOf?_append hstart
        have ha' := placeOf?_append hstop
        simp only [Option.map_some, ← length_le_iff_byteLength_le (ha.trans ha'.symm)]
        split
        · rw [Option.map_some, splice_of_cuts ha ha']
        · rfl

/-! ## Texts with a foreign break -/

/-- A foreign break starts a line of the buffer, where an editor's next line is further on or not
there at all. -/
theorem offsetAt?_ne_of_foreignBreak (hx : Unbroken x) (hc : c ∈ foreignBreaks) (rest : Text) :
    (x ++ [c] ++ rest).offsetAt? 1 0 ≠ (x ++ [c] ++ rest).editorOffsetAt? 1 0 := by
  have hstop : EndsLine [c] rest := by
    refine .single (isLineBreak_iff.2 (.inr hc)) ?_
    rintro ⟨rfl, -⟩
    exact absurd hc (by decide)
  obtain ⟨line, ls, hls⟩ := List.exists_cons_of_ne_nil (linesBy_ne_nil isLineBreak rest)
  have hbuffer : (x ++ [c] ++ rest).offsetAt? 1 0 = some (byteLength (x ++ [c])) := by
    rw [offsetAt?_succ (lines_append hx hstop), offsetAt?_zero hls, columnOf_zero]
    rfl
  have hno : ∀ d ∈ x ++ [c], Text.isTerminator d = false := by
    intro d hd
    rcases List.mem_append.1 hd with hd | hd
    · exact hx.isTerminator d hd
    · rw [List.mem_singleton.1 hd]
      exact isTerminator_of_mem_foreignBreaks hc
  have hcut := cutLine?_append_of_not_terminator hno rest
  rw [hbuffer]
  cases hline : cutLine? rest with
  | none =>
    rw [hline, Option.map_none] at hcut
    have heditor : (x ++ [c] ++ rest).editorOffsetAt? 1 0 = none := by
      simp only [editorOffsetAt?, cutAt?, hcut, Option.bind_none, Option.map_none]
    rw [heditor]
    exact Option.some_ne_none _
  | some cut =>
    obtain ⟨line, further⟩ := cut
    rw [hline, Option.map_some] at hcut
    obtain ⟨d, line', rfl⟩ := List.exists_cons_of_ne_nil (cutLine?_append hline).2
    have hfirst : further.editorOffsetAt? 0 0 = some (byteLength (cutColumn further 0).1) := rfl
    have := d.utf8Size_pos
    rw [editorOffsetAt?_succ hcut, hfirst, Option.map_some, ne_eq, Option.some.injEq]
    simp only [byteLength, width_append, width_cons]
    omega

/-- Behind the first foreign break stands a line of the buffer that no editor knows there. -/
theorem exists_offsetAt?_ne (h : ∃ c ∈ t, c ∈ foreignBreaks) :
    ∃ l < t.lines.length, t.offsetAt? l 0 ≠ t.editorOffsetAt? l 0 := by
  induction t using line_induction with
  | last t hu =>
    obtain ⟨c, hc, hforeign⟩ := h
    exact absurd (isLineBreak_iff.2 (.inr hforeign)) (Bool.eq_false_iff.1 (hu c hc))
  | line x stop rest hx hstop ih =>
    have hlines := lines_append hx hstop
    rw [hlines, List.length_cons]
    by_cases hown : ∀ c ∈ stop, c ∉ foreignBreaks
    · have hrest : ∃ c ∈ rest, c ∈ foreignBreaks := by
        obtain ⟨c, hc, hforeign⟩ := h
        rcases List.mem_append.1 hc with hc | hc
        · rcases List.mem_append.1 hc with hc | hc
          · exact absurd (isLineBreak_iff.2 (.inr hforeign)) (Bool.eq_false_iff.1 (hx c hc))
          · exact absurd hforeign (hown c hc)
        · exact ⟨c, hc, hforeign⟩
      obtain ⟨l, hl, hne⟩ := ih hrest
      refine ⟨l + 1, Nat.succ_lt_succ hl, ?_⟩
      rw [offsetAt?_succ hlines, editorOffsetAt?_succ (cutLine?_line hx hstop hown)]
      exact fun heq => hne (Option.map_injective (fun _ _ => Nat.add_left_cancel) heq)
    · cases hstop with
      | pair rest => exact absurd (by simp [foreignBreaks]) hown
      | @single c _ hc hpair =>
        have hforeign : c ∈ foreignBreaks := by simpa using hown
        have hpos := List.length_pos_iff.2 (linesBy_ne_nil isLineBreak rest)
        exact ⟨1, Nat.succ_lt_succ hpos, offsetAt?_ne_of_foreignBreak hx hforeign rest⟩

/-- **Positions and edits mean what an editor means by them exactly in texts without a foreign
break.** There every line and count of code units has the offset of the place that an editor means,
or none where an editor knows no such line, and every edit replaces what the editor replaced. In a
text with a vertical tab, a form feed, a next line, or a line or paragraph separator, some place has
another offset. It is one that a position names, as long as 32 bits number the lines of the text. -/
theorem offsetOf?_edit?_iff (t : Text) :
    (((∀ l n, t.offsetAt? l n = t.editorOffsetAt? l n) ∧ ∀ e, t.edit? e = t.editorEdit? e) ↔
      ∀ c ∈ t, c ∉ ['\x0b', '\x0c', '\u0085', '\u2028', '\u2029']) ∧
    (t.lines.length ≤ UInt32.size →
      (((∀ p, t.offsetOf? p = t.editorOffset? p) ∧ ∀ e, t.edit? e = t.editorEdit? e) ↔
        ∀ c ∈ t, c ∉ ['\x0b', '\x0c', '\u0085', '\u2028', '\u2029'])) := by
  have hall : ∀ ht : ∀ c ∈ t, c ∉ foreignBreaks,
      (∀ l n, t.offsetAt? l n = t.editorOffsetAt? l n) ∧ ∀ e, t.edit? e = t.editorEdit? e :=
    fun ht => ⟨offsetAt?_eq_editorOffsetAt? ht, edit?_eq_editorEdit? ht⟩
  refine ⟨⟨?_, hall⟩, fun hlines => ⟨?_, fun ht => ⟨fun p => (hall ht).1 _ _, (hall ht).2⟩⟩⟩
  · rintro ⟨hoffset, -⟩ c hc hforeign
    obtain ⟨l, -, hne⟩ := exists_offsetAt?_ne ⟨c, hc, hforeign⟩
    exact hne (hoffset l 0)
  · rintro ⟨hoffset, -⟩ c hc hforeign
    obtain ⟨l, hl, hne⟩ := exists_offsetAt?_ne ⟨c, hc, hforeign⟩
    have hline : (UInt32.ofNat l).toNat = l :=
      UInt32.toNat_ofNat_of_lt' (Nat.lt_of_lt_of_le hl hlines)
    have heq := hoffset ⟨.ofNat l, 0⟩
    rw [offsetOf?, editorOffset?, hline] at heq
    exact hne heq

/-- Carriage returns, alone or before a line feed, break lines for both. -/
theorem offsetOf?_edit?_iff_returns :
    let t : Text := ['a', '\r', '\n', 'b', '\r', 'c']
    t.lines.length ≤ UInt32.size ∧
      (∀ p, t.offsetOf? p = t.editorOffset? p) ∧ ∀ e, t.edit? e = t.editorEdit? e := by
  intro t
  have hlines : t.lines.length ≤ UInt32.size := by decide +kernel
  exact ⟨hlines, ((offsetOf?_edit?_iff t).2 hlines).2 (by simp [t])⟩

/-- After a vertical tab the buffer has a second line where an editor has one line only. -/
theorem not_forall_offsetOf?_eq :
    ¬∀ t : Text, (∀ p, t.offsetOf? p = t.editorOffset? p) ∧ ∀ e, t.edit? e = t.editorEdit? e := by
  intro hall
  have hbuffer : offsetOf? ['a', '\x0b', 'b'] ⟨1, 0⟩ = some 2 := by decide
  have heditor : editorOffset? ['a', '\x0b', 'b'] ⟨1, 0⟩ = none := by decide
  rw [(hall _).1, heditor] at hbuffer
  exact nomatch hbuffer

end Text
end ElmScope
