import ElmScope.Proofs.Text.Places
import Mathlib.Data.List.Basic
import Mathlib.Order.Bounds.Defs
import Mathlib.Tactic.ByContra
/-!
# Offsets, positions and back

A carriage return and its line feed end a line together, so no position names the place between
them. The boundaries of a text are the offsets between two of its characters that do not divide such
a pair. The position of an offset leads back to the last boundary up to it, on boundaries the two
conversions are inverse, and both keep the order.

Positions have 32 bits. Where the line of an offset or the code units before it there do not fit,
the position is that of another, earlier place, so none of this holds there but the order of
offsets along positions.

* `offsetAt?_locate` — the place of any cut of a text leads back to the cut, or before the pair
  that the cut divides
* `offsetOf?_positionOf_lt` — a position that wrapped around leads to an earlier offset
* `offsetOf?_mono` — later positions have later offsets
* `offsetOf?_positionOf_snaps` — the round trip, and the order in both directions
-/
namespace ElmScope

namespace Position

/-- Positions are ordered by line, then by character. -/
instance : LT Position := ⟨fun p q => p.line < q.line ∨ p.line = q.line ∧ p.character < q.character⟩

instance : LE Position := ⟨fun p q => p.line < q.line ∨ p.line = q.line ∧ p.character ≤ q.character⟩

theorem lt_def {p q : Position} : p < q ↔ p.line.toNat < q.line.toNat ∨
    p.line.toNat = q.line.toNat ∧ p.character.toNat < q.character.toNat :=
  or_congr_right (and_congr_left fun _ => UInt32.toNat_inj.symm)

theorem le_def {p q : Position} : p ≤ q ↔ p.line.toNat < q.line.toNat ∨
    p.line.toNat = q.line.toNat ∧ p.character.toNat ≤ q.character.toNat :=
  or_congr_right (and_congr_left fun _ => UInt32.toNat_inj.symm)

theorem not_lt {p q : Position} : ¬p < q ↔ q ≤ p := by
  rw [lt_def, le_def]
  omega

end Position

namespace Text

/-- Whether a cut of a text stands between a carriage return and the line feed after it. -/
def Divides (a b : Text) : Prop := a.getLast? = some '\r' ∧ b.head? = some '\n'

instance (a b : Text) : Decidable (Divides a b) := inferInstanceAs (Decidable (_ ∧ _))

/-- What stands before a cut, without the carriage return of a pair that the cut divides. -/
def beforePair (a b : Text) : Text := if Divides a b then a.dropLast else a

/-- The offsets between two characters of a text that are not both halves of one line break. -/
def IsBoundary (t : Text) (n : Nat) : Prop :=
  ∃ a b, a ++ b = t ∧ byteLength a = n ∧ ¬Divides a b

variable {t x a b m stop rest line : Text} {c : Char} {k n o l : Nat} {p q : Position}

/-! ## Cuts -/

theorem indexAt_byteLength (a b : Text) : (a ++ b).indexAt Char.utf8Size (byteLength a) = a.length :=
  indexAt_width Char.utf8Size_pos a b

/-- A cut that divides a pair stands after its carriage return. -/
theorem Divides.exists_eq (h : Divides a b) :
    ∃ y z, a = y ++ ['\r'] ∧ b = '\n' :: z ∧ beforePair a b = y := by
  obtain ⟨y, hy⟩ := List.getLast?_eq_some_iff.1 h.1
  obtain ⟨z, hz⟩ := List.head?_eq_some_iff.1 h.2
  refine ⟨y, z, hy, hz, ?_⟩
  rw [beforePair, if_pos h, hy, List.dropLast_concat]

theorem beforePair_of_not_divides (h : ¬Divides a b) : beforePair a b = a := if_neg h

theorem Unbroken.not_divides (h : Unbroken a) (b : Text) : ¬Divides a b := by
  intro hd
  have := h '\r' (List.mem_of_getLast? hd.1)
  exact absurd this (by decide)

/-- A cut at the end of a line divides no pair. -/
theorem EndsLine.not_divides (h : EndsLine stop rest) (x : Text) : ¬Divides (x ++ stop) rest := by
  rintro ⟨hlast, hhead⟩
  cases h with
  | pair rest => simp at hlast
  | @single c _ hc hpair =>
    have hcr : c = '\r' := by simpa using hlast
    exact hpair ⟨hcr, hhead⟩

theorem divides_append_iff (hne : a ≠ []) : Divides (m ++ a) b ↔ Divides a b := by
  rw [Divides, Divides, List.getLast?_append_of_ne_nil m hne]

/-- What ends a line has no part in the pairs after it. -/
theorem beforePair_line (h : EndsLine stop (a ++ b)) (x : Text) :
    beforePair (x ++ stop ++ a) b = x ++ stop ++ beforePair a b := by
  cases a with
  | nil =>
    have hline : ¬Divides (x ++ stop) b := h.not_divides x
    have hno : ¬Divides [] b := fun hd => nomatch hd.1
    rw [List.append_nil, beforePair_of_not_divides hline, beforePair_of_not_divides hno,
      List.append_nil]
  | cons c a =>
    have hne : c :: a ≠ [] := List.cons_ne_nil c a
    unfold beforePair
    by_cases hd : Divides (c :: a) b
    · rw [if_pos hd, if_pos ((divides_append_iff hne).2 hd), List.dropLast_append_of_ne_nil hne]
    · rw [if_neg hd, if_neg (mt (divides_append_iff hne).1 hd)]

/-! ## Columns in a line -/

/-- What stands in a line before its break keeps its column. -/
theorem columnOf_unitLength (h : a <+: trimBreak line) :
    columnOf line (unitLength a) = byteLength a := by
  obtain ⟨z, hz⟩ := h
  rw [columnOf, ← hz, unitLength, unitLength, indexAt_min_width, indexAt_width unitSize_pos,
    List.take_left]

/-- Behind the break of a line is the end of the line before its break. -/
theorem columnOf_of_le (h : unitLength (trimBreak line) ≤ n) :
    columnOf line n = byteLength (trimBreak line) := by
  have hend := indexAt_width unitSize_pos (trimBreak line) []
  rw [List.append_nil] at hend
  rw [columnOf, Nat.min_eq_right h, unitLength, hend, List.take_length]

theorem indexAt_lt {w : Char → Nat} (h : n < width w a) (b : Text) :
    (a ++ b).indexAt w n < a.length := by
  induction a generalizing n with
  | nil => exact absurd h (Nat.not_lt_zero n)
  | cons c a ih =>
    rw [width_cons] at h
    rw [List.cons_append, indexAt]
    split
    · exact Nat.succ_pos _
    · exact Nat.succ_lt_succ (ih (by omega))

/-- Fewer code units than a part of a line has lead into the part. -/
theorem columnOf_lt (h : a <+: trimBreak line) (hn : n < unitLength a) :
    columnOf line n < byteLength a := by
  obtain ⟨z, hz⟩ := h
  have hindex := indexAt_lt hn z
  rw [columnOf, ← hz, unitLength, indexAt_min_width,
    List.take_append_of_le_length (Nat.le_of_lt hindex)]
  have hrest := length_le_byteLength (a.drop ((a ++ z).indexAt unitSize n))
  have hsum := byteLength_append (a.take ((a ++ z).indexAt unitSize n))
    (a.drop ((a ++ z).indexAt unitSize n))
  rw [List.take_append_drop] at hsum
  rw [List.length_drop] at hrest
  omega

theorem columnOf_le (line : Text) (n : Nat) : columnOf line n ≤ byteLength line := by
  obtain ⟨z, hz⟩ := isPrefix_trimBreak line
  have htake := width_take_mono Char.utf8Size (trimBreak line)
    (indexAt_le_length unitSize (trimBreak line) (min n (trimBreak line).unitLength))
  rw [List.take_length] at htake
  have hline := byteLength_append (trimBreak line) z
  rw [hz] at hline
  rw [columnOf, hline]
  exact Nat.le_add_right_of_le htake

theorem columnOf_mono (line : Text) (h : n ≤ k) : columnOf line n ≤ columnOf line k := by
  unfold columnOf
  refine width_take_mono _ _ (indexAt_mono _ _ ?_)
  omega

/-- What a line starts with stays when its line feed and carriage return go. -/
theorem Unbroken.isPrefix_trimBreak_append (hx : Unbroken x) (h : EndsLine stop rest) :
    x <+: trimBreak (x ++ stop) := by
  by_cases hstop : ∀ c ∈ stop, c = '\n' ∨ c = '\r'
  · exact (trimBreak_append hx.ne_of_getLast? hstop).symm ▸ List.prefix_rfl
  · cases h with
    | pair rest => exact absurd (by simp) hstop
    | @single c _ hc hpair =>
      have hforeign : c ≠ '\n' ∧ c ≠ '\r' := by simpa [not_or] using hstop
      have hkeep := @trimBreak_append (x ++ [c]) [] (by simpa using hforeign) nofun
      rw [List.append_nil] at hkeep
      rw [hkeep]
      exact List.prefix_append _ _

/-- A cut inside a line is one of what stands before the break, or divides the break. -/
theorem EndsLine.cut_cases (h : EndsLine stop rest) (hcut : a ++ m = x ++ stop) (hm : m ≠ []) :
    a <+: x ∨ stop = ['\r', '\n'] ∧ a = x ++ ['\r'] ∧ m = ['\n'] := by
  rcases List.append_eq_append_iff.1 hcut with ⟨y, hx, -⟩ | ⟨y, rfl, hstop⟩
  · exact .inl ⟨y, hx.symm⟩
  · cases y with
    | nil =>
      rw [List.append_nil]
      exact .inl List.prefix_rfl
    | cons d y =>
      obtain ⟨e, z, rfl⟩ := List.exists_cons_of_ne_nil hm
      cases h with
      | pair rest =>
        obtain ⟨rfl, hrest⟩ := List.cons.inj hstop
        have hy : y = [] := by
          cases y with
          | nil => rfl
          | cons f y => simp at hrest
        subst hy
        exact .inr ⟨rfl, rfl, hrest.symm⟩
      | single hc hpair => simp at hstop

/-! ## From a cut to its place and back -/

/-- The line that a cut stands in, with what stands before the cut there. Of a line break only a
carriage return may, if the cut divides a pair. -/
theorem exists_line_of_cut (hcut : a ++ b = t) : ∃ line y,
    t.lines[(locate t.lines a.length).line]? = some line ∧ y <+: trimBreak line ∧
      ((locate t.lines a.length).units = unitLength y ∨
        y = trimBreak line ∧ (locate t.lines a.length).units = unitLength y + 1) ∧
      t.lineStart (locate t.lines a.length).line + byteLength y = byteLength (beforePair a b) := by
  induction t using line_induction generalizing a with
  | last t hu =>
    have ha : Unbroken a := fun c hc => hu c (hcut ▸ List.mem_append_left b hc)
    have htrim : trimBreak t = t := by
      simpa using @trimBreak_append t [] hu.ne_of_getLast? nofun
    have htake : t.take a.length = a := by rw [← hcut, List.take_left]
    rw [beforePair_of_not_divides (ha.not_divides b), lines_of_unbroken hu, locate, htake]
    refine ⟨t, a, rfl, ?_, .inl rfl, Nat.zero_add _⟩
    rw [htrim, ← hcut]
    exact List.prefix_append a b
  | line x stop rest hx hstop ih =>
    have hlines := lines_append hx hstop
    rw [hlines, locate_cons]
    by_cases hlength : a.length < (x ++ stop).length
    · -- The cut is in the first line.
      obtain ⟨m, hm⟩ := List.prefix_of_prefix_length_le (List.prefix_append a b)
        (hcut ▸ List.prefix_append (x ++ stop) rest) (Nat.le_of_lt hlength)
      have hne : m ≠ [] := by
        rintro rfl
        rw [List.append_nil] at hm
        exact absurd hlength (by rw [hm]; exact Nat.lt_irrefl _)
      have hb : b = m ++ rest := by
        rw [← hm, List.append_assoc] at hcut
        exact List.append_cancel_left hcut
      have htake : (x ++ stop).take a.length = a := by rw [← hm, List.take_left]
      rw [if_pos hlength, htake]
      rcases hstop.cut_cases hm hne with hax | ⟨rfl, rfl, rfl⟩
      · have ha : Unbroken a := fun c hc => hx c (hax.subset hc)
        rw [beforePair_of_not_divides (ha.not_divides b)]
        exact ⟨_, a, rfl, hax.trans (hx.isPrefix_trimBreak_append hstop), .inl rfl,
          Nat.zero_add _⟩
      · have hd : Divides (x ++ ['\r']) b := by
          refine ⟨List.getLast?_concat, ?_⟩
          rw [hb]
          rfl
        have htrim : trimBreak (x ++ ['\r', '\n']) = x :=
          trimBreak_append hx.ne_of_getLast? (by simp)
        rw [beforePair, if_pos hd, List.dropLast_concat]
        refine ⟨_, x, rfl, ?_, .inr ⟨htrim.symm, unitLength_append x ['\r']⟩, Nat.zero_add _⟩
        exact htrim.symm ▸ List.prefix_rfl
    · -- The cut is behind it.
      obtain ⟨y, rfl⟩ := List.prefix_of_prefix_length_le (List.prefix_append (x ++ stop) rest)
        (hcut ▸ List.prefix_append a b) (Nat.le_of_not_lt hlength)
      have hrest : y ++ b = rest := by
        rw [List.append_assoc] at hcut
        exact List.append_cancel_left hcut
      subst hrest
      obtain ⟨line, z, hline, hprefix, hunits, hstart⟩ := ih rfl
      rw [if_neg hlength, List.length_append, Nat.add_sub_cancel_left]
      refine ⟨line, z, hline, hprefix, hunits, ?_⟩
      rw [lineStart_succ hlines, Nat.add_assoc, hstart, beforePair_line hstop, ← byteLength_append]

/-- The place of a cut leads back to the cut, or before the pair that the cut divides. -/
theorem offsetAt?_locate (hcut : a ++ b = t) :
    t.offsetAt? (locate t.lines a.length).line (locate t.lines a.length).units =
      some (byteLength (beforePair a b)) := by
  obtain ⟨line, y, hline, hprefix, hunits, hstart⟩ := exists_line_of_cut hcut
  have hcolumn : columnOf line (locate t.lines a.length).units = byteLength y := by
    rcases hunits with hunits | ⟨rfl, hunits⟩
    · rw [hunits, columnOf_unitLength hprefix]
    · exact columnOf_of_le (hunits ▸ Nat.le_succ _)
  rw [offsetAt?, hline, Option.map_some, hcolumn, hstart]

/-- What stands before a cut, but for half a pair, ends at a boundary. -/
theorem isBoundary_beforePair (hcut : a ++ b = t) : t.IsBoundary (byteLength (beforePair a b)) := by
  by_cases hd : Divides a b
  · obtain ⟨y, z, rfl, rfl, hy⟩ := hd.exists_eq
    refine ⟨y, '\r' :: '\n' :: z, ?_, by rw [hy], ?_⟩
    · rw [← hcut, List.append_assoc]
      rfl
    · rintro ⟨-, hhead⟩
      exact absurd (Option.some.inj hhead) (by decide)
  · exact ⟨a, b, hcut, by rw [beforePair_of_not_divides hd], hd⟩

/-- No boundary is between that one and the cut. -/
theorem le_beforePair (hcut : a ++ b = t) (ha : a.length = t.indexAt Char.utf8Size o)
    (hn : t.IsBoundary n) (hno : n ≤ o) : n ≤ byteLength (beforePair a b) := by
  obtain ⟨y, z, hyz, rfl, hnot⟩ := hn
  have hlength : y.length ≤ a.length := by
    rw [ha, ← indexAt_byteLength y z, hyz]
    exact indexAt_mono _ _ hno
  obtain ⟨m, rfl⟩ := List.prefix_of_prefix_length_le (hyz ▸ List.prefix_append y z)
    (hcut ▸ List.prefix_append a b) hlength
  by_cases hd : Divides (y ++ m) b
  · have hm : m ≠ [] := by
      rintro rfl
      rw [List.append_nil] at hcut hd
      rw [← hyz] at hcut
      exact hnot (List.append_cancel_left hcut ▸ hd)
    rw [beforePair, if_pos hd, List.dropLast_append_of_ne_nil hm, byteLength_append]
    exact Nat.le_add_right _ _
  · rw [beforePair_of_not_divides hd, byteLength_append]
    exact Nat.le_add_right _ _

/-- On addressable boundaries the position of an offset leads back to it. -/
theorem IsBoundary.offsetOf?_positionOf (h : t.IsBoundary n) (haddr : t.Addressable n) :
    t.offsetOf? (t.positionOf n) = some n := by
  obtain ⟨a, b, rfl, rfl, hnot⟩ := h
  rw [haddr.offsetOf?_positionOf, linePlaceOf_eq (indexAt_byteLength a b).symm,
    offsetAt?_locate rfl, beforePair_of_not_divides hnot]

/-! ## Order -/

theorem lineStart_mono (t : Text) (h : n ≤ k) : t.lineStart n ≤ t.lineStart k := by
  obtain ⟨ls, hls⟩ := List.take_prefix_take_left (l := t.lines) h
  rw [lineStart, lineStart, ← hls, List.flatten_append, byteLength_append]
  exact Nat.le_add_right _ _

theorem lineStart_add_byteLength (h : t.lines[l]? = some line) :
    t.lineStart l + byteLength line = t.lineStart (l + 1) := by
  rw [lineStart, lineStart, List.take_add_one, h, List.flatten_append, byteLength_append,
    Option.toList_some, List.flatten_singleton]

/-- A later place has a later offset. -/
theorem offsetAt?_mono {l' n' : Nat} (hle : l < l' ∨ l = l' ∧ n ≤ n')
    (h : t.offsetAt? l n = some k) (h' : t.offsetAt? l' n' = some o) : k ≤ o := by
  obtain ⟨line, hline, rfl⟩ := Option.map_eq_some_iff.1 h
  obtain ⟨line', hline', rfl⟩ := Option.map_eq_some_iff.1 h'
  rcases hle with hlt | ⟨rfl, hle⟩
  · -- The earlier line has ended where the later one starts.
    calc t.lineStart l + columnOf line n
        ≤ t.lineStart l + byteLength line := Nat.add_le_add_left (columnOf_le line n) _
      _ = t.lineStart (l + 1) := lineStart_add_byteLength hline
      _ ≤ t.lineStart l' := lineStart_mono t hlt
      _ ≤ t.lineStart l' + columnOf line' n' := Nat.le_add_right _ _
  · obtain rfl := Option.some.inj (hline.symm.trans hline')
    exact Nat.add_le_add_left (columnOf_mono line hle) _

/-- A later position has a later offset. -/
theorem offsetOf?_mono (hpq : p ≤ q) (hp : t.offsetOf? p = some n) (hq : t.offsetOf? q = some k) :
    n ≤ k := offsetAt?_mono (Position.le_def.1 hpq) hp hq

theorem exists_offsetAt? (h : l < t.lines.length) (n : Nat) : ∃ k, t.offsetAt? l n = some k := by
  rw [offsetAt?, List.getElem?_eq_getElem h]
  exact ⟨_, rfl⟩

/-- Every line but the last has a character, its break. -/
theorem lineStart_lt (h : l + 1 < t.lines.length) : t.lineStart l < t.lineStart (l + 1) := by
  induction t using line_induction generalizing l with
  | last t hu =>
    rw [lines_of_unbroken hu] at h
    exact absurd h (by simp)
  | line x stop rest hx hstop ih =>
    have hlines := lines_append hx hstop
    rw [lineStart_succ hlines]
    cases l with
    | zero =>
      have hpos := List.length_pos_iff.2 hstop.ne_nil
      have hlength := length_le_byteLength (x ++ stop)
      have hzero : (x ++ stop ++ rest).lineStart 0 = 0 := rfl
      rw [List.length_append] at hlength
      omega
    | succ l =>
      rw [hlines, List.length_cons] at h
      rw [lineStart_succ hlines]
      exact Nat.add_lt_add_left (ih (Nat.lt_of_succ_lt_succ h)) _

/-! ## Positions that wrapped around -/

/-- Where line or code units do not fit into 32 bits, what is left of them leads to an earlier
offset. -/
theorem offsetOf?_positionOf_lt (hcut : a ++ b = t) (ha : a.length = t.indexAt Char.utf8Size o)
    (h : ¬t.Addressable o) :
    ∃ k, t.offsetOf? (t.positionOf o) = some k ∧ k < byteLength (beforePair a b) := by
  obtain ⟨line, y, hline, hprefix, hunits, hstart⟩ := exists_line_of_cut hcut
  rw [← linePlaceOf_eq ha] at hline hunits hstart
  have hsize : UInt32.size = 4294967296 := rfl
  have hrow : (t.positionOf o).line.toNat = (t.linePlaceOf o).line % 2 ^ 32 :=
    UInt32.toNat_ofNat'
  have hcharacter : (t.positionOf o).character.toNat = (t.linePlaceOf o).units % 2 ^ 32 :=
    UInt32.toNat_ofNat'
  obtain ⟨hlt, -⟩ := List.getElem?_eq_some_iff.1 hline
  rw [offsetOf?, hrow, hcharacter, ← hstart]
  by_cases hfits : (t.linePlaceOf o).line < UInt32.size
  · -- The line is the same, with fewer code units in it.
    have hover : UInt32.size ≤ (t.linePlaceOf o).units := Nat.le_of_not_lt fun hu => h ⟨hfits, hu⟩
    have hfewer : (t.linePlaceOf o).units % 2 ^ 32 < unitLength y := by omega
    have hsame : (t.linePlaceOf o).line % 2 ^ 32 = (t.linePlaceOf o).line := Nat.mod_eq_of_lt hfits
    rw [hsame, offsetAt?, hline, Option.map_some]
    exact ⟨_, rfl, Nat.add_lt_add_left (columnOf_lt hprefix hfewer) _⟩
  · -- The line is an earlier one, and not the one before.
    generalize hl : (t.linePlaceOf o).line % 2 ^ 32 = l
    have hbefore : l + 1 < (t.linePlaceOf o).line := by omega
    obtain ⟨k, hk⟩ := exists_offsetAt? (Nat.lt_trans (Nat.lt_of_succ_lt hbefore) hlt)
      ((t.linePlaceOf o).units % 2 ^ 32)
    obtain ⟨k', hk'⟩ := exists_offsetAt? (Nat.lt_trans hbefore hlt) 0
    refine ⟨k, hk, ?_⟩
    have hle := offsetAt?_mono (.inl (Nat.lt_succ_self l)) hk hk'
    have hnext := lineStart_lt (Nat.lt_of_le_of_lt hbefore hlt)
    have hrest : t.lineStart (l + 1 + 1) ≤ t.lineStart (t.linePlaceOf o).line :=
      lineStart_mono t hbefore
    obtain ⟨line', -, rfl⟩ := Option.map_eq_some_iff.1 hk'
    rw [columnOf_zero, Nat.add_zero] at hle
    omega

/-- The position of an offset leads back to the greatest boundary up to it, or to an earlier offset
if it wrapped around. -/
theorem exists_snapped (t : Text) (o : Nat) :
    ∃ s, IsGreatest {n | t.IsBoundary n ∧ n ≤ min o t.byteLength} s ∧
      (t.Addressable o → t.offsetOf? (t.positionOf o) = some s) ∧
      (¬t.Addressable o → ∃ k, t.offsetOf? (t.positionOf o) = some k ∧ k < s) := by
  obtain ⟨a, b, hcut, ha, hle⟩ := exists_cut t o
  have hshort : byteLength (beforePair a b) ≤ byteLength a := by
    by_cases hd : Divides a b
    · obtain ⟨y, z, rfl, -, hy⟩ := hd.exists_eq
      rw [hy, byteLength_append]
      exact Nat.le_add_right _ _
    · exact Nat.le_of_eq (by rw [beforePair_of_not_divides hd])
  refine ⟨byteLength (beforePair a b), ⟨⟨isBoundary_beforePair hcut, Nat.le_trans hshort hle⟩,
    fun n ⟨hn, hno⟩ => ?_⟩, fun haddr => ?_, offsetOf?_positionOf_lt hcut ha⟩
  · exact le_beforePair hcut ha hn (Nat.le_trans hno (Nat.min_le_left _ _))
  · rw [haddr.offsetOf?_positionOf, linePlaceOf_eq ha, offsetAt?_locate hcut]

/-- No position of an offset leads behind it. -/
theorem exists_offsetOf?_positionOf_le (t : Text) (o : Nat) :
    ∃ k, t.offsetOf? (t.positionOf o) = some k ∧ k ≤ o := by
  obtain ⟨s, ⟨⟨-, hle⟩, -⟩, hfits, hwraps⟩ := exists_snapped t o
  have hso : s ≤ o := Nat.le_trans hle (Nat.min_le_left _ _)
  by_cases haddr : t.Addressable o
  · exact ⟨s, hfits haddr, hso⟩
  · obtain ⟨k, hk, hlt⟩ := hwraps haddr
    exact ⟨k, hk, Nat.le_trans (Nat.le_of_lt hlt) hso⟩

/-- **Offsets and positions are inverse up to snapping, as far as 32 bits reach.** The position of
an offset leads back to the greatest boundary that is neither past the offset nor past the end of
the text, exactly if the line and the code units of the place fit into 32 bits; in the first four
gigabytes of a text they do. On boundaries later offsets have later positions, as long as the later
one fits, and on all lines of the text later positions have no earlier offsets. -/
theorem offsetOf?_positionOf_snaps (t : Text) :
    (∀ o, ∃ s, IsGreatest {n | t.IsBoundary n ∧ n ≤ min o t.byteLength} s ∧
      (t.offsetOf? (t.positionOf o) = some s ↔ t.Addressable o)) ∧
    (∀ o, min o t.byteLength < UInt32.size → t.Addressable o) ∧
    (∀ m n, t.IsBoundary m → t.IsBoundary n → t.Addressable n → m < n →
      t.positionOf m < t.positionOf n) ∧
    (∀ p q : Position, p.line.toNat < t.lines.length → q.line.toNat < t.lines.length → p ≤ q →
      ∃ m n, t.offsetOf? p = some m ∧ t.offsetOf? q = some n ∧ m ≤ n) := by
  refine ⟨fun o => ?_, fun o => addressable_of_lt, fun m n hm hn haddr hmn => ?_,
    fun p q hp hq hpq => ?_⟩
  · obtain ⟨s, hgreatest, hfits, hwraps⟩ := exists_snapped t o
    refine ⟨s, hgreatest, fun heq => ?_, hfits⟩
    by_contra haddr
    obtain ⟨k, hk, hlt⟩ := hwraps haddr
    obtain rfl := Option.some.inj (hk.symm.trans heq)
    exact absurd hlt (Nat.lt_irrefl k)
  · -- Whether the earlier one fits or not, its position has no later offset.
    obtain ⟨k, hk, hkm⟩ := exists_offsetOf?_positionOf_le t m
    by_contra hnot
    have := offsetOf?_mono (Position.not_lt.1 hnot) (hn.offsetOf?_positionOf haddr) hk
    omega
  · obtain ⟨m, hm⟩ := exists_offsetAt? hp p.character.toNat
    obtain ⟨n, hn⟩ := exists_offsetAt? hq q.character.toNat
    exact ⟨m, n, hm, hn, offsetOf?_mono hpq hm hn⟩

/-- An offset inside the pair leads back before it, one inside a character of four bytes to its
start; the boundaries around the pair are in two lines, and a place behind the first line is no
later than one in the second. -/
theorem offsetOf?_positionOf_snaps_pair :
    let t : Text := ['a', '\r', '\n', '😀']
    (t.offsetOf? (t.positionOf 2) = some 1 ∧ IsGreatest {n | t.IsBoundary n ∧ n ≤ 2} 1) ∧
      (t.offsetOf? (t.positionOf 5) = some 3 ∧ IsGreatest {n | t.IsBoundary n ∧ n ≤ 5} 3) ∧
      (t.IsBoundary 1 ∧ t.IsBoundary 3 ∧ t.positionOf 1 < t.positionOf 3) ∧
      ∃ m n, t.offsetOf? ⟨0, 9⟩ = some m ∧ t.offsetOf? ⟨1, 1⟩ = some n ∧ m ≤ n := by
  intro t
  obtain ⟨hround, haddr, hstrict, hmono⟩ := offsetOf?_positionOf_snaps t
  have htwo : t.offsetOf? (t.positionOf 2) = some 1 := by decide
  have hfive : t.offsetOf? (t.positionOf 5) = some 3 := by decide
  have hone : t.IsBoundary 1 := ⟨['a'], ['\r', '\n', '😀'], rfl, by decide, by decide⟩
  have hthree : t.IsBoundary 3 := ⟨['a', '\r', '\n'], ['😀'], rfl, by decide, by decide⟩
  obtain ⟨m, hm, hiff⟩ := hround 2
  obtain ⟨n, hn, hiff'⟩ := hround 5
  obtain rfl := Option.some.inj (htwo.symm.trans (hiff.2 (haddr 2 (by decide))))
  obtain rfl := Option.some.inj (hfive.symm.trans (hiff'.2 (haddr 5 (by decide))))
  exact ⟨⟨htwo, hm⟩, ⟨hfive, hn⟩,
    ⟨hone, hthree, hstrict 1 3 hone hthree (haddr 3 (by decide)) (by decide)⟩,
    hmono ⟨0, 9⟩ ⟨1, 1⟩ (by decide) (by decide) (.inl (by decide))⟩

end Text
end ElmScope
