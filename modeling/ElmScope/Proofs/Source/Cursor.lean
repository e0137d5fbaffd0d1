import ElmScope.Proofs.Text.Places
import ElmScope.Proofs.Tree.Chain
import ElmScope.Workspace.Referent
/-!
# A cursor in a word

An editor names a place by line and code units, a tree by row and bytes, and a cursor right after a
word is to select the word and not what starts there. `nodeAtPosition?_of_isWord` follows a cursor
through all of that: from the offset to the position, to the point in the line, to the character
before it, and down the tree.

The way down takes the first child that ends late enough. Where the spans of a tree are in order,
every sibling before the one on the way to the word has ended before the word starts, so a sibling
without text cannot divert it, nor can a sibling that starts where the cursor stands.

* `descend_eq_of_child` — one step down, on the way to a node around the range
* `namedAt_eq_of_leaf` — the way from the root to a named leaf
* `exists_char_of_mem_word` — the character before a cursor in a word
-/
namespace ElmScope

/-- The spans of a tree are in the order of the source: a child's lies in its parent's, and what
comes first among the children has ended where the next one starts. -/
structure Tree.InOrder (t : Tree) : Prop where
  nested : ∀ n < t.size, ∀ m ∈ t.children n, t.start n ≤ t.start m ∧ t.stop m ≤ t.stop n
  disjoint : ∀ n < t.size, (t.children n).Pairwise fun d m => t.stop d ≤ t.start m

instance (t : Tree) : Decidable t.InOrder :=
  decidable_of_iff
    ((∀ n < t.size, ∀ m ∈ t.children n, t.start n ≤ t.start m ∧ t.stop m ≤ t.stop n) ∧
      ∀ n < t.size, (t.children n).Pairwise fun d m => t.stop d ≤ t.start m)
    ⟨fun h => ⟨h.1, h.2⟩, fun h => ⟨h.1, h.2⟩⟩

/-- A node that is a word of the source: a named leaf over letters, digits and underscores. -/
structure Source.IsWord (s : Source) (n : Nat) : Prop where
  isNamed : s.tree.isNamed n = true
  isLeaf : s.tree.isLeaf n = true
  textOf_ne_empty : s.textOf n ≠ ""
  isWord_of_mem : ∀ c ∈ (s.textOf n).toList, c.isAlphanum = true ∨ c = '_'

namespace Source

variable {s : Source} {a b : Point} {named m n p o : Nat} {c : Char}

/-! ## Down the tree -/

/-- On the way to a range, the child around it is the first one that is not passed over. -/
theorem descend_eq_of_child (h : s.tree.InOrder) (hp : s.tree.shapeParent? m = some p)
    (hab : a < b) (ha : s.startPoint m ≤ a) (hb : b ≤ s.stopPoint m) (named : Nat) :
    s.descend a b named p = s.descend a b (if s.tree.isNamed m then m else named) m := by
  have hmem : m ∈ s.tree.children p := Tree.mem_children_iff.2 hp
  have hsize : p < s.tree.size :=
    Nat.lt_trans (Tree.lt_of_mem_children hmem).1 (Tree.lt_of_mem_children hmem).2
  obtain ⟨before, after, hsplit⟩ := List.append_of_mem hmem
  have hdisjoint := h.disjoint p hsize
  rw [hsplit, List.pairwise_append] at hdisjoint
  have hpassed : ∀ d ∈ before, s.isPassed a b d = true := by
    intro d hd
    have hend : s.stopPoint d ≤ s.startPoint m :=
      Text.pointAt_mono _ (hdisjoint.2.2 d hd m List.mem_cons_self)
    have hlt : s.stopPoint d < b :=
      Point.lt_of_le_of_lt hend (Point.lt_of_le_of_lt ha hab)
    rw [isPassed, decide_eq_true hlt, Bool.true_or]
  have hkept : s.isPassed a b m = false := by
    have hstop : ¬s.stopPoint m < b := Point.not_lt.2 hb
    have hle : ¬s.stopPoint m ≤ a := Point.not_le.2 (Point.lt_of_lt_of_le hab hb)
    have hlt : ¬s.stopPoint m < a := Point.not_lt.2 (Point.le_of_lt (Point.lt_of_lt_of_le hab hb))
    simp [isPassed, hstop, hle, hlt]
  have hfind : (s.tree.children p).find? (fun k => !s.isPassed a b k) = some m := by
    rw [hsplit, List.find?_eq_some_iff_append]
    exact ⟨by simp [hkept], before, after, rfl, fun d hd => by simp [hpassed d hd]⟩
  rw [descend]
  split
  · next hnone => exact absurd (hfind.symm.trans hnone) (Option.some_ne_none _)
  · next k hk =>
    obtain rfl := Option.some.inj (hfind.symm.trans hk)
    rw [if_neg (Point.not_lt.2 ha)]

/-- A named leaf around a range is what the range selects. -/
theorem namedAt_eq_of_leaf (h : s.tree.InOrder) (hnamed : s.tree.isNamed n = true)
    (hleaf : s.tree.children n = []) (hab : a < b) (ha : s.startPoint n ≤ a)
    (hb : b ≤ s.stopPoint n) : s.namedAt a b Tree.root = n := by
  -- From the leaf up: whoever stands on a node on the way ends at the leaf.
  have climb : ∀ m < s.tree.size, s.startPoint m ≤ a → b ≤ s.stopPoint m →
      (∀ named, s.descend a b (if s.tree.isNamed m then m else named) m = n) →
      s.namedAt a b Tree.root = n := by
    intro m hm
    induction m using Nat.strongRecOn with
    | ind m ih =>
      intro ha hb hdown
      cases hp : s.tree.shapeParent? m with
      | none =>
        obtain rfl := (Tree.shapeParent?_eq_none_iff hm).1 hp
        have := hdown Tree.root
        rwa [ite_self] at this
      | some p =>
        have hmem := Tree.mem_children_iff.2 hp
        have hlt : p < m := (Tree.lt_of_mem_children hmem).1
        have hsize : p < s.tree.size := Nat.lt_trans hlt hm
        obtain ⟨hstart, hstop⟩ := h.nested p hsize m hmem
        refine ih p hlt hsize (Point.le_trans (Text.pointAt_mono _ hstart) ha)
          (Point.le_trans hb (Text.pointAt_mono _ hstop)) fun named => ?_
        rw [descend_eq_of_child h hp hab ha hb, hdown]
  have hsize : n < s.tree.size := by
    have hany := hnamed
    rw [Tree.isNamed, Option.any_eq_true] at hany
    obtain ⟨node, hnode, -⟩ := hany
    exact (Array.getElem?_eq_some_iff.1 hnode).1
  refine climb n hsize ha hb fun named => ?_
  have hnone : (s.tree.children n).find? (fun k => !s.isPassed a b k) = none := by
    rw [hleaf, List.find?_nil]
  rw [if_pos hnamed, descend]
  split
  · rfl
  · next k hk => exact absurd (hnone.symm.trans hk) (Option.some_ne_none _).symm

/-! ## The character before the cursor -/

/-- The characters of words are no line breaks and take one byte. -/
theorem isLineBreak_of_isWord (hc : c.isAlphanum = true ∨ c = '_') :
    Text.isLineBreak c = false := by
  rw [Bool.eq_false_iff]
  intro hbreak
  simp only [Text.isLineBreak, Bool.or_eq_true, decide_eq_true_eq] at hbreak
  rcases hbreak with (((((rfl | rfl) | rfl) | rfl) | rfl) | rfl) | rfl
  all_goals exact absurd hc (by decide)

theorem utf8Size_of_isWord (hc : c.isAlphanum = true ∨ c = '_') : c.utf8Size = 1 := by
  rw [Char.utf8Size_eq_one_iff, UInt32.le_iff_toNat_le]
  rcases hc with hc | rfl
  · have hranges : (decide (c.val ≥ 'A'.val ∧ c.val ≤ 'Z'.val) ||
        (decide (c.val ≥ 'a'.val) && decide (c.val ≤ 'z'.val)) ||
        (decide (c.val ≥ '0'.val) && decide (c.val ≤ '9'.val))) = true := hc
    simp only [Bool.or_eq_true, Bool.and_eq_true, decide_eq_true_eq, ge_iff_le,
      UInt32.le_iff_toNat_le] at hranges
    have hZ : 'Z'.val.toNat = 90 := rfl
    have hz : 'z'.val.toNat = 122 := rfl
    have h9 : '9'.val.toNat = 57 := rfl
    have hlast : (127 : UInt32).toNat = 127 := rfl
    omega
  · decide

/-- The character before a cursor in a word is one of the word, and its end is in the word and not
behind the cursor. -/
theorem exists_char_of_mem_word (h : s.IsWord n) (hstart : s.tree.start n < o)
    (hstop : o ≤ s.tree.stop n) :
    ∃ x c y, s.text = x ++ c :: y ∧ (c.isAlphanum = true ∨ c = '_') ∧
      s.text.indexAt Char.utf8Size o = x.length + 1 ∧
      s.tree.start n < Text.byteLength (x ++ [c]) ∧ Text.byteLength (x ++ [c]) ≤ o := by
  have hchars : ∀ c ∈ s.text.slice (s.tree.start n) (s.tree.stop n),
      c.isAlphanum = true ∨ c = '_' := by
    intro c hc
    refine h.isWord_of_mem c ?_
    rwa [textOf, String.toList_ofList]
  have hne : s.text.slice (s.tree.start n) (s.tree.stop n) ≠ [] := by
    intro hnil
    exact h.textOf_ne_empty (by rw [textOf, hnil, String.ofList_nil])
  obtain ⟨x, c, y, htext, hc, hplace⟩ :=
    Text.exists_char_of_slice hne (fun c hc => utf8Size_of_isWord (hchars c hc)) hstart hstop
  exact ⟨x, c, y, htext, hchars c hc, hplace⟩

/-! ## The cursor -/

theorem followsIdentifier_of_char {q : Point} (hc : c.isAlphanum = true ∨ c = '_')
    (hat : (s.text.lineText? q.row).bind (·.charEndingAt? q.column) = some c) :
    s.followsIdentifier q = true := by
  obtain ⟨line, hline, hchar⟩ := Option.bind_eq_some_iff.1 hat
  simp [followsIdentifier, hline, hchar, hc]

/-- **A cursor in a word or right after it selects the word.** In a source whose only line breaks
are line feeds, alone or after a carriage return, and whose spans are in order, the position of
every offset after the start of a word and not after its end selects the word; so a request for the
definition there finds what the word refers to, whichever of those positions it names. -/
theorem nodeAtPosition?_of_isWord (hbreaks : ∀ b ∈ s.text.breaks, b = ['\n'] ∨ b = ['\r', '\n'])
    (h : s.tree.InOrder) (hword : s.IsWord n) (hstart : s.tree.start n < o)
    (hstop : o ≤ s.tree.stop n) :
    s.nodeAtPosition? (s.text.positionOf o) = some n ∧
      ∀ (w : Workspace) (file : FileId), w.source? file = some s →
        (w.referentAt file (s.text.positionOf o)).found = (w.referent s n).found := by
  have hnode : s.nodeAtPosition? (s.text.positionOf o) = some n := by
    obtain ⟨x, c, y, htext, hc, hindex, hfrom, hto⟩ := exists_char_of_mem_word hword hstart hstop
    have haddr : s.text.Addressable o := Text.addressable_of_lt
      (Nat.lt_of_le_of_lt (Nat.min_le_left _ _) (Nat.lt_of_le_of_lt hstop (s.tree.stop_lt n)))
    obtain ⟨q, hpoint, hend, hnext, hat⟩ :=
      Text.point_after hbreaks (isLineBreak_of_isWord hc) htext hindex haddr
    have hsize := utf8Size_of_isWord hc
    have hbytes : Text.byteLength (x ++ [c]) = Text.byteLength x + 1 := by
      simp [Text.byteLength, hsize]
    -- The character takes one column, so the range the cursor looks at starts where it starts.
    have hbefore : (⟨q.row, q.column - 1⟩ : Point) = s.text.pointAt (Text.byteLength x) := by
      rw [hnext, hsize, Nat.add_sub_cancel]
    have hcolumn : 0 < q.column := by
      rw [hnext, hsize]
      exact Nat.succ_pos _
    have hlt : s.text.pointAt (Text.byteLength x) < q := by
      rw [hnext, hsize, Point.lt_def]
      exact .inr ⟨rfl, Nat.lt_succ_self _⟩
    rw [nodeAtPosition?, hpoint, Option.map_some, nodeAt,
      if_pos ⟨hcolumn, followsIdentifier_of_char hc hat⟩, hbefore]
    congr 1
    refine namedAt_eq_of_leaf h hword.isNamed (Tree.children_of_isLeaf hword.isLeaf) hlt ?_ ?_
    · exact Text.pointAt_mono _ (by omega)
    · rw [hend]
      exact Text.pointAt_mono _ (by omega)
  refine ⟨hnode, fun w file hs => ?_⟩
  rw [Workspace.referentAt, hs]
  simp only [Search.bind, Search.ofOption, hnode]

end Source

namespace Sample

def gapNodes : Array TreeNode :=
  #[ ⟨"file", true, none, 2, 13, none⟩,
     ⟨"block_comment", true, none, 2, 8, some 0⟩,
     ⟨"value_declaration", true, none, 8, 13, some 0⟩,
     ⟨"function_declaration_left", true, some "functionDeclarationLeft", 8, 11, some 2⟩,
     ⟨"lower_case_identifier", true, none, 8, 11, some 3⟩,
     ⟨"lower_pattern", true, some "pattern", 11, 11, some 2⟩,
     ⟨"eq", true, none, 11, 12, some 2⟩,
     ⟨"value_expr", true, some "body", 12, 13, some 2⟩ ]

/-- A name with a comment before it, and right behind it a node without text and a token. -/
def gap : Source where
  file := ⟨"file:///src/Gap.elm"⟩
  text := "\r\n\x7b-é-\x7dfoo=x".toList
  tree := ⟨gapNodes, Tree.subtreeEnds gapNodes, [], by decide +kernel⟩
  writeable := true
  isDraft := false

theorem nodeAtPosition?_of_isWord_gap :
    gap.text.positionOf 11 = ⟨1, 8⟩ ∧
      ∀ o, 8 < o → o ≤ 11 → gap.nodeAtPosition? (gap.text.positionOf o) = some 4 := by
  have hbreaks : ∀ b ∈ gap.text.breaks, b = ['\n'] ∨ b = ['\r', '\n'] := by decide +kernel
  have horder : gap.tree.InOrder := by decide +kernel
  have hchars : ((gap.textOf 4).toList.all fun c => c.isAlphanum || c = '_') = true := by
    decide +kernel
  have hword : gap.IsWord 4 :=
    ⟨by decide +kernel, by decide +kernel, by decide +kernel, by simpa using hchars⟩
  have hstart : gap.tree.start 4 = 8 := by decide +kernel
  have hstop : gap.tree.stop 4 = 11 := by decide +kernel
  refine ⟨by decide +kernel, fun o hfrom hto => ?_⟩
  exact (Source.nodeAtPosition?_of_isWord hbreaks horder hword (by omega) (by omega)).1

end Sample
end ElmScope
