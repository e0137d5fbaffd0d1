import ElmScope.Proofs.Tree.Preorder
/-!
# From leaf to leaf

The leaves below a node in document order are those of its children, one child after the other
(`leavesWithin`); in numbers, they are the leaves of the node's block (`leavesWithin_eq_leafBlock`).
Behind the block of `n` comes the node `endOf n`. It is the sibling that a climb from `n` meets
first, so the leaf after the subtree of `n` is the leftmost one of that node (`nextLeaf?_eq_ite`),
which is the first leaf from there on (`nextLeaf?_eq_head?`). Going on like that from a leaf leads
through all later leaves and ends at the last one (`leavesFrom_eq_leafBlock`).

* `nextSibling?_eq_find?` — the sibling after a node is the first child after it
* `leaves_traversal` — the leaves from a node on are a suffix of the leaves of the file
-/
namespace ElmScope
namespace Tree

/-- The leaves of a subtree in document order: a leaf itself, else those of each child in turn. -/
def leavesWithin (t : Tree) (n : Nat) : List Nat :=
  if t.children n = [] then [n]
  else (t.children n).attach.flatMap fun m => leavesWithin t m.1
termination_by t.size - n
decreasing_by
  have := lt_of_mem_children m.2
  omega

/-- The leaves numbered from `a` up to `b`. -/
def leafBlock (t : Tree) (a b : Nat) : List Nat := (List.range' a (b - a)).filter t.isLeaf

variable {t : Tree} {a b c k m n p : Nat}

/-! ## The leaves of a subtree -/

theorem leavesWithin_of_leaf (h : t.children n = []) : t.leavesWithin n = [n] := by
  rw [leavesWithin, if_pos h]

theorem leavesWithin_of_children (h : t.children n ≠ []) :
    t.leavesWithin n = (t.children n).flatMap t.leavesWithin := by
  rw [leavesWithin, if_neg h, List.flatMap_subtype fun m _ => rfl, List.unattach_attach]

theorem isLeaf_iff (hn : n < t.size) : t.isLeaf n = true ↔ t.children n = [] := by
  refine ⟨children_of_isLeaf, fun h => ?_⟩
  have hbelow : t.below n = [] := by rw [below_eq_flatMap hn, h, List.flatMap_nil]
  rw [below, List.range'_eq_nil_iff] at hbelow
  exact decide_eq_true (by omega)

/-- A subtree starts with its leftmost leaf. -/
theorem head?_leavesWithin (t : Tree) (n : Nat) :
    (t.leavesWithin n).head? = some (t.leftmostLeaf n) := by
  induction n using subtree_induction (t := t) with
  | step n ih =>
    rw [leftmostLeaf]
    split
    · next hnone => rw [leavesWithin_of_leaf (List.head?_eq_none_iff.1 hnone), List.head?_cons]
    · next m hm =>
      obtain ⟨rest, hchildren⟩ := List.head?_eq_some_iff.1 hm
      rw [leavesWithin_of_children (by simp [hchildren]), List.head?_flatMap, hchildren,
        List.findSome?_cons, ih m (by simp [hchildren])]

/-! ## Blocks of leaves -/

theorem mem_leafBlock_iff : m ∈ t.leafBlock a b ↔ (a ≤ m ∧ m < b) ∧ t.isLeaf m = true := by
  rw [leafBlock, List.mem_filter, List.mem_range'_1]
  exact and_congr_left fun _ => by omega

theorem pairwise_leafBlock (t : Tree) (a b : Nat) : (t.leafBlock a b).Pairwise (· < ·) :=
  (List.pairwise_lt_range' 1).filter _

theorem leafBlock_self (t : Tree) (a : Nat) : t.leafBlock a a = [] := by
  rw [leafBlock, Nat.sub_self, List.range'_zero, List.filter_nil]

theorem leafBlock_append (hab : a ≤ b) (hbc : b ≤ c) :
    t.leafBlock a b ++ t.leafBlock b c = t.leafBlock a c := by
  have hstart : b = a + 1 * (b - a) := by omega
  have hlength : c - a = b - a + (c - b) := by omega
  rw [leafBlock, leafBlock, leafBlock, ← List.filter_append, hlength, ← List.range'_append,
    ← hstart]

theorem leafBlock_of_isLeaf (hn : t.isLeaf n = true) (hlt : n < b) :
    t.leafBlock n b = n :: t.leafBlock (n + 1) b := by
  have hlength : b - n = (b - (n + 1)) + 1 := by omega
  rw [leafBlock, hlength, List.range'_succ, List.filter_cons_of_pos hn, leafBlock]

/-- A block of leaves starts at its first leaf. -/
theorem leafBlock_of_head? (h : (t.leafBlock a b).head? = some m) :
    t.leafBlock a b = t.leafBlock m b := by
  obtain ⟨⟨ham, hmb⟩, -⟩ := mem_leafBlock_iff.1 (List.mem_of_head? h)
  obtain ⟨rest, hrest⟩ := List.head?_eq_some_iff.1 h
  have hsorted := pairwise_leafBlock t a b
  have hnone : t.leafBlock a m = [] := List.eq_nil_iff_forall_not_mem.2 fun k hk => by
    obtain ⟨⟨hak, hkm⟩, hleaf⟩ := mem_leafBlock_iff.1 hk
    have hmem : k ∈ t.leafBlock a b := mem_leafBlock_iff.2 ⟨⟨hak, by omega⟩, hleaf⟩
    rw [hrest] at hmem hsorted
    rcases List.mem_cons.1 hmem with rfl | hmem
    · exact absurd hkm (Nat.lt_irrefl k)
    · exact absurd (List.rel_of_pairwise_cons hsorted hmem) (Nat.lt_asymm hkm)
  rw [← leafBlock_append ham (Nat.le_of_lt hmb), hnone, List.nil_append]

/-- The leaves of a subtree are the leaves of its block. -/
theorem leavesWithin_eq_leafBlock (hn : n < t.size) :
    t.leavesWithin n = t.leafBlock n (t.endOf n) := by
  have hblock : ∀ k < t.size, t.leafBlock k (t.endOf k) = (k :: t.below k).filter t.isLeaf := by
    intro k hk
    have hlt := lt_endOf hk
    have hlength : t.endOf k - k = t.endOf k - (k + 1) + 1 := by omega
    rw [leafBlock, hlength, List.range'_succ, below]
  induction n using subtree_induction (t := t) with
  | step n ih =>
    rw [hblock n hn]
    by_cases hleaf : t.children n = []
    · rw [leavesWithin_of_leaf hleaf, below_eq_flatMap hn, hleaf, List.flatMap_nil,
        List.filter_cons_of_pos ((isLeaf_iff hn).2 hleaf), List.filter_nil]
    · rw [leavesWithin_of_children hleaf,
        List.filter_cons_of_neg (fun h => hleaf ((isLeaf_iff hn).1 h)), below_eq_flatMap hn,
        List.filter_flatMap]
      refine List.flatMap_congr fun m hm => ?_
      have hsize := (lt_of_mem_children hm).2
      rw [ih m hm hsize, hblock m hsize]

theorem leavesWithin_root (t : Tree) : t.leavesWithin root = t.leafBlock root t.size := by
  rw [leavesWithin_eq_leafBlock (root_lt_size t), endOf_root]

/-- The first leaf from a node on is the one its subtree starts with. -/
theorem head?_leafBlock (hk : k < t.size) :
    (t.leafBlock k t.size).head? = some (t.leftmostLeaf k) := by
  rw [← leafBlock_append (Nat.le_of_lt (lt_endOf hk)) (endOf_le_size hk),
    ← leavesWithin_eq_leafBlock hk, List.head?_append, head?_leavesWithin, Option.some_or]

/-! ## The next leaf -/

/-- Where the block of a node ends before that of its parent, the next child starts. -/
theorem endOf_mem_children (hp : t.shapeParent? n = some p) (hlt : t.endOf n < t.endOf p) :
    t.endOf n ∈ t.children p := by
  obtain ⟨hpn, hn, -, -⟩ := nests_of_shapeParent? hp
  have hsize : p < t.size := Nat.lt_trans hpn (lt_size_of_shapeParent? hp)
  obtain ⟨k, hk, hke, hend⟩ :=
    exists_child_of_mem_below hsize (mem_below_iff.2 ⟨Nat.lt_trans hpn hn, hlt⟩)
  have hafter := lt_endOf (Nat.lt_of_lt_of_le hlt (endOf_le_size hsize))
  have hmem := mem_children_iff.2 hp
  rcases Nat.lt_trichotomy k n with hkn | rfl | hnk
  · have := endOf_le_of_mem_children hk hmem hkn
    omega
  · omega
  · have := endOf_le_of_mem_children hmem hk hnk
    rwa [Nat.le_antisymm this hke]

/-- By the shape, the sibling after a node is the first child after it. -/
theorem nextSibling?_eq_find? (hp : t.shapeParent? n = some p)
    (h : t.irregular? .nextSibling n = none) :
    t.nextSibling? n = (t.children p).find? fun k => n < k := by
  obtain ⟨-, hn, -, -⟩ := nests_of_shapeParent? hp
  have hlater : ∀ k ∈ t.children p, n < k → t.endOf n ≤ k := fun k =>
    endOf_le_of_mem_children (mem_children_iff.2 hp)
  rw [nextSibling?, follow, h, Option.getD_none, hp, Option.bind_some]
  by_cases hlt : t.endOf n < t.endOf p
  · rw [if_pos hlt]
    refine ((find?_eq_some_iff_least (pairwise_children t p)).2 ⟨?_, ?_⟩).symm
    · exact ⟨endOf_mem_children hp hlt, decide_eq_true hn⟩
    · exact fun k hk hnk => hlater k hk (of_decide_eq_true hnk)
  · rw [if_neg hlt, eq_comm, List.find?_eq_none]
    intro k hk hnk
    have hend := hlater k hk (of_decide_eq_true hnk)
    have hkp := (mem_below_iff.1 (mem_below_of_mem_children hk)).2
    omega

section
variable (h : t.FollowsShape [.parent, .nextSibling])
include h

/-- The leaf after a subtree is the leftmost one of the node that comes after it. -/
theorem nextLeaf?_eq_ite (hn : n < t.size) :
    t.nextLeaf? n = if t.endOf n < t.size then some (t.leftmostLeaf (t.endOf n)) else none := by
  have hparent := h.parent?_eq (by simp)
  have hsibling : ∀ k, t.irregular? .nextSibling k = none := h.irregular?_eq_none (by simp)
  -- The climb goes on as long as the blocks of parents end where the block of the node does.
  induction n using Nat.strongRecOn with
  | ind n ih =>
    cases hp : t.shapeParent? n with
    | none =>
      obtain rfl : n = root := (shapeParent?_eq_none_iff hn).1 hp
      rw [nextLeaf?, chain_root, List.findSome?_cons, nextSibling?, follow, hsibling, hp,
        endOf_root, if_neg (Nat.lt_irrefl _)]
      rfl
    | some p =>
      obtain ⟨hpn, -, hend, -⟩ := nests_of_shapeParent? hp
      have hpsize : p < t.size := Nat.lt_trans hpn hn
      have hnext : t.nextSibling? n =
          if t.endOf n < t.endOf p then some (t.endOf n) else none := by
        rw [nextSibling?, follow, hsibling, hp, Option.getD_none, Option.bind_some]
      rw [nextLeaf?, chain_of_parent? ((hparent n).trans hp), List.findSome?_cons, hnext]
      by_cases hlt : t.endOf n < t.endOf p
      · rw [if_pos hlt, if_pos (Nat.lt_of_lt_of_le hlt (endOf_le_size hpsize)), Option.map_some]
      · have heq : t.endOf n = t.endOf p := by omega
        rw [if_neg hlt, heq]
        exact ih p hpn hpsize

/-- It is the first leaf from the end of the block on. -/
theorem nextLeaf?_eq_head? (hn : n < t.size) :
    t.nextLeaf? n = (t.leafBlock (t.endOf n) t.size).head? := by
  rw [nextLeaf?_eq_ite h hn]
  by_cases hlt : t.endOf n < t.size
  · rw [if_pos hlt, head?_leafBlock hlt]
  · have heq : t.endOf n = t.size := Nat.le_antisymm (endOf_le_size hn) (Nat.le_of_not_lt hlt)
    rw [if_neg hlt, heq, leafBlock_self, List.head?_nil]

theorem nextLeaf?_of_isLeaf (hn : n < t.size) (hleaf : t.isLeaf n = true) :
    t.nextLeaf? n = (t.leafBlock (n + 1) t.size).head? := by
  have hend : t.endOf n ≤ n + 1 := of_decide_eq_true hleaf
  rw [nextLeaf?_eq_head? h hn, Nat.le_antisymm hend (lt_endOf hn)]

/-- Going on from a leaf leads through all later leaves. -/
theorem leavesFrom_eq_leafBlock (hn : n < t.size) (hleaf : t.isLeaf n = true) :
    t.leavesFrom n = t.leafBlock n t.size := by
  induction hk : t.size - n using Nat.strongRecOn generalizing n with
  | ind k ih =>
    have hnext := nextLeaf?_of_isLeaf h hn hleaf
    rw [leavesFrom, leafBlock_of_isLeaf hleaf hn]
    split
    · next hnone => rw [List.head?_eq_none_iff.1 (hnext.symm.trans hnone)]
    · next m hm =>
      have hhead := hnext.symm.trans hm
      obtain ⟨⟨hlt, hsize⟩, hmleaf⟩ := mem_leafBlock_iff.1 (List.mem_of_head? hhead)
      rw [dif_pos ⟨hlt, hsize⟩, ih (t.size - m) (by omega) hsize hmleaf rfl,
        leafBlock_of_head? hhead]

/-- No step of the traversal is cut off. -/
theorem leavesFrom_eq_cons (hn : n < t.size) (hleaf : t.isLeaf n = true) :
    t.leavesFrom n = n :: (t.nextLeaf? n).elim [] t.leavesFrom := by
  have hnext := nextLeaf?_of_isLeaf h hn hleaf
  rw [leavesFrom_eq_leafBlock h hn hleaf, leafBlock_of_isLeaf hleaf hn, hnext]
  cases hm : (t.leafBlock (n + 1) t.size).head? with
  | none => rw [List.head?_eq_none_iff.1 hm, Option.elim_none]
  | some m =>
    obtain ⟨⟨-, hsize⟩, hmleaf⟩ := mem_leafBlock_iff.1 (List.mem_of_head? hm)
    rw [Option.elim_some, leavesFrom_eq_leafBlock h hsize hmleaf, leafBlock_of_head? hm]

theorem leaves_eq_leafBlock (hn : n < t.size) : t.leaves n = t.leafBlock n t.size := by
  have hhead := head?_leafBlock hn
  obtain ⟨⟨-, hsize⟩, hleaf⟩ := mem_leafBlock_iff.1 (List.mem_of_head? hhead)
  rw [leaves, leavesFrom_eq_leafBlock h hsize hleaf, leafBlock_of_head? hhead]

/-- The leaves of the file are those before a subtree, those of the subtree, and those after it.
The last ones are where the next leaf is found, and where the traversal goes. -/
theorem exists_leaves_split (hn : n < t.size) :
    ∃ before after, t.leavesWithin root = before ++ t.leavesWithin n ++ after ∧
      t.leaves n = t.leavesWithin n ++ after ∧ t.nextLeaf? n = after.head? := by
  have hstart := Nat.le_of_lt (lt_endOf hn)
  have hstop := endOf_le_size hn
  refine ⟨t.leafBlock root n, t.leafBlock (t.endOf n) t.size, ?_, ?_, nextLeaf?_eq_head? h hn⟩
  · rw [leavesWithin_root, leavesWithin_eq_leafBlock hn,
      leafBlock_append (show root ≤ n from Nat.zero_le n) hstart,
      leafBlock_append (show root ≤ t.endOf n from Nat.zero_le _) hstop]
  · rw [leaves_eq_leafBlock h hn, leavesWithin_eq_leafBlock hn, leafBlock_append hstart hstop]

end

theorem mem_leavesWithin_root_iff : m ∈ t.leavesWithin root ↔ m < t.size ∧ t.children m = [] := by
  rw [leavesWithin_root, mem_leafBlock_iff]
  constructor
  · rintro ⟨⟨-, hm⟩, hleaf⟩
    exact ⟨hm, (isLeaf_iff hm).1 hleaf⟩
  · rintro ⟨hm, hleaf⟩
    exact ⟨⟨Nat.zero_le m, hm⟩, (isLeaf_iff hm).2 hleaf⟩

/-- **The traversal visits the leaves from a node on, each once, and stops.** The leaves of the file,
listed child by child, are all of its leaves in document order. Those of a subtree stand together
in that list and start with its leftmost one; from a node the traversal goes through them and on to
the end of the list, and the leaf after the node is the first one after them. So the leaf after a
leaf is the next one of the list, after the last one there is none, and from the root the traversal
is the list. It ends only where no leaf follows. -/
theorem leaves_traversal (h : t.FollowsShape [.parent, .nextSibling]) :
    ((t.leavesWithin root).Pairwise (· < ·) ∧
      ∀ m, m ∈ t.leavesWithin root ↔ m < t.size ∧ t.children m = []) ∧
    (∀ n < t.size, (t.leavesWithin n).head? = some (t.leftmostLeaf n) ∧
      ∃ before after, t.leavesWithin root = before ++ t.leavesWithin n ++ after ∧
        t.leaves n = t.leavesWithin n ++ after ∧ t.nextLeaf? n = after.head?) ∧
    (∀ before m after, t.leavesWithin root = before ++ m :: after →
      t.nextLeaf? m = after.head? ∧ t.leavesFrom m = m :: (t.nextLeaf? m).elim [] t.leavesFrom) ∧
    t.leaves root = t.leavesWithin root := by
  have hsorted : (t.leavesWithin root).Pairwise (· < ·) := by
    rw [leavesWithin_root]
    exact pairwise_leafBlock t root t.size
  refine ⟨⟨hsorted, fun m => mem_leavesWithin_root_iff⟩, fun n hn => ⟨head?_leavesWithin t n,
    exists_leaves_split h hn⟩, fun before m after hsplit => ?_, ?_⟩
  · have hmem : m ∈ t.leavesWithin root := by simp [hsplit]
    obtain ⟨hm, hchildren⟩ := mem_leavesWithin_root_iff.1 hmem
    refine ⟨?_, leavesFrom_eq_cons h hm ((isLeaf_iff hm).2 hchildren)⟩
    -- The list has no repetition, so the subtree of the leaf stands where the leaf does.
    obtain ⟨before', after', hsplit', -, hnext⟩ := exists_leaves_split h hm
    rw [leavesWithin_of_leaf hchildren, List.append_assoc, List.singleton_append] at hsplit'
    have hnodup : (before ++ m :: after).Nodup := hsplit ▸ hsorted.imp Nat.ne_of_lt
    have hnot := (List.nodup_cons.1 (List.nodup_middle.1 hnodup)).1
    simp only [List.mem_append, not_or] at hnot
    obtain ⟨-, -, rfl⟩ :=
      (List.append_cons_inj_of_notMem hnot.1 hnot.2).1 (hsplit.symm.trans hsplit')
    exact hnext
  · rw [leaves_eq_leafBlock h (root_lt_size t), leavesWithin_root]

/-- From the inner declaration the traversal passes a leaf without text and goes on to the end. -/
theorem leaves_traversal_spine :
    let t := Sample.spine
    t.FollowsShape [.parent, .nextSibling] ∧ t.leavesWithin root = [3] ++ 6 :: [7, 8] ∧
      t.nextLeaf? 6 = some 7 ∧ t.leaves root = t.leavesWithin root ∧
      ∃ before after, t.leavesWithin root = before ++ t.leavesWithin 4 ++ after ∧
        t.leaves 4 = t.leavesWithin 4 ++ after ∧ t.nextLeaf? 4 = after.head? := by
  intro t
  have h : t.FollowsShape [.parent, .nextSibling] := by decide
  have hleaves : t.leavesWithin root = [3] ++ 6 :: [7, 8] := by decide +kernel
  obtain ⟨-, hwithin, hnext, hroot⟩ := leaves_traversal h
  exact ⟨h, hleaves, (hnext [3] 6 [7, 8] hleaves).1, hroot, (hwithin 4 (by decide)).2⟩

end Tree
end ElmScope
