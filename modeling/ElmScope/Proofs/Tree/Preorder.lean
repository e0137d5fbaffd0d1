import ElmScope.Proofs.Tree.Within
import Mathlib.Data.List.Sort
/-!
# Subtrees in document order

The numbers below a node are its children, each followed by the numbers below it
(`below_eq_flatMap`). So a search in a block of numbers is a search in the node and then in the
subtrees of its children, one after the other (`descendants_eq_flatMap`, `firstWithin?_eq_or`), and
what holds of every subtree can be proved from the children up (`subtree_induction`).

Searches down read the blocks of numbers and searches up follow the parents. They answer each
other, because a node lies below another if and only if the other one is on its chain of parents.

* `mem_chain_iff` — the chain of a node holds the nodes it lies below
* `descendants_enclosing_adjoint` — what is found going down finds its way back up
-/
namespace ElmScope
namespace Tree

variable {t : Tree} {kind : String} {k m n p : Nat}

/-- What holds of a node as soon as it holds of its children holds of every node. -/
theorem subtree_induction {motive : Nat → Prop}
    (step : ∀ n, (∀ m ∈ t.children n, motive m) → motive n) (n : Nat) : motive n := by
  -- Children come later in a tree of finitely many nodes.
  induction hk : t.size - n using Nat.strongRecOn generalizing n with
  | ind k ih =>
    refine step n fun m hm => ih (t.size - m) ?_ m rfl
    have := lt_of_mem_children hm
    omega

/-! ## Blocks of numbers -/

theorem endOf_root (t : Tree) : t.endOf root = t.size := by
  have hpos := root_lt_size t
  have hnest := t.wellNested.2 root hpos
  have hparent := (shapeParent?_eq_none_iff hpos).2 rfl
  unfold shapeParent? at hparent
  simp only [nestsAt, hparent, Bool.and_eq_true, decide_eq_true_eq] at hnest
  exact hnest.2.2

theorem endOf_le_of_mem_children (hm : m ∈ t.children p) (hk : k ∈ t.children p) (hlt : m < k) :
    t.endOf m ≤ k :=
  (nests_of_shapeParent? (shapeParent?_of_mem_children hk)).2.2.2 m (lt_of_mem_children hm).1 hlt

theorem endOf_le_of_mem_below (hn : n < t.size) (hm : m ∈ t.below n) : t.endOf m ≤ t.endOf n := by
  obtain ⟨k, hk, -, hle⟩ := exists_child_of_mem_below hn hm
  exact Nat.le_trans hle (nests_of_shapeParent? (shapeParent?_of_mem_children hk)).2.2.1

/-- Every node below `n` is a child of `n` or lies below one. -/
theorem mem_below_iff_exists (hn : n < t.size) :
    m ∈ t.below n ↔ ∃ k ∈ t.children n, m ∈ k :: t.below k := by
  constructor
  · intro hm
    obtain ⟨k, hk, hkm, hend⟩ := exists_child_of_mem_below hn hm
    have hlt := lt_endOf (lt_size_of_mem_below hn hm)
    refine ⟨k, hk, List.mem_cons.2 ?_⟩
    rw [mem_below_iff]
    omega
  · rintro ⟨k, hk, hm⟩
    rcases List.mem_cons.1 hm with rfl | hm
    · exact mem_below_of_mem_children hk
    · exact mem_below_of_child hk hm

/-- The numbers below a node: each child, followed by the numbers below it. -/
theorem below_eq_flatMap (hn : n < t.size) :
    t.below n = (t.children n).flatMap fun m => m :: t.below m := by
  refine (pairwise_below t n).eq_of_mem_iff (List.pairwise_flatMap.2 ⟨fun m _ => pairwise_within t m,
    (pairwise_children t n).imp_of_mem fun {a b} ha hb hab x hx y hy => ?_⟩) fun m => ?_
  · have hxa : x < t.endOf a := by
      rcases List.mem_cons.1 hx with rfl | hx
      · exact lt_endOf (lt_of_mem_children ha).2
      · exact (mem_below_iff.1 hx).2
    have hby : b ≤ y := by
      rcases List.mem_cons.1 hy with rfl | hy
      · exact Nat.le_refl y
      · exact Nat.le_of_lt (mem_below_iff.1 hy).1
    have hend := endOf_le_of_mem_children ha hb hab
    omega
  · rw [mem_below_iff_exists hn, List.mem_flatMap]

/-! ## Searches down -/

/-- The search for all nodes of a kind goes through the children in order and asks each one first,
then what lies below it. -/
theorem descendants_eq_flatMap (hn : n < t.size) (kind : String) :
    t.descendants kind n = (t.children n).flatMap fun m =>
      if t.kind m = kind then m :: t.descendants kind m else t.descendants kind m := by
  rw [descendants, below_eq_flatMap hn, List.filter_flatMap]
  simp only [List.filter_cons, decide_eq_true_eq, descendants]

/-- The search for the first node of a kind asks the node, then searches its children in order. -/
theorem firstWithin?_eq_or (hn : n < t.size) (kind : String) :
    t.firstWithin? kind n = if t.kind n = kind then some n
      else (t.children n).findSome? (t.firstWithin? kind) := by
  rw [firstWithin?, below_eq_flatMap hn, List.find?_cons, List.find?_flatMap]
  by_cases hk : t.kind n = kind
  · simp [hk]
  · simp only [hk, decide_false, if_false]
    rfl

theorem mem_descendants_iff : m ∈ t.descendants kind n ↔ m ∈ t.below n ∧ t.kind m = kind := by
  rw [descendants, List.mem_filter, decide_eq_true_eq]

theorem pairwise_descendants (t : Tree) (kind : String) (n : Nat) :
    (t.descendants kind n).Pairwise (· < ·) := (pairwise_below t n).filter _

theorem firstWithin?_eq_head? (t : Tree) (kind : String) (n : Nat) :
    t.firstWithin? kind n =
      if t.kind n = kind then some n else (t.descendants kind n).head? := by
  rw [firstWithin?, descendants, List.head?_filter, List.find?_cons]
  by_cases hk : t.kind n = kind <;> simp [hk]

/-! ## Searches up -/

section
variable (h : ∀ k, t.parent? k = t.shapeParent? k)
include h

/-- The chain of a node holds the node and those it lies below. -/
theorem mem_chain_iff (hn : n < t.size) : n ∈ t.chain m ↔ n = m ∨ m ∈ t.below n := by
  constructor
  · -- Parents come first, so the induction is on the number of the node.
    induction m using Nat.strongRecOn with
    | ind m ih =>
      intro hmem
      rw [chain_eq_cons, List.mem_cons] at hmem
      refine hmem.imp_right fun hanc => ?_
      cases hp : t.parent? m with
      | none =>
        rw [ancestors, chain_of_parent?_eq_none hp] at hanc
        exact absurd hanc List.not_mem_nil
      | some p =>
        rw [ancestors_of_parent? hp] at hanc
        have hchild : m ∈ t.children p := mem_children_iff.2 ((h m).symm.trans hp)
        have hbelow := mem_below_of_mem_children hchild
        rcases ih p (parent_lt hp) hanc with rfl | hin
        · exact hbelow
        · have hend := endOf_le_of_mem_below hn hin
          rw [mem_below_iff] at hin hbelow ⊢
          omega
  · rintro (rfl | hm)
    · rw [chain_eq_cons]
      exact List.mem_cons_self
    · obtain ⟨l, hl, -⟩ := chain_of_mem_below (fun k _ => h k) hn hm
      rw [hl, chain_eq_cons]
      exact List.mem_append_right _ List.mem_cons_self

theorem mem_descendants_iff_mem_chain (hn : n < t.size) :
    m ∈ t.descendants kind n ↔ m ≠ n ∧ t.kind m = kind ∧ n ∈ t.chain m := by
  rw [mem_descendants_iff, mem_chain_iff h hn]
  constructor
  · rintro ⟨hm, hk⟩
    exact ⟨Nat.ne_of_gt (mem_below_iff.1 hm).1, hk, .inr hm⟩
  · rintro ⟨hne, hk, heq | hm⟩
    · exact absurd heq.symm hne
    · exact ⟨hm, hk⟩

end

theorem mem_enclosingAll_iff : n ∈ t.enclosingAll kind m ↔ n ∈ t.chain m ∧ t.kind n = kind := by
  rw [enclosingAll, List.mem_filter, decide_eq_true_eq]

theorem enclosing?_eq_head? (t : Tree) (kind : String) (m : Nat) :
    t.enclosing? kind m false = (t.enclosingAll kind m).head? := by
  rw [enclosing?, enclosingAll, List.head?_filter]
  simp only [Bool.not_false, Bool.true_or, Bool.and_true]

/-- At the top level, a search up goes to the one node of the chain that is a child of the root. -/
theorem enclosing?_topLevel_eq (h : ∀ k, t.parent? k = t.shapeParent? k) (hm : m < t.size)
    (kind : String) :
    ∃ top : Option Nat, ((t.chain m).filter fun k => k ∈ t.children root) = top.toList ∧
      t.enclosing? kind m true = top.filter fun k => t.kind k = kind := by
  have htop : (fun k => decide (k ∈ t.children root)) = t.isTopLevel :=
    funext fun k => Bool.eq_iff_iff.2 (by rw [decide_eq_true_eq, isTopLevel_iff h])
  rw [htop, enclosing?_topLevel]
  by_cases hroot : m = root
  · refine ⟨none, ?_⟩
    rw [hroot, chain_root, List.filter_cons_of_neg (by simp [isTopLevel_root h])]
    exact ⟨rfl, rfl⟩
  · have hbelow : m ∈ t.below root := by
      rw [mem_below_iff, endOf_root]
      exact ⟨Nat.pos_of_ne_zero hroot, hm⟩
    obtain ⟨n, hn, hmem⟩ := (mem_below_iff_exists (root_lt_size t)).1 hbelow
    refine ⟨some n, ?_⟩
    rw [filter_isTopLevel_chain h hn hmem]
    exact ⟨rfl, by by_cases hk : t.kind n = kind <;> simp [hk, Option.filter_some]⟩

/-- **Searching down and searching up answer each other.** Child by child, the search down lists the
nodes of a kind below `n`, each once and in document order: the other nodes of the kind that have
`n` on their chain. So `m` is found below `n` by its kind if and only if `n` is found above `m` by
its own. The searches for one node find the first of those lists, the search down after the node
itself; the search at the top level reads the kind of the one node of the chain that is a child of
the root. -/
theorem descendants_enclosing_adjoint (h : t.FollowsShape [.parent]) (hn : n < t.size)
    (hm : m < t.size) (kind : String) :
    (t.descendants kind n = ((t.children n).flatMap fun k =>
        if t.kind k = kind then k :: t.descendants kind k else t.descendants kind k) ∧
      (t.descendants kind n).Pairwise (· < ·) ∧
      ∀ k, k ∈ t.descendants kind n ↔ k ≠ n ∧ t.kind k = kind ∧ n ∈ t.chain k) ∧
    (m ∈ t.descendants (t.kind m) n ↔ m ≠ n ∧ n ∈ t.enclosingAll (t.kind n) m) ∧
    ((t.firstWithin? kind n = if t.kind n = kind then some n
        else (t.children n).findSome? (t.firstWithin? kind)) ∧
      t.firstWithin? kind n =
        if t.kind n = kind then some n else (t.descendants kind n).head?) ∧
    t.enclosing? kind m false = (t.enclosingAll kind m).head? ∧
    ∃ top : Option Nat, ((t.chain m).filter fun k => k ∈ t.children root) = top.toList ∧
      t.enclosing? kind m true = top.filter fun k => t.kind k = kind := by
  have hparents := h.parent?_eq List.mem_cons_self
  refine ⟨⟨descendants_eq_flatMap hn kind, pairwise_descendants t kind n,
    fun k => mem_descendants_iff_mem_chain hparents hn⟩, ?_,
    ⟨firstWithin?_eq_or hn kind, firstWithin?_eq_head? t kind n⟩,
    enclosing?_eq_head? t kind m, enclosing?_topLevel_eq hparents hm kind⟩
  rw [mem_descendants_iff_mem_chain hparents hn, mem_enclosingAll_iff]
  simp only [true_and, and_true]

end Tree

namespace Sample

def spineNodes : Array TreeNode :=
  #[ ⟨"file", true, none, 0, 9, none⟩,
     ⟨"value_declaration", true, none, 0, 7, some 0⟩,
     ⟨"let_in_expr", true, some "body", 0, 7, some 1⟩,
     ⟨"let", true, none, 0, 3, some 2⟩,
     ⟨"value_declaration", true, some "valueDeclaration", 4, 7, some 2⟩,
     ⟨"value_expr", true, some "body", 4, 4, some 4⟩,
     ⟨"value_qid", true, some "name", 4, 4, some 5⟩,
     ⟨"value_expr", true, some "body", 4, 7, some 4⟩,
     ⟨"value_declaration", true, none, 8, 9, some 0⟩ ]

/-- A declaration within one of the top level, with a spine that ends in a leaf without text, and
a reported sibling that its shape does not give. -/
def spine : Tree :=
  ⟨spineNodes, Tree.subtreeEnds spineNodes, [(.prevSibling, 7, some 5)], by decide +kernel⟩

end Sample

/-- From the outer declaration one gets to the inner one, and back. -/
theorem Tree.descendants_enclosing_adjoint_spine :
    let t := Sample.spine
    t.FollowsShape [.parent] ∧ 1 < t.size ∧ 6 < t.size ∧
      t.descendants "value_declaration" 1 = [4] ∧
      t.enclosingAll "value_declaration" 4 = [4, 1] ∧
      (4 ∈ t.descendants (t.kind 4) 1 ↔ 4 ≠ 1 ∧ 1 ∈ t.enclosingAll (t.kind 1) 4) ∧
      t.enclosing? "value_declaration" 6 false = some 4 ∧
      ∃ top : Option Nat, ((t.chain 6).filter fun k => k ∈ t.children root) = top.toList ∧
        t.enclosing? "value_declaration" 6 true =
          top.filter fun k => t.kind k = "value_declaration" := by
  intro t
  have h : t.FollowsShape [.parent] := by decide
  have hn : 1 < t.size := by decide
  have hfour := descendants_enclosing_adjoint h hn (show 4 < t.size by decide) "value_declaration"
  have hsix := descendants_enclosing_adjoint h hn (show 6 < t.size by decide) "value_declaration"
  exact ⟨h, hn, by decide, by decide +kernel, by decide +kernel, hfour.2.1, by decide +kernel,
    hsix.2.2.2.2⟩

end ElmScope
