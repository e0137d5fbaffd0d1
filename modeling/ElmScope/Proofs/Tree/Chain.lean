import ElmScope.Tree.Navigation
import Mathlib.Data.List.Basic
/-!
# Chains and subtrees

A parser may report links against the shape of a tree. Where it does so for siblings only, the
tree is `Regular`: parents and roles are those of the shape, and the two ways to read a tree fit
together. Where less is needed, the links in question follow the shape (`FollowsShape`). The nodes
below `n` are those whose chain of parents goes through `n`.

* `chain_of_mem_below` — from a subtree to its root, a chain stays in the subtree
* `isTopLevel_iff` — the nodes at the top level are the children of the root
-/
namespace ElmScope
namespace Tree

/-- Whether the parser reports links against the shape for siblings only. -/
def Regular (t : Tree) : Prop :=
  ∀ entry ∈ t.irregular, entry.1 ∈ [Link.nextSibling, .prevSibling, .prevNamedSibling]

instance (t : Tree) : Decidable t.Regular := inferInstanceAs (Decidable (∀ _ ∈ _, _))

/-- Whether the parser reports none of some links against the shape. -/
def FollowsShape (t : Tree) (links : List Link) : Prop := ∀ entry ∈ t.irregular, entry.1 ∉ links

instance (t : Tree) (links : List Link) : Decidable (t.FollowsShape links) :=
  inferInstanceAs (Decidable (∀ _ ∈ _, _))

variable {t : Tree} {m n p : Nat} {role kind : String}

/-! ## Regular links -/

theorem Regular.irregular?_eq_none {link : Link} (h : t.Regular)
    (hlink : link ∉ [Link.nextSibling, .prevSibling, .prevNamedSibling]) (n : Nat) :
    t.irregular? link n = none := by
  rw [irregular?, Option.map_eq_none_iff, List.find?_eq_none]
  rintro ⟨l, m, target⟩ hmem heq
  simp only [Bool.and_eq_true, decide_eq_true_eq] at heq
  exact hlink (heq.1 ▸ h _ hmem)

theorem FollowsShape.irregular?_eq_none {link : Link} {links : List Link}
    (h : t.FollowsShape links) (hlink : link ∈ links) (n : Nat) : t.irregular? link n = none := by
  rw [irregular?, Option.map_eq_none_iff, List.find?_eq_none]
  rintro ⟨l, m, target⟩ hmem heq
  simp only [Bool.and_eq_true, decide_eq_true_eq] at heq
  exact h _ hmem (heq.1 ▸ hlink)

/-- Where the parser reports no other one, the parent of a node is that of the shape. -/
theorem parent?_eq_shapeParent? (h : t.irregular? .parent n = none) :
    t.parent? n = t.shapeParent? n := by
  rw [parent?, follow, h, Option.getD_none]
  cases hp : t.shapeParent? n with
  | none => rfl
  | some p => rw [Option.filter_some, if_pos (decide_eq_true (nests_of_shapeParent? hp).1)]

theorem Regular.parent?_eq (h : t.Regular) (n : Nat) : t.parent? n = t.shapeParent? n :=
  parent?_eq_shapeParent? (h.irregular?_eq_none (by simp) n)

theorem FollowsShape.parent?_eq {links : List Link} (h : t.FollowsShape links)
    (hlink : .parent ∈ links) (n : Nat) : t.parent? n = t.shapeParent? n :=
  parent?_eq_shapeParent? (h.irregular?_eq_none hlink n)

theorem Regular.parent?_of_mem_children (h : t.Regular) (hm : m ∈ t.children n) :
    t.parent? m = some n := by
  rw [h.parent?_eq, shapeParent?_of_mem_children hm]

theorem Regular.mem_children_of_child? (h : t.Regular) (hm : t.child? role n = some m) :
    m ∈ t.children n := by
  rw [child?, follow, h.irregular?_eq_none (by simp), Option.getD_none] at hm
  exact List.mem_of_find?_eq_some hm

theorem Regular.parent?_of_child? (h : t.Regular) (hm : t.child? role n = some m) :
    t.parent? m = some n := h.parent?_of_mem_children (h.mem_children_of_child? hm)

theorem Regular.lt_size_of_child? (h : t.Regular) (hm : t.child? role n = some m) :
    n < t.size ∧ m < t.size := by
  have := lt_of_mem_children (h.mem_children_of_child? hm)
  omega

/-! ## Nodes of the tree -/

theorem kind_of_size_le (h : t.size ≤ n) : t.kind n = "" := by
  rw [Tree.kind, Array.getElem?_eq_none h]
  rfl

theorem lt_size_of_kind (h : t.kind n = kind) (hne : kind ≠ "") : n < t.size := by
  by_contra hn
  exact hne (h.symm.trans (kind_of_size_le (Nat.le_of_not_lt hn)))

theorem root_lt_size (t : Tree) : root < t.size := t.wellNested.1

theorem shapeParent?_eq_none_iff (hn : n < t.size) : t.shapeParent? n = none ↔ n = root := by
  have hw := t.wellNested.2
  constructor
  · intro hp
    have hnest := hw n hn
    unfold shapeParent? at hp
    simp only [nestsAt, hp, Bool.and_eq_true, decide_eq_true_eq] at hnest
    exact hnest.2.1
  · rintro rfl
    by_contra hp
    obtain ⟨p, hp⟩ := Option.ne_none_iff_exists'.1 hp
    exact absurd (nests_of_shapeParent? hp).1 (Nat.not_lt_zero p)

theorem endOf_le_size (hn : n < t.size) : t.endOf n ≤ t.size := by
  induction n using Nat.strongRecOn with
  | ind n ih =>
    cases hp : t.shapeParent? n with
    | none =>
      have hnest := t.wellNested.2 n hn
      unfold shapeParent? at hp
      simp only [nestsAt, hp, Bool.and_eq_true, decide_eq_true_eq] at hnest
      exact Nat.le_of_eq hnest.2.2
    | some p =>
      obtain ⟨hlt, -, hle, -⟩ := nests_of_shapeParent? hp
      exact Nat.le_trans hle (ih p hlt (Nat.lt_trans hlt hn))

theorem lt_size_of_mem_below (hn : n < t.size) (hm : m ∈ t.below n) : m < t.size :=
  Nat.lt_of_lt_of_le (mem_below_iff.1 hm).2 (endOf_le_size hn)

theorem mem_below_of_mem_children (hm : m ∈ t.children n) : m ∈ t.below n :=
  List.mem_of_mem_filter hm

theorem mem_below_of_child (hp : p ∈ t.children n) (hm : m ∈ t.below p) : m ∈ t.below n := by
  obtain ⟨hnp, -, hend, -⟩ := nests_of_shapeParent? (shapeParent?_of_mem_children hp)
  rw [mem_below_iff] at hm ⊢
  omega

theorem children_of_isLeaf (h : t.isLeaf n = true) :
    t.children n = [] := by
  rw [List.eq_nil_iff_forall_not_mem]
  intro m hm
  have hbelow := mem_below_iff.1 (mem_below_of_mem_children hm)
  have hend : t.endOf n ≤ n + 1 := of_decide_eq_true h
  omega

/-- Every node but the root of a subtree has its parent in the subtree. -/
theorem shapeParent?_of_mem_below (hn : n < t.size) (hm : m ∈ t.below n) :
    ∃ p, t.shapeParent? m = some p ∧ (p = n ∨ p ∈ t.below n) := by
  obtain ⟨hnm, hme⟩ := mem_below_iff.1 hm
  have hsize := lt_size_of_mem_below hn hm
  cases hp : t.shapeParent? m with
  | none =>
    have hroot : m = 0 := (shapeParent?_eq_none_iff hsize).1 hp
    omega
  | some p =>
    obtain ⟨hpm, -, -, hbetween⟩ := nests_of_shapeParent? hp
    refine ⟨p, rfl, ?_⟩
    rcases Nat.lt_trichotomy p n with hlt | heq | hgt
    · have := hbetween n hlt hnm
      omega
    · exact .inl heq
    · exact .inr (mem_below_iff.2 ⟨hgt, by omega⟩)

/-! ## Chains -/

theorem chain_eq_cons (t : Tree) (n : Nat) : t.chain n = n :: t.ancestors n := by
  rw [ancestors, chain]
  split <;> rfl

theorem chain_of_parent?_eq_none (h : t.parent? n = none) : t.chain n = [n] := by
  rw [chain]
  split
  · rfl
  · next p hp => exact absurd (hp.symm.trans h) (Option.some_ne_none p)

theorem chain_of_parent? (h : t.parent? n = some p) : t.chain n = n :: t.chain p := by
  rw [chain]
  split
  · next hnone => exact absurd (h.symm.trans hnone) (Option.some_ne_none _)
  · next q hq =>
    obtain rfl : p = q := Option.some.inj (h.symm.trans hq)
    rfl

theorem ancestors_of_parent? (h : t.parent? n = some p) : t.ancestors n = t.chain p := by
  rw [ancestors, chain_of_parent? h, List.tail_cons]

/-- Parents come first, so a chain goes down in number. -/
theorem le_of_mem_chain (h : n ∈ t.chain m) : n ≤ m := by
  induction m using Nat.strongRecOn with
  | ind m ih =>
    cases hp : t.parent? m with
    | none =>
      rw [chain_of_parent?_eq_none hp, List.mem_singleton] at h
      exact Nat.le_of_eq h
    | some p =>
      rw [chain_of_parent? hp, List.mem_cons] at h
      have hpm := parent_lt hp
      rcases h with rfl | h
      · exact Nat.le_refl _
      · exact Nat.le_trans (ih p hpm h) (Nat.le_of_lt hpm)

/-- From a node below `n`, the chain of parents stays below `n` until it gets there. -/
theorem chain_of_mem_below (hparents : ∀ k ∈ t.below n, t.parent? k = t.shapeParent? k)
    (hn : n < t.size) (hm : m ∈ t.below n) :
    ∃ l, t.chain m = l ++ t.chain n ∧ ∀ k ∈ l, k ∈ t.below n := by
  -- Parents come first, so the induction is on the number of the node.
  induction m using Nat.strongRecOn with
  | ind m ih =>
    obtain ⟨p, hp, hcase⟩ := shapeParent?_of_mem_below hn hm
    have hparent : t.parent? m = some p := (hparents m hm).trans hp
    rcases hcase with rfl | hbelow
    · exact ⟨[m], chain_of_parent? hparent, by simpa using hm⟩
    · obtain ⟨l, hl, hin⟩ := ih p (parent_lt hparent) hbelow
      refine ⟨m :: l, by rw [chain_of_parent? hparent, hl, List.cons_append], ?_⟩
      exact List.forall_mem_cons.2 ⟨hm, hin⟩

theorem Regular.chain_of_mem_below (h : t.Regular) (hn : n < t.size) (hm : m ∈ t.below n) :
    ∃ l, t.chain m = l ++ t.chain n ∧ ∀ k ∈ l, k ∈ t.below n :=
  Tree.chain_of_mem_below (fun k _ => h.parent?_eq k) hn hm

/-! ## The top level -/

theorem chain_root (t : Tree) : t.chain root = [root] :=
  chain_of_parent?_eq_none <| Option.eq_none_iff_forall_ne_some.2 fun p hp =>
    absurd (parent_lt hp) (Nat.not_lt_zero p)

section
variable (h : ∀ k, t.parent? k = t.shapeParent? k)
include h

theorem isTopLevel_iff : t.isTopLevel n = true ↔ n ∈ t.children root := by
  rw [isTopLevel, h, Option.any_eq_true, mem_children_iff]
  constructor
  · rintro ⟨p, hp, hnone⟩
    rw [h, Option.isNone_iff_eq_none] at hnone
    have hsize := Nat.lt_trans (nests_of_shapeParent? hp).1 (lt_size_of_shapeParent? hp)
    rwa [(shapeParent?_eq_none_iff hsize).1 hnone] at hp
  · intro hp
    have hsize := Nat.lt_trans (nests_of_shapeParent? hp).1 (lt_size_of_shapeParent? hp)
    refine ⟨root, hp, ?_⟩
    rw [h, (shapeParent?_eq_none_iff hsize).2 rfl]
    rfl

theorem isTopLevel_root : t.isTopLevel root = false := by
  rw [Bool.eq_false_iff, Ne, isTopLevel_iff h]
  exact fun hr => absurd (lt_of_mem_children hr).1 (Nat.lt_irrefl _)

/-- No node below a node of the top level is at the top level. -/
theorem not_isTopLevel_of_mem_below (hn : n ∈ t.children root) (hm : m ∈ t.below n) :
    t.isTopLevel m = false := by
  rw [Bool.eq_false_iff, Ne, isTopLevel_iff h]
  intro htop
  obtain ⟨hroot, hsize⟩ := lt_of_mem_children hn
  obtain ⟨hnm, hme⟩ := mem_below_iff.1 hm
  have := (nests_of_shapeParent? (shapeParent?_of_mem_children htop)).2.2.2 n hroot hnm
  omega

/-- One node on the chain of a node within a node of the top level is at the top level. -/
theorem filter_isTopLevel_chain (hn : n ∈ t.children root) (hm : m ∈ n :: t.below n) :
    (t.chain m).filter t.isTopLevel = [n] := by
  have hchain : (t.chain n).filter t.isTopLevel = [n] := by
    have hparent : t.parent? n = some root := by rw [h, shapeParent?_of_mem_children hn]
    rw [chain_of_parent? hparent, chain_root, List.filter_cons_of_pos ((isTopLevel_iff h).2 hn),
      List.filter_cons_of_neg (by simp [isTopLevel_root h]), List.filter_nil]
  rcases List.mem_cons.1 hm with rfl | hm
  · exact hchain
  · obtain ⟨l, hl, hin⟩ := chain_of_mem_below (fun k _ => h k) (lt_of_mem_children hn).2 hm
    have hbelow : l.filter t.isTopLevel = [] := List.filter_eq_nil_iff.2 fun k hk => by
      simp [not_isTopLevel_of_mem_below h hn (hin k hk)]
    rw [hl, List.filter_append, hbelow, hchain, List.nil_append]

end

/-- The search for an enclosing node of the top level goes through the nodes there are. -/
theorem enclosing?_topLevel (t : Tree) (kind : String) (m : Nat) :
    t.enclosing? kind m true =
      ((t.chain m).filter t.isTopLevel).find? fun k => t.kind k = kind := by
  rw [enclosing?, List.find?_filter]
  simp only [Bool.not_true, Bool.false_or, Bool.and_comm, Bool.decide_and, Bool.decide_eq_true]

theorem Regular.isTopLevel_iff (h : t.Regular) : t.isTopLevel n = true ↔ n ∈ t.children root :=
  Tree.isTopLevel_iff h.parent?_eq

/-- Where there is one, the search reads its kind. -/
theorem Regular.enclosing?_of_mem_below (h : t.Regular) (hn : n ∈ t.children root)
    (hm : m ∈ t.below n) (kind : String) :
    t.enclosing? kind m true = if t.kind n = kind then some n else none := by
  rw [enclosing?_topLevel, filter_isTopLevel_chain h.parent?_eq hn (List.mem_cons_of_mem n hm)]
  by_cases hk : t.kind n = kind <;> simp [hk]

end Tree
end ElmScope
