import ElmScope.Proofs.Tree.Chain
/-!
# Searches in a subtree

Searches down a tree read nodes in document order, so they find the first one that fits
(`find?_eq_some_iff_least`, `firstWithin?_eq_some_iff`), and a subtree is its root and the subtrees
of its children (`exists_child_of_mem_below`). So a search that finds nothing on the way in can be
made in the only child worth searching. The sibling before a child is the child before it
(`prevSibling?_of_children`).
-/
namespace ElmScope

/-! ## Searches in ordered lists -/

/-- In an ordered list, a search finds the one that comes before all others that fit. -/
theorem find?_eq_some_iff_of_pairwise {α : Type} {R : α → α → Prop} {l : List α}
    (h : l.Pairwise R) (hasymm : ∀ a b, R a b → ¬R b a) {p : α → Bool} {a : α} :
    l.find? p = some a ↔ (a ∈ l ∧ p a = true) ∧ ∀ b ∈ l, p b = true → b = a ∨ R a b := by
  have hfirst : ∀ a, l.find? p = some a → ∀ b ∈ l, p b = true → b = a ∨ R a b := by
    intro a ha b hb hpb
    obtain ⟨-, before, after, rfl, hbefore⟩ := List.find?_eq_some_iff_append.1 ha
    rcases List.mem_append.1 hb with hb | hb
    · exact absurd hpb (by simpa using hbefore b hb)
    · rcases List.mem_cons.1 hb with rfl | hb
      · exact .inl rfl
      · exact .inr ((List.pairwise_cons.1 (List.pairwise_append.1 h).2.1).1 b hb)
  constructor
  · intro ha
    exact ⟨⟨List.mem_of_find?_eq_some ha, List.find?_some ha⟩, hfirst a ha⟩
  · rintro ⟨⟨ha, hpa⟩, hleast⟩
    cases hfound : l.find? p with
    | none => exact absurd hpa (List.find?_eq_none.1 hfound a ha)
    | some b =>
      rcases hleast b (List.mem_of_find?_eq_some hfound) (List.find?_some hfound) with rfl | hab
      · rfl
      · rcases hfirst b hfound a ha hpa with rfl | hba
        · rfl
        · exact absurd hba (hasymm a b hab)

/-- A search through the images of a list finds the image of the first element that has one. -/
theorem findSome?_eq_bind_find? {α β : Type} (f : α → Option β) (l : List α) :
    l.findSome? f = (l.find? fun a => (f a).isSome).bind f := by
  induction l with
  | nil => rfl
  | cons a l ih =>
    cases h : f a with
    | none => rw [List.findSome?_cons, h, List.find?_cons_of_neg (by simp [h]), ih]
    | some b =>
      rw [List.findSome?_cons, h, List.find?_cons_of_pos (by simp [h]), Option.bind_some, h]

section
variable {l : List Nat} (h : l.Pairwise (· < ·)) {p : Nat → Bool} {m : Nat}
include h

/-- From the front, a search among nodes finds the least one that fits. -/
theorem find?_eq_some_iff_least :
    l.find? p = some m ↔ (m ∈ l ∧ p m = true) ∧ ∀ k ∈ l, p k = true → m ≤ k := by
  rw [find?_eq_some_iff_of_pairwise h fun _ _ => Nat.lt_asymm]
  simp only [Nat.le_iff_lt_or_eq, or_comm, eq_comm]

/-- From the back, it finds the greatest one. -/
theorem find?_reverse_eq_some_iff_greatest :
    l.reverse.find? p = some m ↔ (m ∈ l ∧ p m = true) ∧ ∀ k ∈ l, p k = true → k ≤ m := by
  rw [find?_eq_some_iff_of_pairwise (List.pairwise_reverse.2 h) fun _ _ => Nat.lt_asymm]
  simp only [List.mem_reverse, Nat.le_iff_lt_or_eq, or_comm]

end

namespace Tree

variable {t : Tree} {kind : String} {m n n' : Nat}

theorem lt_endOf (hn : n < t.size) : n < t.endOf n := by
  have hnest := t.wellNested.2 n hn
  simp only [nestsAt, Bool.and_eq_true, decide_eq_true_eq] at hnest
  exact hnest.1

/-! ## Searching for a kind -/

/-- Whether a node of a kind stands in the subtree of `n`. -/
def Holds (t : Tree) (kind : String) (n : Nat) : Prop := ∃ m ∈ n :: t.below n, t.kind m = kind

theorem firstWithin?_isSome_iff : (t.firstWithin? kind n).isSome ↔ t.Holds kind n := by
  simp [firstWithin?, Holds]

theorem firstWithin?_self (h : t.kind n = kind) : t.firstWithin? kind n = some n := by
  rw [firstWithin?, List.find?_cons_of_pos (by simpa using h)]

theorem pairwise_below (t : Tree) (n : Nat) : (t.below n).Pairwise (· < ·) :=
  List.pairwise_lt_range' 1

theorem pairwise_within (t : Tree) (n : Nat) : (n :: t.below n).Pairwise (· < ·) :=
  List.pairwise_cons.2 ⟨fun _ hm => (mem_below_iff.1 hm).1, pairwise_below t n⟩

theorem pairwise_children (t : Tree) (n : Nat) : (t.children n).Pairwise (· < ·) :=
  (pairwise_below t n).filter _

theorem nodup_children (t : Tree) (n : Nat) : (t.children n).Nodup :=
  (pairwise_children t n).imp Nat.ne_of_lt

theorem pairwise_childrenOf (t : Tree) (kinds : List String) (n : Nat) :
    (t.childrenOf kinds n).Pairwise (· < ·) := (pairwise_children t n).filter _

/-- The first node of a kind in a subtree is the least one. -/
theorem firstWithin?_eq_some_iff : t.firstWithin? kind n = some m ↔
    (m ∈ n :: t.below n ∧ t.kind m = kind) ∧ ∀ k ∈ n :: t.below n, t.kind k = kind → m ≤ k := by
  rw [firstWithin?, find?_eq_some_iff_least (pairwise_within t n)]
  simp only [decide_eq_true_eq]

/-- A search in a subtree depends on the nodes of the kind in it only. -/
theorem firstWithin?_congr (h : ∀ m, (m ∈ n :: t.below n ∧ t.kind m = kind) ↔
      (m ∈ n' :: t.below n' ∧ t.kind m = kind)) :
    t.firstWithin? kind n = t.firstWithin? kind n' := by
  refine Option.ext fun m => ?_
  rw [firstWithin?_eq_some_iff, firstWithin?_eq_some_iff, h]
  refine and_congr_right fun _ => ?_
  exact ⟨fun hleast k hk hkind => hleast k ((h k).2 ⟨hk, hkind⟩).1 hkind,
    fun hleast k hk hkind => hleast k ((h k).1 ⟨hk, hkind⟩).1 hkind⟩

/-! ## Siblings -/

/-- Where the parser reports no other one, the sibling before a node is the child before it. -/
theorem prevSibling?_of_children {p a b : Nat} {before after : List Nat}
    (h : t.irregular? .prevSibling b = none) (hchildren : t.children p = before ++ a :: b :: after) :
    t.prevSibling? b = some a := by
  have hparent : t.shapeParent? b = some p := shapeParent?_of_mem_children (by simp [hchildren])
  have hsorted := pairwise_children t p
  simp only [hchildren, List.pairwise_append, List.pairwise_cons, List.mem_cons] at hsorted
  obtain ⟨-, ⟨ha, hb, -⟩, hbefore⟩ := hsorted
  have hfilter : (t.children p).filter (fun m => m < b && true) = before ++ [a] := by
    have hkept : before.filter (fun m => m < b && true) = before :=
      List.filter_eq_self.2 fun m hm => by simp [hbefore m hm b (.inr (.inl rfl))]
    have hdropped : (b :: after).filter (fun m => m < b && true) = [] := by
      simp only [List.filter_eq_nil_iff, List.mem_cons]
      rintro m (rfl | hm)
      · simp
      · have := hb m hm
        simp; omega
    have hlt : a < b := ha b (.inl rfl)
    rw [hchildren, List.filter_append, hkept, List.filter_cons_of_pos (by simp [hlt]), hdropped]
  rw [prevSibling?, follow, h, Option.getD_none, siblingBefore?, hparent, Option.bind_some, hfilter,
    List.getLast?_concat]

/-! ## Subtrees of children -/

/-- Every node below `n` lies in the subtree of a child. -/
theorem exists_child_of_mem_below (hn : n < t.size) (hm : m ∈ t.below n) :
    ∃ k ∈ t.children n, k ≤ m ∧ t.endOf m ≤ t.endOf k := by
  -- Parents come first, so the induction is on the number of the node.
  induction m using Nat.strongRecOn with
  | ind m ih =>
    obtain ⟨p, hp, hcase⟩ := shapeParent?_of_mem_below hn hm
    obtain ⟨hpm, -, hle, -⟩ := nests_of_shapeParent? hp
    rcases hcase with rfl | hbelow
    · exact ⟨m, mem_children_iff.2 hp, Nat.le_refl m, Nat.le_refl _⟩
    · obtain ⟨k, hk, hkp, hend⟩ := ih p hpm hbelow
      exact ⟨k, hk, Nat.le_trans hkp (Nat.le_of_lt hpm), Nat.le_trans hle hend⟩

end Tree
end ElmScope
