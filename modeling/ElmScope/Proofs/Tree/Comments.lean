import ElmScope.Proofs.Tree.Preorder
import Mathlib.Data.List.Forall2
import Mathlib.Data.Nat.Count
/-!
# Trees without comments

A comment may stand anywhere in a tree. Taken out, with what stands in it, the other nodes keep
their kinds, roles, spans and parents, and they keep their order, so a node gets the number of the
nodes left before it (`rank`). The numbering is again one in document order
(`wellNested_ranked`).

Under that correspondence (`Remains`) parents, children and roles are those of the full tree, as
long as the parser neither gives a comment a role nor links one against the shape
(`CommentsApart`).

* `Remains.children` — the children left are the ones that are no comments
* `Remains.chain`, `Remains.child?` — ancestors and roles stay
* `Remains.namedBefore?` — the named node before a node stays, as comments are passed over
-/
namespace ElmScope

/-! ## Related answers -/

section
variable {α β γ δ : Type} {R : α → β → Prop} {S : γ → δ → Prop} {l : List α} {l' : List β}
  {a : Option α} {b : Option β}

theorem rel_bind {f : α → Option γ} {g : β → Option δ} (h : Option.Rel R a b)
    (hfg : ∀ x ∈ a, ∀ y, R x y → Option.Rel S (f x) (g y)) :
    Option.Rel S (a.bind f) (b.bind g) := by
  cases h with
  | none => exact .none
  | some h => exact hfg _ rfl _ h

theorem rel_map {f : α → γ} {g : β → δ} (h : Option.Rel R a b)
    (hfg : ∀ x y, R x y → S (f x) (g y)) : Option.Rel S (a.map f) (b.map g) := by
  cases h with
  | none => exact .none
  | some h => exact .some (hfg _ _ h)

theorem rel_getD {a : Option (Option α)} {b : Option (Option β)} {a' : Option α} {b' : Option β}
    (h : Option.Rel (Option.Rel R) a b) (h' : Option.Rel R a' b') :
    Option.Rel R (a.getD a') (b.getD b') := by
  cases h with
  | none => exact h'
  | some h => exact h

theorem rel_filter {p : α → Bool} {q : β → Bool} (h : Option.Rel R a b)
    (hpq : ∀ x y, R x y → p x = q y) : Option.Rel R (a.filter p) (b.filter q) := by
  cases h with
  | none => exact .none
  | @some x y h =>
    rw [Option.filter_some, Option.filter_some, hpq x y h]
    split
    · exact .some h
    · exact .none

theorem isNone_eq_of_rel (h : Option.Rel R a b) : a.isNone = b.isNone := by
  cases h <;> rfl

theorem rel_find? {p : α → Bool} {q : β → Bool} (h : List.Forall₂ R l l')
    (hpq : ∀ x y, R x y → p x = q y) : Option.Rel R (l.find? p) (l'.find? q) := by
  induction h with
  | nil => exact .none
  | @cons x y l l' hxy _ ih =>
    rw [List.find?_cons, List.find?_cons, hpq x y hxy]
    cases q y
    · exact ih
    · exact .some hxy

theorem rel_head? (h : List.Forall₂ R l l') : Option.Rel R l.head? l'.head? := by
  cases h with
  | nil => exact .none
  | cons hxy _ => exact .some hxy

theorem rel_getLast? (h : List.Forall₂ R l l') : Option.Rel R l.getLast? l'.getLast? := by
  rw [List.getLast?_eq_head?_reverse, List.getLast?_eq_head?_reverse]
  exact rel_head? (List.rel_reverse h)

/-- Where what is sought is never left out, what is found is related to what is found. -/
theorem rel_find?_filterMap {f : α → Option β} {p : α → Bool} {q : β → Bool}
    (hkept : ∀ x ∈ l, p x = true → ∃ y, f x = some y ∧ q y = true ∧ R x y)
    (hfound : ∀ x ∈ l, ∀ y, f x = some y → q y = true → p x = true) :
    Option.Rel R (l.find? p) ((l.filterMap f).find? q) := by
  induction l with
  | nil => exact .none
  | cons x l ih =>
    obtain ⟨hkept, hkept'⟩ := List.forall_mem_cons.1 hkept
    obtain ⟨hfound, hfound'⟩ := List.forall_mem_cons.1 hfound
    cases hp : p x with
    | true =>
      obtain ⟨y, hy, hq, hxy⟩ := hkept hp
      rw [List.filterMap_cons_some hy, List.find?_cons_of_pos hp, List.find?_cons_of_pos hq]
      exact .some hxy
    | false =>
      rw [List.find?_cons_of_neg (by simp [hp])]
      cases hy : f x with
      | none =>
        rw [List.filterMap_cons_none hy]
        exact ih hkept' hfound'
      | some y =>
        have hq : ¬q y = true := fun hq => by simp [hfound y hy hq] at hp
        rw [List.filterMap_cons_some hy, List.find?_cons_of_neg hq]
        exact ih hkept' hfound'

theorem rel_getElem? (h : List.Forall₂ R l l') (i : Nat) : Option.Rel R l[i]? l'[i]? := by
  induction h generalizing i with
  | nil => exact .none
  | cons hxy _ ih =>
    cases i with
    | zero => exact .some hxy
    | succ i => exact ih i

/-- Where related elements are equal to related ones only, they stand at the same place. -/
theorem idxOf?_eq_of_rel [BEq α] [LawfulBEq α] [BEq β] [LawfulBEq β] {x : α} {y : β}
    (h : List.Forall₂ R l l') (heq : ∀ x' y', R x' y' → (x' = x ↔ y' = y)) :
    l.idxOf? x = l'.idxOf? y := by
  induction h with
  | nil => rfl
  | @cons x' y' l l' hxy _ ih =>
    have hbeq : (x' == x) = (y' == y) := Bool.eq_iff_iff.2 (by simpa using heq x' y' hxy)
    rw [List.idxOf?_cons, List.idxOf?_cons, hbeq, ih]

end

namespace Tree

/-- Whether a node is code: neither a comment nor part of one. The root is the file itself. -/
def isCode (t : Tree) (n : Nat) : Bool :=
  (List.range (n + 1)).all fun c => c = root || !isComment (t.kind c) || t.endOf c ≤ n

/-- The nodes that are code, in order. -/
def codeNodes (t : Tree) : List Nat := (List.range t.size).filter t.isCode

/-- How many nodes before a node are code. -/
def rank (t : Tree) (n : Nat) : Nat := Nat.count (fun k => t.isCode k = true) n

/-- The nodes that are code, with their parents renumbered. -/
def rankedNodes (t : Tree) : Array TreeNode :=
  (t.codeNodes.map fun n => ⟨t.kind n, t.isNamed n, t.label? n, .ofNat (t.start n),
    .ofNat (t.stop n), (t.shapeParent? n).map t.rank⟩).toArray

/-- The ends of their blocks. -/
def rankedEnds (t : Tree) : Array Nat := (t.codeNodes.map fun n => t.rank (t.endOf n)).toArray

variable {t : Tree} {m n p : Nat}

/-! ## Code -/

theorem isCode_iff : t.isCode n = true ↔
    ∀ c ≤ n, c ≠ root → isComment (t.kind c) = true → t.endOf c ≤ n := by
  simp only [isCode, List.all_eq_true, List.mem_range, Nat.lt_succ_iff, Bool.or_eq_true,
    Bool.not_eq_true', decide_eq_true_eq, or_iff_not_imp_left, Classical.not_imp, and_imp,
    Bool.not_eq_false, Ne]

theorem isCode_root (t : Tree) : t.isCode root = true :=
  isCode_iff.2 fun _ hc hne => absurd (Nat.le_zero.1 hc) hne

theorem isCode_of_mem_children (hn : t.isCode n = true) (hp : n ∈ t.children p) :
    t.isCode p = true := by
  obtain ⟨hpn, hsize⟩ := lt_of_mem_children hp
  refine isCode_iff.2 fun c hcp hroot hcomment => ?_
  have hend := isCode_iff.1 hn c (Nat.le_trans hcp (Nat.le_of_lt hpn)) hroot hcomment
  have hpsize : p < t.size := Nat.lt_trans hpn hsize
  by_contra hlt
  -- Otherwise the parent lies in the comment, and with it the node.
  have hp' : t.endOf p ≤ t.endOf c := by
    rcases Nat.eq_or_lt_of_le hcp with rfl | hcp
    · exact Nat.le_refl _
    · exact endOf_le_of_mem_below (Nat.lt_trans hcp hpsize) (mem_below_iff.2 ⟨hcp, by omega⟩)
  have hin := (mem_below_iff.1 (mem_below_of_mem_children hp)).2
  omega

theorem isComment_eq_false_of_isCode (hcode : t.isCode n = true) (hn : n < t.size)
    (hroot : n ≠ root) : isComment (t.kind n) = false := by
  rw [Bool.eq_false_iff]
  intro hcomment
  have hend := isCode_iff.1 hcode n (Nat.le_refl n) hroot hcomment
  exact absurd (lt_endOf hn) (Nat.not_lt.2 hend)

/-- A child of a node that is code is a comment or code. -/
theorem isCode_iff_of_mem_children (hp : t.isCode p = true) (hm : m ∈ t.children p) :
    t.isCode m = true ↔ isComment (t.kind m) = false := by
  obtain ⟨hpm, hsize⟩ := lt_of_mem_children hm
  have hroot : m ≠ root := Nat.ne_of_gt (Nat.zero_lt_of_lt hpm)
  refine ⟨fun hcode => isComment_eq_false_of_isCode hcode hsize hroot, fun hkind => ?_⟩
  refine isCode_iff.2 fun c hc hroot hcomment => ?_
  rcases Nat.lt_or_ge p c with hpc | hcp
  · rcases Nat.eq_or_lt_of_le hc with rfl | hcm
    · simp [hkind] at hcomment
    · exact (nests_of_shapeParent? (shapeParent?_of_mem_children hm)).2.2.2 c hpc hcm
  · exact Nat.le_trans (isCode_iff.1 hp c hcp hroot hcomment) (Nat.le_of_lt hpm)

/-! ## Ranks -/

theorem rank_le_rank (t : Tree) (h : m ≤ n) : t.rank m ≤ t.rank n := Nat.count_monotone _ h

theorem rank_lt_rank_iff (hm : t.isCode m = true) : t.rank m < t.rank n ↔ m < n := by
  refine ⟨fun h => ?_, fun h => Nat.count_strict_mono hm h⟩
  by_contra hle
  exact absurd (t.rank_le_rank (Nat.le_of_not_lt hle)) (Nat.not_le.2 h)

theorem rank_inj (hm : t.isCode m = true) (hn : t.isCode n = true) (h : t.rank m = t.rank n) :
    m = n := Nat.count_injective hm hn h

theorem length_codeNodes (t : Tree) : t.codeNodes.length = t.rank t.size := by
  rw [codeNodes, ← List.countP_eq_length_filter, rank, Nat.count]
  simp only [Bool.decide_eq_true]

theorem getElem?_codeNodes (hcode : t.isCode n = true) (hn : n < t.size) :
    t.codeNodes[t.rank n]? = some n := by
  have hrank : t.rank n = ((List.range n).filter t.isCode).length := by
    rw [← List.countP_eq_length_filter, rank, Nat.count]
    simp only [Bool.decide_eq_true]
  have hlength : t.size = n + (t.size - (n + 1) + 1) := by omega
  have hsplit : List.range t.size =
      List.range n ++ n :: List.range' (n + 1) (t.size - (n + 1)) := by
    conv_lhs => rw [hlength, List.range_eq_range', ← List.range'_append_1, List.range'_succ]
    rw [List.range_eq_range', Nat.zero_add]
  rw [codeNodes, hsplit, List.filter_append, List.filter_cons_of_pos hcode, hrank,
    List.getElem?_append_right (Nat.le_refl _), Nat.sub_self, List.getElem?_cons_zero]

/-- Every number below the number of code nodes is the rank of one. -/
theorem exists_rank_eq (hn : n < t.codeNodes.length) :
    ∃ m < t.size, t.isCode m = true ∧ t.rank m = n := by
  have hmem := List.getElem_mem hn
  simp only [codeNodes, List.mem_filter, List.mem_range] at hmem
  have hnodup : t.codeNodes.Nodup := List.nodup_range.filter _
  refine ⟨t.codeNodes[n], hmem.1, hmem.2, ?_⟩
  have hget := getElem?_codeNodes hmem.2 hmem.1
  obtain ⟨hlt, heq⟩ := List.getElem?_eq_some_iff.1 hget
  exact (List.Nodup.getElem_inj_iff hnodup).1 heq

/-! ## The tree -/

theorem size_rankedNodes (t : Tree) : t.rankedNodes.size = t.rank t.size := by
  rw [rankedNodes, List.size_toArray, List.length_map, length_codeNodes]

theorem getElem?_rankedNodes (hcode : t.isCode n = true) (hn : n < t.size) :
    t.rankedNodes[t.rank n]? = some ⟨t.kind n, t.isNamed n, t.label? n, .ofNat (t.start n),
      .ofNat (t.stop n), (t.shapeParent? n).map t.rank⟩ := by
  rw [rankedNodes, List.getElem?_toArray, List.getElem?_map, getElem?_codeNodes hcode hn,
    Option.map_some]

theorem endIn_rankedEnds (hcode : t.isCode n = true) (hn : n < t.size) :
    endIn t.rankedEnds (t.rank n) = t.rank (t.endOf n) := by
  rw [endIn, rankedEnds, List.getElem?_toArray, List.getElem?_map, getElem?_codeNodes hcode hn,
    Option.map_some, Option.getD_some]

theorem parentIn_rankedNodes (hcode : t.isCode n = true) (hn : n < t.size) :
    parentIn t.rankedNodes (t.rank n) = (t.shapeParent? n).map t.rank := by
  rw [parentIn, getElem?_rankedNodes hcode hn, Option.bind_some]

/-- The blocks that are left nest as before. -/
theorem wellNested_ranked (t : Tree) : WellNested t.rankedNodes t.rankedEnds := by
  have hroot : t.rank root < t.rank t.size :=
    (rank_lt_rank_iff (isCode_root t)).2 (root_lt_size t)
  refine ⟨by rw [size_rankedNodes]; omega, fun i hi => ?_⟩
  rw [size_rankedNodes, ← length_codeNodes] at hi
  obtain ⟨n, hn, hcode, rfl⟩ := exists_rank_eq hi
  have hend := endIn_rankedEnds hcode hn
  have hlt : t.rank n < t.rank (t.endOf n) := (rank_lt_rank_iff hcode).2 (lt_endOf hn)
  simp only [nestsAt, hend, parentIn_rankedNodes hcode hn, Bool.and_eq_true, decide_eq_true_eq]
  refine ⟨hlt, ?_⟩
  cases hp : t.shapeParent? n with
  | none =>
    obtain rfl := (shapeParent?_eq_none_iff hn).1 hp
    simp only [Option.map_none, Bool.and_eq_true, decide_eq_true_eq, size_rankedNodes]
    exact ⟨Nat.count_zero _, by rw [endOf_root]⟩
  | some p =>
    obtain ⟨hpn, -, hle, hbetween⟩ := nests_of_shapeParent? hp
    have hpcode := isCode_of_mem_children hcode (mem_children_iff.2 hp)
    simp only [Option.map_some, Bool.and_eq_true, decide_eq_true_eq, List.all_eq_true,
      List.mem_range, Bool.or_eq_true, endIn_rankedEnds hpcode (Nat.lt_trans hpn hn)]
    refine ⟨⟨(rank_lt_rank_iff hpcode).2 hpn, t.rank_le_rank hle⟩, fun j hj => ?_⟩
    obtain ⟨q, hq, hqcode, rfl⟩ := exists_rank_eq (Nat.lt_trans hj hi)
    rw [endIn_rankedEnds hqcode hq]
    rcases Nat.lt_or_ge p q with hpq | hqp
    · exact .inr (t.rank_le_rank (hbetween q hpq ((rank_lt_rank_iff hqcode).1 hj)))
    · exact .inl (t.rank_le_rank hqp)

/-- The tree without its comments. A link reported against the shape stays if neither end of it
was taken out. -/
def withoutComments (t : Tree) : Tree where
  nodes := t.rankedNodes
  ends := t.rankedEnds
  irregular := t.irregular.filterMap fun (link, n, target) =>
    if t.isCode n && target.all t.isCode then some (link, t.rank n, target.map t.rank) else none
  wellNested := t.wellNested_ranked

/-- Node `n` is code, and `n'` is what it is without the comments. -/
def Remains (t : Tree) (n n' : Nat) : Prop := t.isCode n = true ∧ n' = t.rank n

/-- The parser gives comments no role, and links none against the shape, siblings that may be
comments aside. -/
structure CommentsApart (t : Tree) : Prop where
  unlabelled : ∀ c < t.size, isComment (t.kind c) = true → t.label? c = none
  unlinked : ∀ entry ∈ t.irregular, entry.1 ∉ [Link.nextSibling, .prevSibling] →
    t.isCode entry.2.1 = true ∧ ∀ m ∈ entry.2.2, t.isCode m = true

variable {n' m' : Nat}

/-- The root is never taken out. -/
theorem remains_root (t : Tree) : t.Remains root root := ⟨t.isCode_root, (Nat.count_zero _).symm⟩

theorem size_withoutComments (t : Tree) : t.withoutComments.size = t.rank t.size :=
  t.size_rankedNodes

/-- Every node without the comments is what one node of code remains as. -/
theorem existsUnique_remains (hn : n' < t.withoutComments.size) :
    ∃! n, n < t.size ∧ t.Remains n n' := by
  rw [size_withoutComments, ← length_codeNodes] at hn
  obtain ⟨n, hlt, hcode, rfl⟩ := exists_rank_eq hn
  exact ⟨n, ⟨hlt, hcode, rfl⟩, fun m hm => rank_inj hm.2.1 hcode hm.2.2.symm⟩

/-- Where the comments hold nothing, they are all that is taken out. -/
theorem exists_remains_iff (hleaf : ∀ c < t.size, isComment (t.kind c) = true → t.isLeaf c = true)
    (hn : n < t.size) (hroot : n ≠ root) :
    (∃ n', t.Remains n n') ↔ isComment (t.kind n) = false := by
  refine ⟨fun ⟨_, h⟩ => isComment_eq_false_of_isCode h.1 hn hroot, fun hkind => ?_⟩
  refine ⟨_, isCode_iff.2 fun c hc _ hcomment => ?_, rfl⟩
  have hend : t.endOf c ≤ c + 1 := of_decide_eq_true (hleaf c (Nat.lt_of_le_of_lt hc hn) hcomment)
  have hne : c ≠ n := by
    rintro rfl
    simp [hkind] at hcomment
  omega

namespace Remains

theorem lt_size_iff (h : t.Remains n n') : n' < t.withoutComments.size ↔ n < t.size := by
  rw [size_withoutComments, h.2, rank_lt_rank_iff h.1]

theorem eq_iff (hm : t.Remains m m') (hn : t.Remains n n') : m = n ↔ m' = n' := by
  refine ⟨?_, fun h => rank_inj hm.1 hn.1 (by rw [← hm.2, ← hn.2, h])⟩
  rintro rfl
  rw [hm.2, hn.2]

theorem lt_iff (hm : t.Remains m m') (hn : t.Remains n n') : m < n ↔ m' < n' := by
  rw [hm.2, hn.2, rank_lt_rank_iff hm.1]

/-- What a node is, it remains, with its parent renumbered. -/
theorem getElem? (h : t.Remains n n') :
    t.withoutComments.nodes[n']? = t.nodes[n]?.map fun node =>
      { node with parent := node.parent.map t.rank } := by
  by_cases hn : n < t.size
  · have hnode : t.nodes[n]? = some t.nodes[n] := Array.getElem?_eq_getElem hn
    have hranked := getElem?_rankedNodes h.1 hn
    simp only [Tree.kind, isNamed, label?, start, stop, shapeParent?, parentIn, hnode,
      Option.elim_some, Option.any_some, Option.bind_some, UInt32.ofNat_toNat] at hranked
    rw [h.2, hnode, Option.map_some]
    exact hranked
  · have hsize : t.withoutComments.size ≤ n' :=
      Nat.le_of_not_lt fun hlt => hn (h.lt_size_iff.1 hlt)
    rw [Array.getElem?_eq_none hsize, Array.getElem?_eq_none (Nat.le_of_not_lt hn), Option.map_none]

theorem kind (h : t.Remains n n') : t.withoutComments.kind n' = t.kind n := by
  rw [Tree.kind, Tree.kind, h.getElem?]
  cases t.nodes[n]? <;> rfl

theorem isNamed (h : t.Remains n n') : t.withoutComments.isNamed n' = t.isNamed n := by
  rw [Tree.isNamed, Tree.isNamed, h.getElem?]
  cases t.nodes[n]? <;> rfl

theorem label? (h : t.Remains n n') : t.withoutComments.label? n' = t.label? n := by
  rw [Tree.label?, Tree.label?, h.getElem?]
  cases t.nodes[n]? <;> rfl

theorem shapeParent?_eq (h : t.Remains n n') :
    t.withoutComments.shapeParent? n' = (t.shapeParent? n).map t.rank := by
  rw [Tree.shapeParent?, Tree.shapeParent?, parentIn, parentIn, h.getElem?]
  cases t.nodes[n]? <;> rfl

theorem shapeParent? (h : t.Remains n n') :
    Option.Rel t.Remains (t.shapeParent? n) (t.withoutComments.shapeParent? n') := by
  rw [h.shapeParent?_eq]
  cases hp : t.shapeParent? n with
  | none => exact .none
  | some p => exact .some ⟨isCode_of_mem_children h.1 (mem_children_iff.2 hp), rfl⟩

/-- The children that are left are those that are no comments. -/
theorem children (h : t.Remains n n') : List.Forall₂ t.Remains
    ((t.children n).filter fun m => !isComment (t.kind m)) (t.withoutComments.children n') := by
  have hcode : ∀ m ∈ (t.children n).filter (fun m => !isComment (t.kind m)),
      t.isCode m = true := by
    intro m hm
    obtain ⟨hm, hkind⟩ := List.mem_filter.1 hm
    exact (isCode_iff_of_mem_children h.1 hm).2 (by simpa using hkind)
  have hmap : t.withoutComments.children n' =
      ((t.children n).filter fun m => !isComment (t.kind m)).map t.rank := by
    refine (pairwise_children _ _).eq_of_mem_iff (List.pairwise_map.2 (List.Pairwise.imp_of_mem
      (fun {a b} ha _ hab => (rank_lt_rank_iff (hcode a ha)).2 hab)
      ((pairwise_children t n).filter _))) fun m' => ?_
    rw [mem_children_iff, List.mem_map]
    constructor
    · intro hp
      obtain ⟨m, ⟨-, hm⟩, -⟩ := existsUnique_remains (lt_size_of_shapeParent? hp)
      rw [hm.shapeParent?_eq, Option.map_eq_some_iff] at hp
      obtain ⟨p, hp, hrank⟩ := hp
      have hchild := mem_children_iff.2 hp
      have hpcode := isCode_of_mem_children hm.1 hchild
      obtain rfl : p = n := rank_inj hpcode h.1 (hrank.trans h.2)
      refine ⟨m, List.mem_filter.2 ⟨hchild, ?_⟩, hm.2.symm⟩
      rw [(isCode_iff_of_mem_children h.1 hchild).1 hm.1]
      rfl
    · rintro ⟨m, hm, rfl⟩
      have hremains : t.Remains m (t.rank m) := ⟨hcode m hm, rfl⟩
      rw [hremains.shapeParent?_eq, shapeParent?_of_mem_children (List.mem_filter.1 hm).1,
        Option.map_some, h.2]
  rw [hmap, List.forall₂_map_right_iff, List.forall₂_same]
  exact fun m hm => ⟨hcode m hm, rfl⟩

/-- Of the children that pass a test, those are left that passed it, if no comment passes it. -/
theorem filter_children {test test' : Nat → Bool} (h : t.Remains n n')
    (htest : ∀ m m', t.Remains m m' → test m = test' m')
    (hcode : ∀ m ∈ t.children n, test m = true → isComment (t.kind m) = false) :
    List.Forall₂ t.Remains ((t.children n).filter test)
      ((t.withoutComments.children n').filter test') := by
  have hfilter : (t.children n).filter test =
      ((t.children n).filter fun m => !isComment (t.kind m)).filter test := by
    rw [List.filter_filter]
    refine List.filter_congr fun m hm => ?_
    cases htest : test m with
    | false => simp
    | true => simp [hcode m hm htest]
  rw [hfilter]
  exact List.rel_filter (fun m m' hm => by dsimp only; rw [htest m m' hm]) h.children

theorem namedChildren (h : t.Remains n n') : List.Forall₂ t.Remains
    ((t.namedChildren n).filter fun m => !isComment (t.kind m))
    (t.withoutComments.namedChildren n') := by
  rw [Tree.namedChildren, Tree.namedChildren, List.filter_comm]
  refine List.rel_filter (fun m m' hm => ?_) h.children
  dsimp only
  rw [hm.isNamed]

theorem childrenOf {kinds : List String} (hkinds : ∀ kind ∈ kinds, isComment kind = false)
    (h : t.Remains n n') :
    List.Forall₂ t.Remains (t.childrenOf kinds n) (t.withoutComments.childrenOf kinds n') :=
  h.filter_children (fun m m' hm => by rw [hm.kind]) fun m _ hm => hkinds _ (by simpa using hm)

/-- The last sibling before a node that passes a test stays, if no comment passes it. -/
theorem siblingBefore? {test test' : Nat → Bool} (h : t.Remains n n')
    (htest : ∀ m m', t.Remains m m' → test m = test' m')
    (hcode : ∀ m, test m = true → isComment (t.kind m) = false) :
    Option.Rel t.Remains (t.siblingBefore? test n) (t.withoutComments.siblingBefore? test' n') := by
  refine rel_bind h.shapeParent? fun p _ p' hp => rel_getLast? (hp.filter_children ?_ ?_)
  · intro m m' hm
    rw [htest m m' hm, decide_eq_decide.2 (hm.lt_iff h)]
  · exact fun m _ hm => hcode m (Bool.and_eq_true_iff.1 hm).2

end Remains

namespace CommentsApart

variable (hapart : t.CommentsApart)
include hapart

/-- The links reported against the shape lead to what their targets remain as. -/
theorem irregular? {link : Link} (hlink : link ∉ [Link.nextSibling, .prevSibling])
    (h : t.Remains n n') : Option.Rel (Option.Rel t.Remains) (t.irregular? link n)
      (t.withoutComments.irregular? link n') := by
  refine rel_map (R := fun e e' => Option.Rel t.Remains e.2.2 e'.2.2)
    (rel_find?_filterMap ?_ ?_) fun _ _ hentry => hentry
  · rintro ⟨l, m, target⟩ hmem hfound
    simp only [Bool.and_eq_true, decide_eq_true_eq] at hfound
    obtain ⟨rfl, rfl⟩ := hfound
    obtain ⟨hm, htarget⟩ := hapart.unlinked _ hmem hlink
    refine ⟨(l, t.rank m, target.map t.rank), if_pos ?_, by simp [h.2], ?_⟩
    · rw [hm, Bool.true_and, Option.all_eq_true]
      exact htarget
    · cases target with
      | none => exact .none
      | some p => exact .some ⟨htarget p rfl, rfl⟩
  · rintro ⟨l, m, target⟩ - ⟨l', m', target'⟩ hkept hfound
    obtain ⟨hcode, heq⟩ := Option.ite_none_right_eq_some.1 hkept
    obtain ⟨rfl, rfl, rfl⟩ := heq
    simp only [Bool.and_eq_true, decide_eq_true_eq] at hfound hcode ⊢
    exact ⟨hfound.1, rank_inj hcode.1 h.1 (hfound.2.trans h.2)⟩

theorem follow {link : Link} {a b : Option Nat} (hlink : link ∉ [Link.nextSibling, .prevSibling])
    (h : t.Remains n n') (hab : Option.Rel t.Remains a b) :
    Option.Rel t.Remains (t.follow link n a) (t.withoutComments.follow link n' b) :=
  rel_getD (hapart.irregular? hlink h) hab

theorem parent? (h : t.Remains n n') :
    Option.Rel t.Remains (t.parent? n) (t.withoutComments.parent? n') := by
  rw [Tree.parent?, Tree.parent?]
  refine rel_filter (hapart.follow (by simp) h h.shapeParent?) fun m m' hm => ?_
  rw [decide_eq_decide, hm.lt_iff h]

theorem chain (h : t.Remains n n') :
    List.Forall₂ t.Remains (t.chain n) (t.withoutComments.chain n') := by
  -- Parents come first, so the induction is on the number of the node.
  induction n using Nat.strongRecOn generalizing n' with
  | ind n ih =>
    have hparent := hapart.parent? h
    generalize hp : t.parent? n = a, hp' : t.withoutComments.parent? n' = b at hparent
    cases hparent with
    | none =>
      rw [chain_of_parent?_eq_none hp, chain_of_parent?_eq_none hp']
      exact .cons h .nil
    | some hremains =>
      rw [chain_of_parent? hp, chain_of_parent? hp']
      exact .cons h (ih _ (parent_lt hp) hremains)

theorem child? (h : t.Remains n n') (name : String) :
    Option.Rel t.Remains (t.child? name n) (t.withoutComments.child? name n') := by
  refine hapart.follow (by simp) h ?_
  rw [← List.head?_filter, ← List.head?_filter]
  refine rel_head? (h.filter_children (fun m m' hm => by rw [hm.label?]) fun m hm hlabel => ?_)
  rw [Bool.eq_false_iff]
  intro hcomment
  simp [hapart.unlabelled m (lt_of_mem_children hm).2 hcomment] at hlabel

/-! ### The named node before a node -/

end CommentsApart

section
variable {test : Nat → Bool}

theorem siblingBefore?_of_shapeParent? (hp : t.shapeParent? n = some p) : t.siblingBefore? test n =
    ((t.children p).filter fun m => m < n && test m).getLast? := by
  rw [siblingBefore?, hp, Option.bind_some]

theorem siblingBefore?_eq_some (h : t.siblingBefore? test n = some m) :
    ∃ p, t.shapeParent? n = some p ∧ m ∈ t.children p ∧ m < n ∧ test m = true := by
  obtain ⟨p, hp, hlast⟩ := Option.bind_eq_some_iff.1 h
  obtain ⟨hm, htest⟩ := List.mem_filter.1 (List.mem_of_getLast? hlast)
  simp only [Bool.and_eq_true, decide_eq_true_eq] at htest
  exact ⟨p, hp, hm, htest⟩

/-- The last sibling before a node that passes two tests is the last one that passes the first, or
stands before that one. -/
theorem siblingBefore?_and (t : Tree) (test other : Nat → Bool) (n : Nat) :
    t.siblingBefore? (fun m => test m && other m) n = (t.siblingBefore? test n).bind fun m =>
      if other m then some m else t.siblingBefore? (fun m => test m && other m) m := by
  cases hp : t.shapeParent? n with
  | none =>
    rw [siblingBefore?, siblingBefore?, hp]
    rfl
  | some p =>
    have hfilter : ∀ k, ((t.children p).filter fun m => m < k && (test m && other m)) =
        ((t.children p).filter fun m => m < k && test m).filter other := fun k => by
      simp only [List.filter_filter, Bool.and_assoc, Bool.and_comm (other _)]
    rw [siblingBefore?_of_shapeParent? hp, siblingBefore?_of_shapeParent? hp, hfilter]
    rcases List.eq_nil_or_concat' ((t.children p).filter fun m => m < n && test m) with
      hnil | ⟨init, m, hlast⟩
    · rw [hnil]
      rfl
    · have hsorted := hlast ▸ (pairwise_children t p).filter fun m => m < n && test m
      have hmem : m ∈ (t.children p).filter fun m => m < n && test m := by simp [hlast]
      obtain ⟨hm, htest⟩ := List.mem_filter.1 hmem
      simp only [Bool.and_eq_true, decide_eq_true_eq] at htest
      have hinit : ((t.children p).filter fun k => k < m && test k) = init := by
        have hbefore : ((t.children p).filter fun k => k < m && test k) =
            ((t.children p).filter fun k => k < n && test k).filter fun k => k < m := by
          rw [List.filter_filter]
          refine List.filter_congr fun k _ => ?_
          have hkn : k < m → k < n := fun hk => Nat.lt_trans hk htest.1
          by_cases hk : k < m <;> simp [hk, hkn]
        have hlt := (List.pairwise_append.1 hsorted).2.2
        rw [hbefore, hlast, List.filter_append, List.filter_eq_self.2 fun k hk => by
          simpa using hlt k hk m (List.mem_singleton_self m)]
        simp
      rw [hlast, List.getLast?_concat, Option.bind_some,
        siblingBefore?_of_shapeParent? (mem_children_iff.1 hm), hfilter, hinit, List.filter_append]
      cases hother : other m <;> simp [hother]

end

theorem namedBefore?_eq_bind (t : Tree) (n : Nat) : t.namedBefore? n =
    (t.prevNamedSibling? n).bind fun m =>
      if isComment (t.kind m) then t.namedBefore? m else some m := by
  rw [namedBefore?]
  split <;> simp [*]

/-- Where the links to the named siblings before them follow the shape, the comments before a node
are passed over. -/
theorem namedBefore?_eq_siblingBefore? (hn : t.irregular? .prevNamedSibling n = none)
    (hcomments : ∀ p, t.shapeParent? n = some p → ∀ m ∈ t.children p,
      isComment (t.kind m) = true → t.irregular? .prevNamedSibling m = none) :
    t.namedBefore? n = t.siblingBefore? (fun m => t.isNamed m && !isComment (t.kind m)) n := by
  -- The named sibling before a node comes first, so the induction is on the number of the node.
  induction n using Nat.strongRecOn with
  | ind n ih =>
    have hprev : t.prevNamedSibling? n = t.siblingBefore? t.isNamed n := by
      rw [prevNamedSibling?, follow, hn, Option.getD_none]
      cases hs : t.siblingBefore? t.isNamed n with
      | none => rfl
      | some m =>
        obtain ⟨-, -, -, hlt, -⟩ := siblingBefore?_eq_some hs
        rw [Option.filter_some, if_pos (decide_eq_true hlt)]
    rw [namedBefore?_eq_bind, hprev, siblingBefore?_and]
    cases hs : t.siblingBefore? t.isNamed n with
    | none => rfl
    | some m =>
      obtain ⟨p, hp, hm, hlt, -⟩ := siblingBefore?_eq_some hs
      cases hcomment : isComment (t.kind m) with
      | true =>
        have hnamed := ih m hlt (hcomments p hp m hm hcomment) fun q hq => by
          obtain rfl : p = q := Option.some.inj ((mem_children_iff.1 hm).symm.trans hq)
          exact hcomments p hp
        simpa [hcomment] using hnamed
      | false => simp [hcomment]

/-- No comment is left among the children of a node. -/
theorem isComment_kind_withoutComments (hm : m' ∈ t.withoutComments.children n') :
    isComment (t.withoutComments.kind m') = false := by
  obtain ⟨hlt, hsize⟩ := lt_of_mem_children hm
  obtain ⟨m, ⟨hmsize, hremains⟩, -⟩ := existsUnique_remains hsize
  rw [hremains.kind]
  refine isComment_eq_false_of_isCode hremains.1 hmsize fun hroot => ?_
  obtain rfl : root = m' := ((remains_root t).eq_iff hremains).1 hroot.symm
  exact absurd hlt (Nat.not_lt_zero n')

namespace CommentsApart

variable (hapart : t.CommentsApart)
include hapart

theorem irregular?_eq_none {link : Link} (hlink : link ∉ [Link.nextSibling, .prevSibling])
    (hn : t.isCode n = false) : t.irregular? link n = none := by
  rw [Tree.irregular?, Option.map_eq_none_iff, List.find?_eq_none]
  rintro ⟨l, m, target⟩ hmem hfound
  simp only [Bool.and_eq_true, decide_eq_true_eq] at hfound
  obtain ⟨rfl, rfl⟩ := hfound
  simp [(hapart.unlinked _ hmem hlink).1] at hn

/-- A node has the same named node before it, with the comments and without them. -/
theorem namedBefore? (h : t.Remains n n') :
    Option.Rel t.Remains (t.namedBefore? n) (t.withoutComments.namedBefore? n') := by
  -- The target of a link against the shape comes first, so the induction is on the number again.
  induction n using Nat.strongRecOn generalizing n' with
  | ind n ih =>
    have hlink : Option.Rel (Option.Rel t.Remains) (t.irregular? .prevNamedSibling n) _ :=
      hapart.irregular? (by simp) h
    generalize hi : t.irregular? .prevNamedSibling n = a,
      hi' : t.withoutComments.irregular? .prevNamedSibling n' = b at hlink
    cases hlink with
    | none =>
      have hcomments : ∀ p, t.shapeParent? n = some p → ∀ m ∈ t.children p,
          isComment (t.kind m) = true → t.irregular? .prevNamedSibling m = none := by
        intro p hp m hm hcomment
        have hcode := isCode_of_mem_children h.1 (mem_children_iff.2 hp)
        refine hapart.irregular?_eq_none (by simp) (Bool.eq_false_iff.2 fun hm' => ?_)
        simp [(isCode_iff_of_mem_children hcode hm).1 hm'] at hcomment
      have hnone : ∀ p', t.withoutComments.shapeParent? n' = some p' →
          ∀ m' ∈ t.withoutComments.children p', isComment (t.withoutComments.kind m') = true →
            t.withoutComments.irregular? .prevNamedSibling m' = none :=
        fun _ _ m' hm' hcomment => by simp [isComment_kind_withoutComments hm'] at hcomment
      rw [namedBefore?_eq_siblingBefore? hi hcomments, namedBefore?_eq_siblingBefore? hi' hnone]
      refine h.siblingBefore? (fun m m' hm => by rw [hm.isNamed, hm.kind]) fun m hm => ?_
      simpa using (Bool.and_eq_true_iff.1 hm).2
    | some htarget =>
      rw [namedBefore?_eq_bind, namedBefore?_eq_bind, prevNamedSibling?, prevNamedSibling?,
        Tree.follow, Tree.follow, hi, hi', Option.getD_some, Option.getD_some]
      refine rel_bind (rel_filter htarget fun m m' hm => ?_) fun m hmem m' hm => ?_
      · rw [decide_eq_decide, hm.lt_iff h]
      · rw [hm.kind]
        split
        · exact ih m (by simpa using (Option.filter_eq_some_iff.1 hmem).2) hm
        · exact .some hm

end CommentsApart
end Tree
end ElmScope
