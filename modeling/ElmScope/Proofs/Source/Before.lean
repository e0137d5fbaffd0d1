import ElmScope.Proofs.Source.Cursor
import ElmScope.Proofs.Tree.Leaves
import Mathlib.Data.List.Induction
/-!
# The token before a place

A token is a leaf that covers text. Where the spans of a tree are those of its tokens (`Spanned`),
the tokens of a subtree follow each other in the source and fill the span of its root
(`Spanned.tokens`), and the last one is found along the right edge (`Spanned.rightmostLeaf?_eq`).
The search for the token before a place follows the child around the place as long as there is one.
All tokens before that child start before the place, and none behind it does.

* `leafBefore?_lastToken` — the search finds the last token that starts before the place
-/
namespace ElmScope
namespace Tree

/-- The tokens of a subtree in document order: its leaves that cover text. -/
def tokensWithin (t : Tree) (n : Nat) : List Nat := (t.leavesWithin n).filter t.hasTokens

/-- The spans of a tree are those of its tokens: siblings follow each other without overlap, and a
node with children spans from its first token to its last one. Without tokens it covers nothing. -/
structure Spanned (t : Tree) : Prop where
  ordered : ∀ n < t.size, t.start n ≤ t.stop n
  disjoint : ∀ n < t.size, (t.children n).Pairwise fun d m => t.stop d ≤ t.start m
  first : ∀ n < t.size, t.children n ≠ [] → ∀ m ∈ (t.tokensWithin n).head?, t.start n = t.start m
  last : ∀ n < t.size, t.children n ≠ [] → ∀ m ∈ (t.tokensWithin n).getLast?, t.stop n = t.stop m
  bare : ∀ n < t.size, t.children n ≠ [] → t.tokensWithin n = [] → t.start n = t.stop n

variable {t : Tree} {m n : Nat}

/-! ## Tokens of a subtree -/

theorem hasTokens_iff : t.hasTokens n = true ↔ t.stop n ≠ t.start n := by
  rw [hasTokens, decide_eq_true_eq]

theorem mem_tokensWithin_iff :
    m ∈ t.tokensWithin n ↔ m ∈ t.leavesWithin n ∧ t.hasTokens m = true := by
  rw [tokensWithin, List.mem_filter]

theorem tokensWithin_of_leaf (h : t.children n = []) :
    t.tokensWithin n = if t.hasTokens n then [n] else [] := by
  rw [tokensWithin, leavesWithin_of_leaf h, List.filter_cons, List.filter_nil]

theorem tokensWithin_of_children (h : t.children n ≠ []) :
    t.tokensWithin n = (t.children n).flatMap t.tokensWithin := by
  rw [tokensWithin, leavesWithin_of_children h, List.filter_flatMap]
  rfl

namespace Spanned

variable (h : t.Spanned)
include h

/-- The tokens of a subtree follow each other within the span of its root. -/
theorem tokens (hn : n < t.size) :
    ((t.tokensWithin n).Pairwise fun a b => t.stop a ≤ t.start b) ∧
      ∀ m ∈ t.tokensWithin n,
        t.start n ≤ t.start m ∧ t.start m < t.stop m ∧ t.stop m ≤ t.stop n := by
  induction n using subtree_induction (t := t) with
  | step n ih =>
    by_cases hleaf : t.children n = []
    · have hordered := h.ordered n hn
      rw [tokensWithin_of_leaf hleaf]
      by_cases hhas : t.hasTokens n = true
      · have hne := hasTokens_iff.1 hhas
        rw [if_pos hhas]
        refine ⟨List.pairwise_singleton _ n, fun m hm => ?_⟩
        rw [List.mem_singleton.1 hm]
        omega
      · rw [if_neg hhas]
        exact ⟨.nil, fun m hm => absurd hm List.not_mem_nil⟩
    · have hchild : ∀ c ∈ t.children n, _ := fun c hc => ih c hc (lt_of_mem_children hc).2
      have hpairwise : (t.tokensWithin n).Pairwise fun a b => t.stop a ≤ t.start b := by
        rw [tokensWithin_of_children hleaf, List.pairwise_flatMap]
        refine ⟨fun c hc => (hchild c hc).1,
          (h.disjoint n hn).imp_of_mem fun {c d} hc hd hcd x hx y hy => ?_⟩
        calc t.stop x ≤ t.stop c := ((hchild c hc).2 x hx).2.2
          _ ≤ t.start d := hcd
          _ ≤ t.start y := ((hchild d hd).2 y hy).1
      have hcovers : ∀ m ∈ t.tokensWithin n, t.start m < t.stop m := by
        intro m hm
        rw [tokensWithin_of_children hleaf, List.mem_flatMap] at hm
        obtain ⟨c, hc, hm⟩ := hm
        exact ((hchild c hc).2 m hm).2.1
      refine ⟨hpairwise, fun m hm => ⟨?_, hcovers m hm, ?_⟩⟩
      · obtain ⟨f, rest, hfirst⟩ := List.exists_cons_of_ne_nil (List.ne_nil_of_mem hm)
        rw [h.first n hn hleaf f (by simp [hfirst])]
        rw [hfirst] at hm hpairwise
        rcases List.mem_cons.1 hm with rfl | hm
        · exact Nat.le_refl _
        · have hlt := hcovers f (by simp [hfirst])
          exact Nat.le_trans (Nat.le_of_lt hlt) (List.rel_of_pairwise_cons hpairwise hm)
      · obtain ⟨init, l, hlast⟩ := (List.eq_nil_or_concat' _).resolve_left (List.ne_nil_of_mem hm)
        rw [h.last n hn hleaf l (by simp [hlast])]
        have hlt := hcovers l (by simp [hlast])
        rw [hlast] at hm hpairwise
        rcases List.mem_append.1 hm with hm | hm
        · have := (List.pairwise_append.1 hpairwise).2.2 m hm l List.mem_cons_self
          omega
        · rw [List.mem_singleton.1 hm]

theorem tokensWithin_eq_nil_iff (hn : n < t.size) :
    t.tokensWithin n = [] ↔ t.hasTokens n = false := by
  rw [Bool.eq_false_iff, Ne, hasTokens_iff, not_not]
  constructor
  · intro hnil
    by_cases hleaf : t.children n = []
    · rw [tokensWithin_of_leaf hleaf] at hnil
      by_contra hne
      rw [if_pos (hasTokens_iff.2 hne)] at hnil
      exact absurd hnil (List.cons_ne_nil _ _)
    · exact (h.bare n hn hleaf hnil).symm
  · intro heq
    by_contra hne
    obtain ⟨m, rest, hm⟩ := List.exists_cons_of_ne_nil hne
    have := (h.tokens hn).2 m (by simp [hm])
    omega

/-- A node with tokens starts where its first one does. -/
theorem exists_start_eq (hn : n < t.size) (hhas : t.hasTokens n = true) :
    ∃ m ∈ t.tokensWithin n, t.start m = t.start n := by
  by_cases hleaf : t.children n = []
  · exact ⟨n, by simp [tokensWithin_of_leaf hleaf, hhas], rfl⟩
  · have hne : t.tokensWithin n ≠ [] := fun hnil =>
      absurd ((h.tokensWithin_eq_nil_iff hn).1 hnil) (by simp [hhas])
    obtain ⟨m, rest, hm⟩ := List.exists_cons_of_ne_nil hne
    exact ⟨m, by simp [hm], (h.first n hn hleaf m (by simp [hm])).symm⟩

/-- Among some nodes, the last one with tokens has the last token. -/
theorem lastWithTokens?_bind {nodes : List Nat} (hsize : ∀ m ∈ nodes, m < t.size)
    (hright : ∀ m ∈ nodes, t.hasTokens m = true → t.rightmostLeaf? m = (t.tokensWithin m).getLast?) :
    (t.lastWithTokens? nodes).bind t.rightmostLeaf? =
      (nodes.flatMap t.tokensWithin).getLast? := by
  induction nodes using List.reverseRecOn with
  | nil => rfl
  | append_singleton l m ih =>
    have hm : m ∈ l ++ [m] := List.mem_append_right l List.mem_cons_self
    have hnil := h.tokensWithin_eq_nil_iff (hsize m hm)
    rw [lastWithTokens?, List.reverse_append, List.reverse_singleton, List.singleton_append,
      List.flatMap_append, List.flatMap_singleton, List.getLast?_append]
    cases hhas : t.hasTokens m with
    | true =>
      have hne : t.tokensWithin m ≠ [] := fun h => by simp [hnil.1 h] at hhas
      rw [List.find?_cons_of_pos hhas, Option.bind_some, hright m hm hhas,
        List.getLast?_eq_some_getLast hne, Option.some_or]
    | false =>
      rw [List.find?_cons_of_neg (by simp [hhas]), hnil.2 hhas, List.getLast?_nil, Option.none_or]
      exact ih (fun k hk => hsize k (List.mem_append_left _ hk))
        fun k hk => hright k (List.mem_append_left _ hk)

/-- The right edge of a subtree leads to its last token. -/
theorem rightmostLeaf?_eq (hn : n < t.size) (hhas : t.hasTokens n = true) :
    t.rightmostLeaf? n = (t.tokensWithin n).getLast? := by
  induction n using subtree_induction (t := t) with
  | step n ih =>
    rw [rightmostLeaf?]
    by_cases hleaf : t.children n = []
    · rw [if_pos hleaf, tokensWithin_of_leaf hleaf, if_pos hhas, List.getLast?_singleton]
    · rw [if_neg hleaf, tokensWithin_of_children hleaf,
        ← h.lastWithTokens?_bind (fun m hm => (lt_of_mem_children hm).2)
          fun m hm => ih m hm (lt_of_mem_children hm).2]
      split
      · next hnone => rw [hnone, Option.bind_none]
      · next m hm => rw [hm, Option.bind_some]

end Spanned

theorem takeWhile_children {before after : List Nat}
    (hsplit : t.children n = before ++ m :: after) :
    (t.children n).takeWhile (· < m) = before := by
  have hsorted := pairwise_children t n
  rw [hsplit, List.pairwise_append] at hsorted
  rw [hsplit, List.takeWhile_append_of_pos, List.takeWhile_cons_of_neg (by simp), List.append_nil]
  exact fun k hk => decide_eq_true (hsorted.2.2 k hk m List.mem_cons_self)

end Tree

namespace Source

variable {s : Source} {p : Point} {m n : Nat}

section
variable (h : s.tree.Spanned) {nodes : List Nat} (hsize : ∀ m ∈ nodes, m < s.tree.size)
include h hsize

/-- All tokens of nodes that have ended by a place start before it. -/
theorem filter_tokens_of_ended
    (htext : ∀ n < s.tree.size, s.tree.stop n ≤ s.text.byteLength)
    (hended : ∀ m ∈ nodes, s.tree.hasTokens m = true → s.stopPoint m ≤ p) :
    (nodes.flatMap s.tree.tokensWithin).filter (fun m => s.startPoint m < p) =
      nodes.flatMap s.tree.tokensWithin := by
  refine List.filter_eq_self.2 fun x hx => decide_eq_true ?_
  obtain ⟨m, hm, hxm⟩ := List.mem_flatMap.1 hx
  obtain ⟨-, hlt, hstop⟩ := (h.tokens (hsize m hm)).2 x hxm
  have hhas : s.tree.hasTokens m = true := by
    rw [← Bool.not_eq_false, ← h.tokensWithin_eq_nil_iff (hsize m hm)]
    exact List.ne_nil_of_mem hxm
  have hpoint : s.startPoint x < s.stopPoint m :=
    Text.pointAt_lt s.text (Nat.lt_of_lt_of_le hlt hstop) (htext m (hsize m hm))
  exact Point.lt_of_lt_of_le hpoint (hended m hm hhas)

/-- No token of nodes that start from a place on starts before it. -/
theorem filter_tokens_of_ahead (hahead : ∀ m ∈ nodes, p ≤ s.startPoint m) :
    (nodes.flatMap s.tree.tokensWithin).filter (fun m => s.startPoint m < p) = [] := by
  refine List.filter_eq_nil_iff.2 fun x hx => ?_
  obtain ⟨m, hm, hxm⟩ := List.mem_flatMap.1 hx
  have hstart := ((h.tokens (hsize m hm)).2 x hxm).1
  rw [decide_eq_true_eq, Point.not_lt]
  exact Point.le_trans (hahead m hm) (Text.pointAt_mono s.text hstart)

end

section
variable (h : s.tree.Spanned) (htext : ∀ n < s.tree.size, s.tree.stop n ≤ s.text.byteLength)
include h htext

/-- Where no child with tokens ends behind the place, the last token of all is the answer. -/
theorem leafBefore?_of_ended (hleaf : s.tree.children n ≠ [])
    (hnone : (s.tree.children n).find? (fun m => s.tree.hasTokens m && p < s.stopPoint m) = none) :
    s.leafBefore? p n =
      ((s.tree.tokensWithin n).filter fun m => s.startPoint m < p).getLast? := by
  have hsize : ∀ m ∈ s.tree.children n, m < s.tree.size :=
    fun m hm => (Tree.lt_of_mem_children hm).2
  have hended : ∀ m ∈ s.tree.children n, s.tree.hasTokens m = true → s.stopPoint m ≤ p := by
    intro m hm hhas
    have := List.find?_eq_none.1 hnone m hm
    rwa [hhas, Bool.true_and, decide_eq_true_eq, Point.not_lt] at this
  rw [leafBefore?, if_neg hleaf, Tree.tokensWithin_of_children hleaf,
    filter_tokens_of_ended h hsize htext hended]
  split
  · exact h.lastWithTokens?_bind hsize fun m hm => h.rightmostLeaf?_eq (hsize m hm)
  · next m hm => exact absurd (hnone.symm.trans hm) (Option.some_ne_none m).symm

/-- Around a child that ends behind the place, the tokens of the earlier children start in time, and
those of the later ones do not. -/
theorem filter_tokens_of_split {before after : List Nat} (hn : n < s.tree.size)
    (hsplit : s.tree.children n = before ++ m :: after)
    (hended : ∀ k ∈ before, s.tree.hasTokens k = true → s.stopPoint k ≤ p)
    (hstop : p < s.stopPoint m) :
    (s.tree.tokensWithin n).filter (fun k => s.startPoint k < p) =
      before.flatMap s.tree.tokensWithin ++
        (s.tree.tokensWithin m).filter fun k => s.startPoint k < p := by
  have hsize : ∀ k ∈ before ++ m :: after, k < s.tree.size :=
    fun k hk => (Tree.lt_of_mem_children (hsplit ▸ hk)).2
  have hbeforeSize : ∀ k ∈ before, k < s.tree.size := fun k hk => hsize k (by simp [hk])
  have hafterSize : ∀ k ∈ after, k < s.tree.size := fun k hk => hsize k (by simp [hk])
  have hahead : ∀ k ∈ after, p ≤ s.startPoint k := by
    have hdisjoint := h.disjoint n hn
    rw [hsplit] at hdisjoint
    intro k hk
    have hnext : s.stopPoint m ≤ s.startPoint k := Text.pointAt_mono s.text
      (List.rel_of_pairwise_cons (List.pairwise_append.1 hdisjoint).2.1 hk)
    exact Point.le_trans (Point.le_of_lt hstop) hnext
  rw [Tree.tokensWithin_of_children (by simp [hsplit]), hsplit, List.flatMap_append,
    List.flatMap_cons, List.filter_append, List.filter_append,
    filter_tokens_of_ended h hbeforeSize htext hended,
    filter_tokens_of_ahead h hafterSize hahead, List.append_nil]

/-- Otherwise the first child that does decides: where it starts in time the answer lies in it, and
else before it. -/
theorem leafBefore?_of_found (hn : n < s.tree.size)
    (hfind : (s.tree.children n).find? (fun m => s.tree.hasTokens m && p < s.stopPoint m) = some m)
    (hin : s.startPoint m < p → s.leafBefore? p m =
      ((s.tree.tokensWithin m).filter fun k => s.startPoint k < p).getLast?) :
    s.leafBefore? p n =
      ((s.tree.tokensWithin n).filter fun k => s.startPoint k < p).getLast? := by
  have hmem := List.mem_of_find?_eq_some hfind
  have hm : m < s.tree.size := (Tree.lt_of_mem_children hmem).2
  obtain ⟨hfound, before, after, hsplit, hbefore⟩ := List.find?_eq_some_iff_append.1 hfind
  obtain ⟨hhas, hstop⟩ : s.tree.hasTokens m = true ∧ p < s.stopPoint m := by simpa using hfound
  have hended : ∀ k ∈ before, s.tree.hasTokens k = true → s.stopPoint k ≤ p := by
    intro k hk hkhas
    have := hbefore k hk
    rwa [hkhas, Bool.true_and, Bool.not_eq_true', decide_eq_false_iff_not, Point.not_lt] at this
  rw [leafBefore?, if_neg (List.ne_nil_of_mem hmem),
    filter_tokens_of_split h htext hn hsplit hended hstop]
  split
  · next hnone => exact absurd (hnone.symm.trans hfind) (Option.some_ne_none m).symm
  · next m' hm' =>
    obtain rfl : m = m' := Option.some.inj (hfind.symm.trans hm')
    by_cases hle : p ≤ s.startPoint m
    · have hwithin : ([m].flatMap s.tree.tokensWithin).filter (fun k => s.startPoint k < p) = [] :=
        filter_tokens_of_ahead h (by simpa using hm) (by simpa using hle)
      have hbeforeSize : ∀ k ∈ before, k < s.tree.size :=
        fun k hk => (Tree.lt_of_mem_children (n := n) (by simp [hsplit, hk])).2
      rw [List.flatMap_singleton] at hwithin
      rw [if_pos hle, Tree.takeWhile_children hsplit, hwithin, List.append_nil]
      exact h.lastWithTokens?_bind hbeforeSize fun k hk => h.rightmostLeaf?_eq (hbeforeSize k hk)
    · have hlt := Point.not_le.1 hle
      obtain ⟨f, hf, hstart⟩ := h.exists_start_eq hm hhas
      have hfirst : f ∈ (s.tree.tokensWithin m).filter fun k => s.startPoint k < p := by
        rw [List.mem_filter, startPoint, hstart, decide_eq_true_eq]
        exact ⟨hf, hlt⟩
      rw [if_neg hle, hin hlt, List.getLast?_append,
        List.getLast?_eq_some_getLast (List.ne_nil_of_mem hfirst), Option.some_or]

/-- In a node with children the search finds the last token before the place, and so it does in
any node with tokens that starts before the place. -/
theorem leafBefore?_eq_getLast? (hn : n < s.tree.size)
    (hside : s.tree.children n ≠ [] ∨ s.tree.hasTokens n = true ∧ s.startPoint n < p) :
    s.leafBefore? p n =
      ((s.tree.tokensWithin n).filter fun m => s.startPoint m < p).getLast? := by
  induction n using Tree.subtree_induction (t := s.tree) with
  | step n ih =>
    by_cases hleaf : s.tree.children n = []
    · obtain ⟨hhas, hstart⟩ := hside.resolve_left (not_not_intro hleaf)
      rw [leafBefore?, if_pos hleaf, Tree.tokensWithin_of_leaf hleaf, if_pos hhas]
      simp [hstart]
    · cases hfind : (s.tree.children n).find? fun m => s.tree.hasTokens m && p < s.stopPoint m with
      | none => exact leafBefore?_of_ended h htext hleaf hfind
      | some m =>
        have hmem := List.mem_of_find?_eq_some hfind
        have hfound : s.tree.hasTokens m = true ∧ p < s.stopPoint m := by
          simpa using List.find?_some hfind
        exact leafBefore?_of_found h htext hn hfind fun hlt =>
          ih m hmem (Tree.lt_of_mem_children hmem).2 (.inr ⟨hfound.1, hlt⟩)

end

/-- **The leaf before a place is the last token that starts before it.** In a source whose spans lie
in its text and are those of its tokens, the search below a node with children answers, for any
place, with the last leaf below the node in document order that covers text and starts before the
place, and with none if there is no such leaf. So a token around the place or one that ends there is
the answer. -/
theorem leafBefore?_lastToken (h : s.tree.Spanned)
    (htext : ∀ n < s.tree.size, s.tree.stop n ≤ s.text.byteLength) (hn : n < s.tree.size)
    (hchildren : s.tree.children n ≠ []) (p : Point) :
    s.leafBefore? p n = ((s.tree.leavesWithin n).filter fun m =>
        s.tree.hasTokens m && s.startPoint m < p).getLast? ∧
    (∀ m ∈ s.tree.leavesWithin n, s.tree.hasTokens m = true → s.startPoint m < p →
      p ≤ s.stopPoint m → s.leafBefore? p n = some m) ∧
    (s.leafBefore? p n = none ↔
      ∀ m ∈ s.tree.leavesWithin n, s.tree.hasTokens m = true → ¬s.startPoint m < p) := by
  have hlast : s.leafBefore? p n = ((s.tree.leavesWithin n).filter fun m =>
      s.tree.hasTokens m && s.startPoint m < p).getLast? := by
    rw [leafBefore?_eq_getLast? h htext hn (.inl hchildren), Tree.tokensWithin, List.filter_filter]
    simp only [Bool.and_comm]
  refine ⟨hlast, fun m hm hhas hstart hstop => ?_, ?_⟩
  · have hmem := Tree.mem_tokensWithin_iff.2 ⟨hm, hhas⟩
    obtain ⟨before, after, hsplit⟩ := List.append_of_mem hmem
    have hordered := (h.tokens hn).1
    rw [hsplit] at hordered
    have hafter : after.filter (fun k => s.startPoint k < p) = [] := by
      refine List.filter_eq_nil_iff.2 fun k hk => ?_
      have hnext : s.stopPoint m ≤ s.startPoint k := Text.pointAt_mono s.text
        (List.rel_of_pairwise_cons (List.pairwise_append.1 hordered).2.1 hk)
      rw [decide_eq_true_eq, Point.not_lt]
      exact Point.le_trans hstop hnext
    rw [leafBefore?_eq_getLast? h htext hn (.inl hchildren), hsplit, List.filter_append,
      List.filter_cons, if_pos (decide_eq_true hstart), hafter, List.getLast?_concat]
  · rw [hlast, List.getLast?_eq_none_iff, List.filter_eq_nil_iff]
    simp only [Bool.and_eq_true, decide_eq_true_eq, not_and]

end Source

namespace Sample

/-- Behind the name, the node without text is passed over, and the name is the answer up to its
end; a place in the leading blank has no token before it. -/
theorem leafBefore?_lastToken_gap :
    gap.tree.Spanned ∧ (∀ n < gap.tree.size, gap.tree.stop n ≤ gap.text.byteLength) ∧
      gap.leafBefore? (gap.text.pointAt 11) 0 = some 4 ∧
      gap.leafBefore? (gap.text.pointAt 10) 2 = some 4 ∧
      gap.leafBefore? (gap.text.pointAt 2) 0 = none := by
  have h : gap.tree.Spanned := ⟨by decide +kernel, by decide +kernel, by decide +kernel,
    by decide +kernel, by decide +kernel⟩
  have htext : ∀ n < gap.tree.size, gap.tree.stop n ≤ gap.text.byteLength := by decide +kernel
  have hfile := Source.leafBefore?_lastToken h htext (n := 0) (by decide) (by decide +kernel)
  have hdeclaration := Source.leafBefore?_lastToken h htext (n := 2) (by decide) (by decide +kernel)
  refine ⟨h, htext, (hfile _).2.1 4 ?_ ?_ ?_ ?_, (hdeclaration _).1.trans ?_, ?_⟩
  all_goals decide +kernel

end Sample
end ElmScope
