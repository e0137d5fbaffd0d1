import ElmScope.Proofs.Referent.FixedPoint
import ElmScope.Proofs.Referent.Plan
import Mathlib.Data.Prod.Lex
/-!
# The search comes to an end

The search goes up and down: the name of a field climbs to the accesses and the records around it,
those descend into the expression the field is read from, and there the search asks what identifiers
refer to. What keeps it from climbing again is the place of those identifiers. An expression that a
field is read from, and the base of a record, are never themselves the name of a field
(`Tree.Grounded`); so a node that names a field leads, in any number of calls, to nodes that do not,
and for these there is nothing left to ask.

The weight of a call says so: first how often a node may still be asked for, then how much of the
tree is left for the rules that go down (`Query.weight`).

* `seeksField_eq_false` — the identifier of an expression names a field only if the expression does
* `only_body` — every call weighs less than the call it is made in
* `answer_eq_run` — so the functions of the search solve their equations, nodes included
-/
namespace ElmScope

namespace Tree

/-- Whether the links that the search follows up and down are those of a tree, and no base of a
record stands where a field is named. -/
structure Grounded (t : Tree) : Prop where
  parents : ∀ m < t.size, t.parent? m = t.shapeParent? m
  targets : ∀ a < t.size, ∀ e ∈ t.child? "target" a, e ∈ t.children a
  bases : ∀ m < t.size, t.kind m = "record_base_identifier" →
    ∀ p ∈ t.parent? m, t.kind p ∉ ["field_access_expr", "field"]

/-- A tree of the grammar, where a base stands right below a record, is grounded. -/
theorem Regular.grounded {t : Tree} (h : t.Regular)
    (hbases : ∀ m < t.size, t.kind m = "record_base_identifier" →
      ∃ p ∈ t.parent? m, t.kind p ∈ ["record_expr", "record_type"]) : t.Grounded where
  parents m _ := h.parent?_eq m
  targets _ _ _ he := h.mem_children_of_child? he
  bases m hm hk p hp := by
    obtain ⟨p', hp', hrecord⟩ := hbases m hm hk
    obtain rfl : p = p' := Option.some.inj (hp.symm.trans hp')
    have hdisjoint : ∀ k ∈ ["record_expr", "record_type"], k ∉ ["field_access_expr", "field"] := by
      decide
    exact hdisjoint _ hrecord

theorem Grounded.parent?_of_mem_children {t : Tree} {m n : Nat} (h : t.Grounded)
    (hm : m ∈ t.children n) : t.parent? m = some n := by
  rw [h.parents m (lt_of_mem_children hm).2, shapeParent?_of_mem_children hm]

theorem Grounded.mem_children_of_target {t : Tree} {a e : Nat} (h : t.Grounded)
    (ha : t.kind a = "field_access_expr") (he : t.child? "target" a = some e) :
    e ∈ t.children a :=
  h.targets a (lt_size_of_kind ha (by decide)) e he

end Tree

namespace Workspace

open Plan

/-! ## Names of fields -/

/-- Whether a node stands where a field is named: read by an access, or set in a record. -/
def namesField (t : Tree) (m : Nat) : Bool :=
  (t.parent? m).any fun p =>
    (t.kind p = "field_access_expr" && t.child? "target" p ≠ some m)
      || (t.kind p = "field" && leads t p m)

/-- Whether what a node refers to is sought as a field. -/
def seeksField (t : Tree) (n : Nat) : Bool :=
  (identifierOf? t n).any fun m => t.kind m ∈ lowerKinds && namesField t m

/-- The kinds of nodes that are narrowed down to an identifier in them. -/
def holderKinds : List String :=
  ["value_expr", "value_qid", "upper_case_qid", "operator", "lower_pattern"]

variable {t : Tree} {m n p : Nat}

theorem namesField_of_parent? (hp : t.parent? m = some p)
    (hk : t.kind p ∉ ["field_access_expr", "field"]) : namesField t m = false := by
  simp only [List.mem_cons, List.not_mem_nil, or_false, not_or] at hk
  simp [namesField, hp, hk]

theorem namesField_of_target (hp : t.parent? m = some p) (ht : t.child? "target" p = some m)
    (hk : t.kind p = "field_access_expr") : namesField t m = false := by
  simp [namesField, hp, ht, hk]

/-- The identifier that a node is narrowed down to is the node, or the node is a holder and the
identifier stands right below one. -/
theorem identifierOf?_cases (h : identifierOf? t n = some m) :
    m = n ∨ t.kind n ∈ holderKinds ∧ ∃ p, m ∈ t.children p ∧ t.kind p ∈ holderKinds := by
  -- An expression is narrowed down to what it holds, further on in the tree.
  induction hk : t.size - n using Nat.strongRecOn generalizing n with
  | ind k ih =>
    rw [identifierOf?] at h
    split at h
    · next hn =>
      have hn : t.kind n ∈ holderKinds := by simp [hn, holderKinds]
      split at h
      · next i hi =>
        have hchild := (List.mem_filter.1 (List.mem_of_mem_head? hi)).1
        have hlt := Tree.lt_of_mem_children hchild
        rcases ih (t.size - i) (by omega) h rfl with rfl | ⟨-, hp⟩
        · exact .inr ⟨hn, n, hchild, hn⟩
        · exact .inr ⟨hn, hp⟩
      · exact nomatch h
    split at h
    · next hn =>
      have hn : t.kind n ∈ holderKinds := List.mem_cons_of_mem _ (List.contains_iff_mem.1 hn)
      have hchild := (List.mem_filter.1 (List.mem_of_getLast? h)).1
      exact .inr ⟨hn, n, (List.mem_filter.1 hchild).1, hn⟩
    · exact .inl (Option.some.inj h).symm

/-- The identifier of an expression names a field only if the expression stands for the name. -/
theorem seeksField_eq_false (h : t.Grounded) (hn : namesField t n = false) :
    seeksField t n = false := by
  rw [seeksField, Option.any_eq_false]
  intro m hm
  suffices namesField t m = false by simp [this]
  rcases identifierOf?_cases hm with rfl | ⟨-, p, hp, hk⟩
  · exact hn
  · refine namesField_of_parent? (h.parent?_of_mem_children hp) fun hfield => ?_
    have hdisjoint : ∀ k ∈ holderKinds, k ∉ ["field_access_expr", "field"] := by decide
    exact hdisjoint _ hk hfield

/-- Only an identifier can be the name of a field, and a node that holds one. -/
theorem seeksField_of_kind (hk : t.kind n ∉ holderKinds ++ lowerKinds) :
    seeksField t n = false := by
  obtain ⟨hholder, hlower⟩ := not_or.1 (List.mem_append.not.1 hk)
  rw [seeksField, Option.any_eq_false]
  intro m hm
  rcases identifierOf?_cases hm with rfl | ⟨hk, -⟩
  · simp [hlower]
  · exact absurd hk hholder

theorem seeksField_of_target (h : t.Grounded) (ha : t.kind n = "field_access_expr")
    (he : t.child? "target" n = some m) : seeksField t m = false :=
  seeksField_eq_false h <|
    namesField_of_target (h.parent?_of_mem_children (h.mem_children_of_target ha he)) he ha

theorem seeksField_of_parenthesized (h : t.Grounded) (hn : t.kind n = "parenthesized_expr")
    (hm : Chain.parenthesized? t n = some m) : seeksField t m = false := by
  have hchild := (List.mem_filter.1 (List.mem_of_find?_eq_some hm)).1
  exact seeksField_eq_false h <|
    namesField_of_parent? (h.parent?_of_mem_children hchild) (by simp [hn])

theorem kind_of_recordBase? (hm : Chain.recordBase? t n = some m) :
    t.kind m = "record_base_identifier" := by
  have hfind : ∀ k, ((t.namedChildren k).find? fun i => t.kind i = "record_base_identifier") =
      some m → t.kind m = "record_base_identifier" := fun k hk => by
    simpa using List.find?_some hk
  unfold Chain.recordBase? at hm
  split at hm
  · next hk => exact Option.some.inj hm ▸ hk
  · rcases Option.or_eq_some_iff.1 hm with hm | ⟨-, hm⟩
    · exact hfind n hm
    · obtain ⟨p, -, hm⟩ := Option.bind_eq_some_iff.1 hm
      exact hfind p hm

/-- The base of a record names no field. -/
theorem seeksField_of_base (h : t.Grounded) (hm : Chain.recordBase? t n = some m) :
    seeksField t m = false := by
  have hkind := kind_of_recordBase? hm
  refine seeksField_eq_false h ?_
  cases hp : t.parent? m with
  | none => simp [namesField, hp]
  | some p =>
    exact namesField_of_parent? hp (h.bases m (Tree.lt_size_of_kind hkind (by decide)) hkind p hp)

/-- The first type that a type expression mentions has an upper-case name. -/
theorem kind_of_typeName? (hm : Chain.typeName? t n = some m) :
    t.kind m = "upper_case_identifier" := by
  rcases Option.or_eq_some_iff.1 hm with hm | ⟨-, hm⟩
  · obtain ⟨path, -, hm⟩ := Option.bind_eq_some_iff.1 hm
    simpa using (List.mem_filter.1 (List.mem_of_getLast? hm)).2
  · simpa using List.find?_some hm

end Workspace

/-! ## The weight of a call -/

namespace Query

open Workspace

/-- How often a node may still be asked for, on the longest way from a call. -/
def depth : Query → Nat
  | lowerCase s n => if namesField s.tree n then 1 else 0
  | referent s n | fieldInAccess s n | aliasOfRecord s n | aliasOfExpression s n =>
    if seeksField s.tree n then 2 else 1
  | aliasOfSubject _ _ => 2
  | assignedField _ _ _ | fieldOfAccess _ _ | aliasOfDefinition _ | aliasOfType _ _
  | aliasOfField _ _ => 1

/-- How far the rules can still go before the next node is asked for. -/
def rest : Query → Nat
  | referent _ _ => 0
  | aliasOfType _ _ => 1
  | aliasOfDefinition _ => 2
  | aliasOfRecord s n => 3 * (s.tree.size - n) + 3
  | fieldInAccess s n => 3 * (s.tree.size - n) + 4
  | aliasOfExpression s n => 3 * (s.tree.size - n) + 5
  | assignedField s _ _ | fieldOfAccess s _ | aliasOfSubject s _ => 3 * s.tree.size + 6
  | lowerCase s _ | aliasOfField s _ => 3 * s.tree.size + 7

/-- The weight of a call: first the nodes that may be asked for, then the way to the next one. -/
def weight (q : Query) : ℕ ×ₗ ℕ := toLex (q.depth, q.rest)

/-- Whether a call is about a tree as the grammar has it. What is asked for a type expression may
be about any: it leads to the name of a type, where there is nothing left to ask. -/
def Tame : Query → Prop
  | referent s n => s.tree.Grounded ∨ s.tree.kind n = "upper_case_identifier"
  | lowerCase s _ | assignedField s _ _ | fieldOfAccess s _ | fieldInAccess s _
  | aliasOfRecord s _ | aliasOfExpression s _ | aliasOfField s _ | aliasOfSubject s _ =>
    s.tree.Grounded
  | aliasOfDefinition _ | aliasOfType _ _ => True

/-- Whether a call may be made in another. -/
def Under (q' q : Query) : Prop := q'.Tame ∧ q'.weight < q.weight

variable {q q' : Query}

theorem tame_of_grounded (h : q.source.tree.Grounded) : q.Tame := by
  cases q with
  | referent s n => exact .inl h
  | aliasOfDefinition d => trivial
  | aliasOfType s type => trivial
  | _ => exact h

theorem weight_lt_of_rest (hdepth : q'.depth ≤ q.depth) (hrest : q'.rest < q.rest) :
    q'.weight < q.weight := by
  rw [weight, weight, Prod.Lex.toLex_lt_toLex]
  rcases Nat.lt_or_eq_of_le hdepth with h | h
  · exact .inl h
  · exact .inr ⟨h, hrest⟩

theorem weight_lt_of_depth (h : q'.depth < q.depth) : q'.weight < q.weight :=
  Prod.Lex.toLex_lt_toLex.2 (.inl h)

theorem depth_le_of_weight_lt (h : q'.weight < q.weight) : q'.depth ≤ q.depth := by
  rcases Prod.Lex.toLex_lt_toLex.1 h with h | ⟨h, -⟩
  · exact Nat.le_of_lt h
  · exact Nat.le_of_eq h

theorem depth_lt_of_under_referent {s : Source} {n : Nat} (h : q'.Under (referent s n)) :
    q'.depth < (referent s n).depth := by
  rcases Prod.Lex.toLex_lt_toLex.1 h.2 with h | ⟨-, h⟩
  · exact h
  · exact absurd h (Nat.not_lt_zero _)

theorem under_of_rest (hdepth : q'.depth ≤ q.depth) (hrest : q'.rest < q.rest) (hq : q'.Tame) :
    q'.Under q := ⟨hq, weight_lt_of_rest hdepth hrest⟩

/-! What is said here of the expression at a node holds of every call that is as deep as the node:
of what it refers to, of the record it is, and of the field it reads. -/

variable {s : Source} {n : Nat}

theorem depth_eq_one (h : seeksField s.tree n = false) : (aliasOfExpression s n).depth = 1 :=
  if_neg (by simp [h])

theorem depth_eq_one_of_kind (hk : s.tree.kind n ∉ holderKinds ++ lowerKinds) :
    (aliasOfExpression s n).depth = 1 := depth_eq_one (seeksField_of_kind hk)

theorem one_le_depth (s : Source) (n : Nat) : 1 ≤ (aliasOfExpression s n).depth := by
  rw [depth]
  split <;> decide

theorem depth_le_two (q : Query) : q.depth ≤ 2 := by
  unfold depth
  split
  case h_1 | h_2 | h_3 | h_4 | h_5 => split <;> decide
  all_goals decide

end Query

/-! ## Every call is under the one it is made in -/

namespace Workspace

open Plan
open Query hiding referent assignedField

variable {w : Workspace} {s : Source} {q q' : Query} {m n : Nat}

theorem only_describing (hq : q'.Under q) (hdepth : 1 ≤ q.depth) (hrest : 2 < q.rest) :
    (describing q').Only (Under · q) := by
  refine Only.bind (only_call hq) fun d => only_call ?_
  exact under_of_rest hdepth hrest trivial

theorem only_fieldNamed (hq : (aliasOfRecord s n).Under q) (name : Nat) :
    (fieldNamed s n name).Only (Under · q) :=
  Only.bind (only_call hq) fun _ => trivial

theorem only_firstField (h : s.tree.Grounded) (nodes : List Nat) :
    (firstField s nodes).Only (Under · (.fieldOfAccess s m)) := by
  induction nodes with
  | nil => trivial
  | cons n rest ih =>
    refine Only.orElse ?_ ?_
    · split
      · next hk =>
        refine only_call (under_of_rest ?_ ?_ h)
        · exact Nat.le_of_eq (depth_eq_one_of_kind (by simp [hk, holderKinds, lowerKinds]))
        · simp only [Query.rest]; omega
      · trivial
    · split
      · trivial
      · exact ih

theorem only_body_referent (hq : (Query.referent s n).Tame) :
    (w.body (.referent s n)).Only (Under · (.referent s n)) := by
  refine only_given fun m hm => Only.orReport ?_ _
  split
  · next hlower =>
    have hgrounded : s.tree.Grounded := by
      rcases hq with hq | hupper
      · exact hq
      · rcases identifierOf?_cases hm with rfl | ⟨hholder, -⟩
        · simp [hupper, lowerKinds] at hlower
        · simp [hupper, holderKinds] at hholder
    have hseeks : seeksField s.tree n = namesField s.tree m := by simp [seeksField, hm, hlower]
    refine only_call ⟨hgrounded, weight_lt_of_depth ?_⟩
    simp only [depth, hseeks]
    split <;> decide
  · trivial

theorem only_body_lowerCase (h : s.tree.Grounded) :
    (w.body (.lowerCase s n)).Only (Under · (.lowerCase s n)) := by
  refine only_given fun p hp => ?_
  have hunder : ∀ q : Query, namesField s.tree n = true → q.depth = 1 →
      q.rest = 3 * s.tree.size + 6 → q.Tame → q.Under (.lowerCase s n) := by
    intro q hnames hdepth hrest hq
    refine under_of_rest ?_ ?_ hq
    · rw [hdepth, depth, if_pos hnames]
    · rw [hrest, Query.rest]; omega
  split
  · next haccess => exact only_call (hunder _ (by simp [namesField, hp, haccess]) rfl rfl h)
  split
  · next hfield => exact only_call (hunder _ (by simp [namesField, hp, hfield]) rfl rfl h)
  · trivial

theorem only_body_aliasOfRecord (h : s.tree.Grounded) :
    (w.body (.aliasOfRecord s n)).Only (Under · (.aliasOfRecord s n)) := by
  have hreferent : ∀ m, (Query.referent s m).depth ≤ (aliasOfRecord s n).depth →
      (describing (.referent s m)).Only (Under · (.aliasOfRecord s n)) := by
    intro m hm
    refine only_describing (under_of_rest hm ?_ (.inl h)) (one_le_depth s n) ?_
    · simp [Query.rest]
    · simp [Query.rest]
  simp only [body]
  split
  · next base hbase =>
    exact hreferent base ((depth_eq_one (seeksField_of_base h hbase)).trans_le (one_le_depth s n))
  split
  · next haccess =>
    refine only_given fun e he => only_call (under_of_rest ?_ ?_ h)
    · exact (depth_eq_one (seeksField_of_target h haccess he)).trans_le (one_le_depth s n)
    · have := Tree.lt_of_mem_children (h.mem_children_of_target haccess he)
      simp only [Query.rest]; omega
  split
  · refine only_given fun type _ => only_call (under_of_rest (one_le_depth s n) ?_ trivial)
    simp [Query.rest]
  · exact hreferent n le_rfl

theorem only_body_aliasOfExpression (h : s.tree.Grounded) :
    (w.body (.aliasOfExpression s n)).Only (Under · (.aliasOfExpression s n)) := by
  simp only [body]
  split
  · next hk =>
    refine only_given fun m hm => only_call (under_of_rest ?_ ?_ h)
    · exact (depth_eq_one (seeksField_of_parenthesized h hk hm)).trans_le (one_le_depth s n)
    · have hchild := (List.mem_filter.1 (List.mem_of_find?_eq_some hm)).1
      have := Tree.lt_of_mem_children hchild
      simp only [Query.rest]; omega
  split
  · refine only_describing (under_of_rest le_rfl ?_ h) (one_le_depth s n) ?_ <;> simp [Query.rest]
  split
  · refine only_call (under_of_rest le_rfl ?_ h)
    simp [Query.rest]
  · refine only_describing (under_of_rest le_rfl ?_ (.inl h)) (one_le_depth s n) ?_ <;>
      simp [Query.rest]

/-- **Every call weighs less than the call it is made in**, and is tame if that is. -/
theorem only_body (w : Workspace) (hq : q.Tame) : (w.body q).Only (Under · q) := by
  cases q with
  | referent s n => exact only_body_referent hq
  | lowerCase s n => exact only_body_lowerCase hq
  | assignedField s field name =>
    refine only_given fun record hrecord => only_fieldNamed (under_of_rest ?_ ?_ hq) name
    · have hk : s.tree.kind record = "record_expr" := by
        simpa using (Option.filter_eq_some_iff.1 hrecord).2
      exact Nat.le_of_eq (depth_eq_one_of_kind (by simp [hk, holderKinds, lowerKinds]))
    · simp only [Query.rest]; omega
  | fieldOfAccess s n => exact only_firstField hq _
  | fieldInAccess s access =>
    have hunder : (aliasOfRecord s access).Under (fieldInAccess s access) :=
      under_of_rest le_rfl (by simp [Query.rest]) hq
    exact only_given fun field _ => only_fieldNamed hunder field
  | aliasOfRecord s n => exact only_body_aliasOfRecord hq
  | aliasOfExpression s e => exact only_body_aliasOfExpression hq
  | aliasOfDefinition d =>
    simp only [body]
    split
    · trivial
    · exact only_call (under_of_rest le_rfl (by simp [Query.rest]) trivial)
    · trivial
  | aliasOfType s type =>
    refine only_given fun name hname => Only.bind (only_call ?_) fun _ => trivial
    have hk := kind_of_typeName? hname
    refine under_of_rest ?_ (by simp [Query.rest]) (.inr hk)
    exact Nat.le_of_eq (depth_eq_one_of_kind (by simp [hk, holderKinds, lowerKinds]))
  | aliasOfField s n =>
    exact only_describing (under_of_rest le_rfl (by simp [Query.rest]) hq) le_rfl
      (by simp [Query.rest])
  | aliasOfSubject s n =>
    have hunder : ∀ e, (aliasOfExpression s e).Under (aliasOfSubject s n) := by
      refine fun e => under_of_rest (depth_le_two _) ?_ hq
      simp only [Query.rest]; omega
    simp only [body]
    split
    · exact only_given fun e _ => only_call (hunder e)
    · exact only_call (hunder n)

/-! ## The steps suffice -/

/-- The answer of the function of a call. -/
def answer (w : Workspace) : Query → Search Definition := w.answerWith w.referent

theorem run_body_of_tame (c : Checker) (hq : q.Tame) (hne : ∀ s n, q ≠ .referent s n) :
    (w.body q).run (w.answerWith c) = w.answerWith c q := by
  refine run_body hne fun s e m heq hk hm => ?_
  subst heq
  exact Tree.Grounded.mem_children_of_target hq hk hm

/-- As many steps as nodes may be asked for give the answer. -/
theorem answerWith_steps (w : Workspace) (hq : q.Tame) {k : Nat} (hk : q.depth ≤ k) :
    w.answerWith (w.steps k) q = w.answer q := by
  -- The induction is on the weight. A node takes one step, and what is asked for it is less deep;
  -- every other function passes the steps on, and what it asks for is at most as deep.
  induction q using (InvImage.wf Query.weight wellFounded_lt).induction generalizing k with
  | _ q ih =>
    have hcongr : ∀ k, (∀ q' : Query, q'.Under q → q'.depth ≤ k) →
        (w.body q).run (w.answerWith (w.steps k)) = (w.body q).run w.answer := fun k hk =>
      (only_body w hq).run_congr fun q' hq' => ih q' hq'.2 hq'.1 (hk q' hq')
    rcases Classical.em (∃ s n, q = .referent s n) with ⟨s, n, rfl⟩ | hne
    · have hsteps : ∀ k, (Query.referent s n).depth ≤ k + 1 →
          w.step (w.steps k) s n = (w.body (.referent s n)).run w.answer := by
        intro k hk
        rw [← run_body_referent, hcongr]
        exact fun q' hq' => Nat.le_of_lt_succ ((depth_lt_of_under_referent hq').trans_le hk)
      obtain ⟨k, rfl⟩ := Nat.exists_eq_add_of_le' ((one_le_depth s n).trans hk)
      have htwo := depth_le_two (.referent s n)
      exact (hsteps k hk).trans (hsteps (s.tree.size + 1) (by omega)).symm
    · have hne : ∀ s n, q ≠ .referent s n := fun s n h => hne ⟨s, n, h⟩
      rw [← run_body_of_tame _ hq hne, answer, ← run_body_of_tame _ hq hne]
      exact hcongr k fun q' hq' => (depth_le_of_weight_lt hq'.2).trans hk

/-- **The functions of the search solve their equations**, nodes included. -/
theorem answer_eq_run (w : Workspace) (hq : q.Tame) : w.answer q = (w.body q).run w.answer := by
  rcases Classical.em (∃ s n, q = .referent s n) with ⟨s, n, rfl⟩ | hne
  · have htwo := depth_le_two (.referent s n)
    change w.step (w.steps (s.tree.size + 1)) s n = _
    rw [← run_body_referent]
    refine (only_body w hq).run_congr fun q' hq' => answerWith_steps w hq'.1 ?_
    have := depth_lt_of_under_referent hq'
    omega
  · exact (run_body_of_tame _ hq fun s n h => hne ⟨s, n, h⟩).symm

/-! ## Every call returns -/

/-- The answer to a call, if no more than a number of calls are nested in one another. -/
def answerWithin (w : Workspace) : Nat → Query → Option (Search Definition)
  | 0, _ => none
  | k + 1, q => (w.body q).run? (w.answerWithin k)

theorem answerWithin_mono {j k : Nat} {x : Search Definition} (h : j ≤ k)
    (hx : w.answerWithin j q = some x) : w.answerWithin k q = some x := by
  induction j generalizing k q x with
  | zero => exact nomatch hx
  | succ j ih =>
    obtain ⟨k, rfl⟩ := Nat.exists_eq_add_of_le' (Nat.le_of_add_left_le h)
    exact run?_mono (fun q y hy => ih (Nat.le_of_add_le_add_right h) hy) hx

theorem exists_run?_eq {p : Plan} {Q : Query → Prop} (hp : p.Only Q)
    (h : ∀ q, Q q → ∃ k, w.answerWithin k q = some (w.answer q)) :
    ∃ k, p.run? (w.answerWithin k) = some (p.run w.answer) := by
  -- The calls of a plan are made one after the other, so the larger bound serves two of them.
  induction p with
  | done x => exact ⟨0, rfl⟩
  | ask q go ih =>
    obtain ⟨j, hj⟩ := h q hp.1
    obtain ⟨k, hk⟩ := ih (w.answer q) (hp.2 _)
    refine ⟨max j k, Option.bind_eq_some_iff.2 ⟨w.answer q, ?_, ?_⟩⟩
    · exact answerWithin_mono (le_max_left j k) hj
    · exact run?_mono (fun q y hy => answerWithin_mono (le_max_right j k) hy) hk

theorem exists_answerWithin_eq (w : Workspace) (hq : q.Tame) :
    ∃ k, w.answerWithin k q = some (w.answer q) := by
  induction q using (InvImage.wf Query.weight wellFounded_lt).induction with
  | _ q ih =>
    obtain ⟨k, hk⟩ := exists_run?_eq (only_body w hq) fun q' hq' => ih q' hq'.2 hq'.1
    exact ⟨k + 1, hk.trans (congrArg some (answer_eq_run w hq).symm)⟩

end Workspace

namespace Sample

def spiralNodes : Array TreeNode :=
  #[ ⟨"file", true, none, 0, 40, none⟩,
     ⟨"type_alias_declaration", true, none, 0, 24, some 0⟩,
     ⟨"type", true, none, 0, 4, some 1⟩,
     ⟨"alias", true, none, 5, 10, some 1⟩,
     ⟨"upper_case_identifier", true, some "name", 11, 12, some 1⟩,
     ⟨"eq", true, none, 13, 14, some 1⟩,
     ⟨"type_expression", true, some "typeExpression", 15, 24, some 1⟩,
     ⟨"record_type", true, some "part", 15, 24, some 6⟩,
     ⟨"\x7b", false, none, 15, 16, some 7⟩,
     ⟨"field_type", true, some "fieldType", 17, 22, some 7⟩,
     ⟨"lower_case_identifier", true, some "name", 17, 18, some 9⟩,
     ⟨"colon", true, none, 19, 20, some 9⟩,
     ⟨"type_expression", true, some "typeExpression", 21, 22, some 9⟩,
     ⟨"type_ref", true, some "part", 21, 22, some 12⟩,
     ⟨"upper_case_qid", true, none, 21, 22, some 13⟩,
     ⟨"upper_case_identifier", true, none, 21, 22, some 14⟩,
     ⟨"\x7d", false, none, 23, 24, some 7⟩,
     ⟨"type_annotation", true, none, 26, 31, some 0⟩,
     ⟨"lower_case_identifier", true, some "name", 26, 27, some 17⟩,
     ⟨"colon", true, none, 28, 29, some 17⟩,
     ⟨"type_expression", true, some "typeExpression", 30, 31, some 17⟩,
     ⟨"type_ref", true, some "part", 30, 31, some 20⟩,
     ⟨"upper_case_qid", true, none, 30, 31, some 21⟩,
     ⟨"upper_case_identifier", true, none, 30, 31, some 22⟩,
     ⟨"value_declaration", true, none, 32, 39, some 0⟩,
     ⟨"function_declaration_left", true, some "functionDeclarationLeft", 32, 33, some 24⟩,
     ⟨"lower_case_identifier", true, none, 32, 33, some 25⟩,
     ⟨"eq", true, none, 34, 35, some 24⟩,
     ⟨"field_access_expr", true, some "body", 36, 39, some 24⟩,
     ⟨"value_expr", true, some "target", 36, 37, some 28⟩,
     ⟨"value_qid", true, some "name", 36, 37, some 29⟩,
     ⟨"lower_case_identifier", true, none, 36, 37, some 30⟩,
     ⟨"dot", true, none, 37, 38, some 28⟩,
     ⟨".", false, none, 37, 38, some 32⟩,
     ⟨"lower_case_identifier", true, none, 38, 39, some 28⟩ ]

/-- A value that is a field of itself. -/
def spiral : Source where
  file := ⟨"file:///src/Spiral.elm"⟩
  text := "type alias R = \x7b a : R \x7d\n\nv : R\nv = v.a\n".toList
  tree := ⟨spiralNodes, Tree.subtreeEnds spiralNodes, [], by decide +kernel⟩
  writeable := true
  isDraft := false

theorem grounded_spiral : spiral.tree.Grounded :=
  Tree.Regular.grounded (by decide) (by decide +kernel)

end Sample

namespace Workspace

/-- **The search comes to an end.** In every workspace, every call about a tree as the grammar has
it, and every call made in such a one, makes only calls of less weight, whatever the answers are. So
the functions of the search do what their equations say, and every such call returns after finitely
many others, with the answer they give. -/
theorem search_terminates (w : Workspace) :
    (∀ q : Query, q.source.tree.Grounded → q.Tame) ∧
    (∀ q : Query, q.Tame → ∀ answer, ∀ q' ∈ (w.body q).calls answer,
      q'.Tame ∧ q'.weight < q.weight) ∧
    ∀ q : Query, q.Tame → w.answer q = (w.body q).run w.answer ∧
      ∃ k, w.answerWithin k q = some (w.answer q) := by
  refine ⟨fun q => Query.tame_of_grounded, fun q hq answer q' hmem => ?_, fun q hq => ?_⟩
  · exact (only_body w hq).of_mem_calls hmem
  · exact ⟨answer_eq_run w hq, exists_answerWithin_eq w hq⟩

/-- The field of itself is found, and in finitely many calls. -/
theorem search_terminates_spiral :
    let w : Workspace := run [.install Sample.spiral false]
    Sample.spiral.tree.Grounded ∧
      (w.referent Sample.spiral 34).found.map (·.node) = some 9 ∧
      ∃ k, w.answerWithin k (.referent Sample.spiral 34) = some (w.referent Sample.spiral 34) := by
  intro w
  obtain ⟨htame, -, hanswer⟩ := search_terminates w
  have hq : (Query.referent Sample.spiral 34).Tame := htame _ Sample.grounded_spiral
  exact ⟨Sample.grounded_spiral, by decide +kernel, (hanswer _ hq).2⟩

end Workspace
end ElmScope
