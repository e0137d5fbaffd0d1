import ElmScope.Proofs.Exports.View
import ElmScope.Proofs.Tree.Chain
import ElmScope.Source.Scope
/-!
# Trees of the grammar

What the grammar says about the trees of its texts, as far as names are concerned (`Shaped`):
declarations have their names where names belong, the left side of a function starts with its
name, a lower-case pattern is the identifier it holds, and no pattern has a scope inside it.
Recovery from an error may break any of this. `Distinct` is about one text: its top level binds
no value twice.

In a shaped tree no scope comes between a name that a pattern binds and the scope that binds it.

* `leads_of_functionName?` — the name of a function starts its left side
* `findSome?_chain_of_pattern` — nothing comes between a name in a pattern and its scope
* `boundBy?_cases`, `declared?_cases` — what a scope binds, and what the top level declares
-/
namespace ElmScope
namespace Source

/-- The role and the kind of the name in a declaration of some kind. -/
def namePart? : String → Option (String × String)
  | "type_alias_declaration" | "type_declaration" | "union_variant" =>
    some ("name", "upper_case_identifier")
  | "field_type" | "port_annotation" => some ("name", "lower_case_identifier")
  | "infix_declaration" => some ("operator", "operator_identifier")
  | _ => none

/-- The kinds of nodes that may bind names. -/
def scopeKinds : List String :=
  ["value_declaration", "anonymous_function_expr", "case_of_branch", "let_in_expr"]

variable (s : Source)

/-- The patterns that stand in a scope for themselves. -/
def patternsOf (scope : Nat) : List Nat :=
  match s.tree.kind scope with
  | "value_declaration" => (s.tree.child? "pattern" scope).toList ++ s.parameters scope
  | "anonymous_function_expr" =>
    (s.tree.namedChildren scope).filter fun m => some m ≠ s.tree.child? "expr" scope
  | "case_of_branch" => (s.tree.child? "pattern" scope).toList
  | _ => []

/-- The nodes of a pattern, the pattern itself included. -/
def within (pattern : Nat) : List Nat := pattern :: s.tree.below pattern

/-- A tree as the grammar has it. -/
structure Shaped : Prop where
  regular : s.tree.Regular
  root : s.tree.kind Tree.root = "file"
  names : ∀ n < s.tree.size, ∀ part ∈ namePart? (s.tree.kind n),
    (s.tree.child? part.1 n).map s.tree.kind = some part.2
  lefts : ∀ d < s.tree.size, ∀ l ∈ s.tree.child? "functionDeclarationLeft" d,
    s.tree.kind l = "function_declaration_left"
  functions : ∀ l < s.tree.size, s.tree.kind l = "function_declaration_left" →
    (∃ d < s.tree.size, s.tree.kind d = "value_declaration" ∧
      s.tree.child? "functionDeclarationLeft" d = some l) ∧
    ∃ m < s.tree.size, (s.tree.children l).head? = some m ∧ s.tree.isNamed m = true ∧
      s.tree.kind m = "lower_case_identifier"
  identifiers : ∀ q < s.tree.size, s.tree.kind q = "lower_pattern" →
    ∃ m < s.tree.size, s.tree.children q = [m] ∧ s.tree.isNamed m = true ∧
      s.tree.kind m = "lower_case_identifier" ∧ s.tree.start m = s.tree.start q ∧
      s.tree.stop m = s.tree.stop q
  destructured : ∀ d < s.tree.size, s.tree.kind d = "value_declaration" →
    (s.tree.child? "pattern" d).isSome → s.tree.child? "functionDeclarationLeft" d = none
  scopeless : ∀ n < s.tree.size, ∀ p ∈ s.patternsOf n, ∀ m ∈ s.within p,
    s.tree.kind m ∉ scopeKinds

/-- Whether a node is a name that the pattern of a declaration in some scope binds. -/
def Destructured (scope : Nat) (name : String) (q : Nat) : Prop :=
  ∃ d ∈ s.tree.childrenOf ["value_declaration"] scope, ∃ p, s.tree.child? "pattern" d = some p ∧
    q ∈ s.within p ∧ s.tree.kind q = "lower_pattern" ∧ s.textOf q = name

/-- The names that the patterns of the top level bind. -/
def destructuredNames : List String :=
  s.valueDeclarations.flatMap fun d =>
    ((s.tree.child? "pattern" d).toList.flatMap (s.tree.descendants "lower_pattern")).map s.textOf

/-- Whether the top level binds no value twice. -/
def Distinct : Prop := ((s.declarations .value).map (·.1) ++ s.destructuredNames).Nodup

instance : Decidable s.Distinct := inferInstanceAs (Decidable (List.Nodup _))

variable {s} {name : String} {namesp : Namespace} {d : Definition} {m n p q l scope : Nat}

namespace Shaped

/-! ## The names of functions -/

theorem leads_of_functionName? (h : s.Shaped) (hm : s.functionName? n = some m) :
    ∃ l, s.tree.parent? m = some l ∧ s.tree.parent? l = some n ∧
      s.tree.kind l = "function_declaration_left" ∧ s.tree.kind m = "lower_case_identifier" ∧
      (s.tree.namedChildren l).head? = some m := by
  obtain ⟨l, hl, hfirst⟩ := Option.bind_eq_some_iff.1 hm
  obtain ⟨hsize, hlsize⟩ := h.regular.lt_size_of_child? hl
  have hkind := h.lefts n hsize l hl
  obtain ⟨-, m', -, hhead, hnamed, hm'⟩ := h.functions l hlsize hkind
  obtain ⟨rest, hrest⟩ := List.head?_eq_some_iff.1 hhead
  obtain rfl : m' = m := by
    rw [Tree.firstChild?, hrest, List.find?_cons_of_pos (by simpa using hm')] at hfirst
    exact Option.some.inj hfirst
  refine ⟨l, h.regular.parent?_of_mem_children (hrest ▸ List.mem_cons_self),
    h.regular.parent?_of_child? hl, hkind, hm', ?_⟩
  rw [Tree.namedChildren, hrest, List.filter_cons_of_pos hnamed, List.head?_cons]

theorem exists_functionName? (h : s.Shaped) (hl : s.tree.kind l = "function_declaration_left")
    (hn : s.tree.parent? l = some n) : ∃ m, s.functionName? n = some m := by
  have hsize := Tree.lt_size_of_kind hl (by decide)
  obtain ⟨⟨d, -, -, hd⟩, m, -, hhead, -, hm⟩ := h.functions l hsize hl
  obtain rfl : d = n := Option.some.inj ((h.regular.parent?_of_child? hd).symm.trans hn)
  obtain ⟨rest, hrest⟩ := List.head?_eq_some_iff.1 hhead
  refine ⟨m, ?_⟩
  rw [functionName?, hd, Option.bind_some, Tree.firstChild?, hrest,
    List.find?_cons_of_pos (by simpa using hm)]

/-! ## The identifier of a pattern -/

theorem identifier_of_pattern (h : s.Shaped) (hq : s.tree.kind q = "lower_pattern") :
    ∃ m, s.tree.namedChildren q = [m] ∧ s.tree.parent? m = some q ∧
      s.tree.kind m = "lower_case_identifier" ∧ s.textOf m = s.textOf q := by
  obtain ⟨m, -, hchildren, hnamed, hm, hstart, hstop⟩ :=
    h.identifiers q (Tree.lt_size_of_kind hq (by decide)) hq
  refine ⟨m, ?_, h.regular.parent?_of_mem_children (hchildren ▸ List.mem_singleton_self m), hm, ?_⟩
  · rw [Tree.namedChildren, hchildren, List.filter_cons_of_pos hnamed, List.filter_nil]
  · rw [textOf, textOf, hstart, hstop]

theorem functionName?_of_pattern (h : s.Shaped) (hq : s.tree.kind q = "lower_pattern") :
    s.functionName? q = none := by
  cases hm : s.functionName? q with
  | none => rfl
  | some m =>
    obtain ⟨l, -, hl, hkind, -⟩ := h.leads_of_functionName? hm
    obtain ⟨i, -, hchildren, -, hi, -⟩ :=
      h.identifiers q (Tree.lt_size_of_kind hq (by decide)) hq
    have hmem : l ∈ s.tree.children q := by
      rw [Tree.mem_children_iff, ← h.regular.parent?_eq, hl]
    rw [hchildren, List.mem_singleton] at hmem
    rw [hmem, hi] at hkind
    exact absurd hkind (by decide)

/-! ## Nodes that bind nothing -/

theorem boundBy?_of_kind (hk : s.tree.kind n ∉ scopeKinds) (name : String) :
    s.boundBy? name n = none := by
  simp only [scopeKinds, List.mem_cons, List.not_mem_nil, or_false, not_or] at hk
  unfold boundBy?
  split <;> simp_all

/-- A declaration by a pattern has no parameters. -/
theorem boundBy?_of_destructured (h : s.Shaped) (hk : s.tree.kind n = "value_declaration")
    (hp : s.tree.child? "pattern" n = some p) (name : String) : s.boundBy? name n = none := by
  have hleft := h.destructured n (Tree.lt_size_of_kind hk (by decide)) hk (by simp [hp])
  simp [boundBy?, hk, parameters, hleft]

end Shaped

/-! ## Bindings in patterns -/

theorem bindingBelow?_cases (hq : s.bindingBelow? name p = some q) :
    q ∈ s.within p ∧ s.tree.kind q = "lower_pattern" ∧ s.textOf q = name := by
  have hmem := List.mem_filter.1 (List.mem_of_find?_eq_some hq)
  exact ⟨List.mem_cons_of_mem _ hmem.1, by simpa using hmem.2, by simpa using List.find?_some hq⟩

theorem bindingIn?_cases (hq : s.bindingIn? name p = some q) :
    q ∈ s.within p ∧ s.tree.kind q = "lower_pattern" ∧ s.textOf q = name := by
  unfold bindingIn? at hq
  split at hq
  · next hp =>
    obtain ⟨hname, hq⟩ := Option.ite_none_right_eq_some.1 hq
    obtain rfl := Option.some.inj hq
    exact ⟨List.mem_cons_self, hp, hname⟩
  · exact bindingBelow?_cases hq

/-- A value that a scope declares: a function by its left side, or a name in the pattern of a
declaration. -/
theorem valueNamed?_cases (hn : s.valueNamed? scope name true = some n) :
    (n ∈ s.tree.childrenOf ["value_declaration"] scope ∧
        (s.functionName? n).map s.textOf = some name) ∨ s.Destructured scope name n := by
  simp only [valueNamed?, if_true, Option.or_eq_some_iff] at hn
  rcases hn with hn | ⟨-, hn⟩
  · have hname := List.find?_some hn
    obtain ⟨m, hm, heq⟩ := (Option.any_eq_true _ _).1 hname
    refine .inl ⟨List.mem_of_find?_eq_some hn, ?_⟩
    rw [hm, Option.map_some, of_decide_eq_true heq]
  · obtain ⟨d, hd, hbind⟩ := List.exists_of_findSome?_eq_some hn
    obtain ⟨p, hp, hq⟩ := Option.bind_eq_some_iff.1 hbind
    exact .inr ⟨d, hd, p, hp, bindingBelow?_cases hq⟩

/-- What is declared under a name: a declaration of the name, or a value that a pattern binds. -/
theorem declared?_cases (hd : s.declared? name namesp = some d) :
    (name, d) ∈ s.declarations namesp ∨ namesp = .value ∧ d.source = s ∧ d.kind = .function ∧
      s.Destructured Tree.root name d.node := by
  by_cases hvalue : namesp = .value
  · subst hvalue
    rcases Option.or_eq_some_iff.1 hd with hd | ⟨-, hd⟩
    · obtain ⟨n, hn, rfl⟩ := Option.map_eq_some_iff.1 hd
      rcases valueNamed?_cases hn with ⟨hmem, hname⟩ | hpattern
      · exact .inl <| List.mem_append_left _ <| List.mem_append_left _ <|
          mem_named_iff.2 ⟨rfl, rfl, hmem, hname⟩
      · exact .inr ⟨rfl, rfl, rfl, hpattern⟩
    left
    rcases Option.or_eq_some_iff.1 hd with hd | ⟨-, hd⟩ <;>
      obtain ⟨n, hn, rfl⟩ := Option.map_eq_some_iff.1 hd <;>
      have hname := List.find?_some hn
    · exact List.mem_append_left _ <| List.mem_append_right _ <|
        mem_named_iff.2 ⟨rfl, rfl, List.mem_of_find?_eq_some hn, of_decide_eq_true hname⟩
    · exact List.mem_append_right _ <|
        mem_named_iff.2 ⟨rfl, rfl, List.mem_of_find?_eq_some hn, of_decide_eq_true hname⟩
  · exact .inl (mem_declarations_of_undestructured (fun h => absurd h hvalue) hd)

/-- What a scope binds: a value that a `let` declares, or a name in one of its patterns. -/
theorem boundBy?_cases (hd : s.boundBy? name scope = some d) : d.source = s ∧
    (d.kind = .function ∧ s.valueNamed? scope name true = some d.node ∨
      d.kind ∈ [.functionParameter, .anonymousFunctionParameter, .casePattern] ∧
        ∃ p ∈ s.patternsOf scope, s.bindingIn? name p = some d.node) := by
  unfold boundBy? at hd
  split at hd
  · next hk =>
    obtain ⟨q, hq, rfl⟩ := Option.map_eq_some_iff.1 hd
    obtain ⟨p, hp, hq⟩ := List.exists_of_findSome?_eq_some hq
    refine ⟨rfl, .inr ⟨by simp, p, ?_, hq⟩⟩
    rw [patternsOf, hk]
    exact List.mem_append_right _ hp
  · next hk =>
    obtain ⟨q, hq, rfl⟩ := Option.map_eq_some_iff.1 hd
    obtain ⟨p, hp, hq⟩ := List.exists_of_findSome?_eq_some hq
    refine ⟨rfl, .inr ⟨by simp, p, ?_, hq⟩⟩
    rw [patternsOf, hk]
    exact hp
  · next hk =>
    obtain ⟨q, hq, rfl⟩ := Option.map_eq_some_iff.1 hd
    obtain ⟨p, hp, hq⟩ := Option.bind_eq_some_iff.1 hq
    refine ⟨rfl, .inr ⟨by simp, p, ?_, hq⟩⟩
    rw [patternsOf, hk]
    exact Option.mem_toList.2 hp
  · obtain ⟨q, hq, rfl⟩ := Option.map_eq_some_iff.1 hd
    exact ⟨rfl, .inl ⟨rfl, hq⟩⟩
  · exact nomatch hd

/-! ## From a name in a pattern to its scope -/

namespace Shaped

theorem findSome?_chain_of_within (h : s.Shaped) (hp : s.tree.parent? p = some n)
    (hscopeless : ∀ m ∈ s.within p, s.tree.kind m ∉ scopeKinds) (hq : q ∈ s.within p)
    (name : String) :
    (s.tree.chain q).findSome? (s.boundBy? name) =
      (s.tree.chain n).findSome? (s.boundBy? name) := by
  have hnone : ∀ l : List Nat, (∀ k ∈ l, k ∈ s.within p) → l.findSome? (s.boundBy? name) = none :=
    fun l hl => List.findSome?_eq_none_iff.2 fun k hk =>
      boundBy?_of_kind (hscopeless k (hl k hk)) name
  have hsize : p < s.tree.size := by
    rw [h.regular.parent?_eq] at hp
    exact Tree.lt_size_of_shapeParent? hp
  rcases List.mem_cons.1 hq with rfl | hbelow
  · rw [Tree.chain_of_parent? hp, List.findSome?_cons,
      boundBy?_of_kind (hscopeless q List.mem_cons_self)]
  · obtain ⟨l, hl, hin⟩ := h.regular.chain_of_mem_below hsize hbelow
    rw [hl, Tree.chain_of_parent? hp, List.findSome?_append,
      hnone l fun k hk => List.mem_cons_of_mem _ (hin k hk), Option.none_or, List.findSome?_cons,
      boundBy?_of_kind (hscopeless p List.mem_cons_self)]

theorem parent?_of_mem_patternsOf (h : s.Shaped) (hp : p ∈ s.patternsOf n) :
    s.tree.parent? p = some n ∨ ∃ l, s.tree.parent? p = some l ∧ s.tree.parent? l = some n ∧
      s.tree.kind l = "function_declaration_left" := by
  have hchild : ∀ role, p ∈ (s.tree.child? role n).toList → s.tree.parent? p = some n :=
    fun role hp => h.regular.parent?_of_child? (Option.mem_toList.1 hp)
  unfold patternsOf at hp
  split at hp
  · rcases List.mem_append.1 hp with hp | hp
    · exact .inl (hchild _ hp)
    · unfold parameters at hp
      split at hp
      · next l hl =>
        have hp := List.mem_of_mem_filter (List.mem_of_mem_drop (List.mem_of_mem_filter hp))
        exact .inr ⟨l, h.regular.parent?_of_mem_children hp, h.regular.parent?_of_child? hl,
          h.lefts n (h.regular.lt_size_of_child? hl).1 l hl⟩
      · exact absurd hp List.not_mem_nil
  · exact .inl <|
      h.regular.parent?_of_mem_children (List.mem_of_mem_filter (List.mem_of_mem_filter hp))
  · exact .inl (hchild _ hp)
  · exact absurd hp List.not_mem_nil

/-- No scope comes between a name in a pattern and the scope the pattern stands in. -/
theorem findSome?_chain_of_pattern (h : s.Shaped) (hp : p ∈ s.patternsOf n) (hq : q ∈ s.within p)
    (name : String) :
    (s.tree.chain q).findSome? (s.boundBy? name) =
      (s.tree.chain n).findSome? (s.boundBy? name) := by
  have hsize : n < s.tree.size := by
    by_contra hn
    have hkind : s.tree.kind n = "" := Tree.kind_of_size_le (Nat.le_of_not_lt hn)
    simp [patternsOf, hkind] at hp
  have hscopeless := h.scopeless n hsize p hp
  rcases h.parent?_of_mem_patternsOf hp with hparent | ⟨l, hparent, hl, hkind⟩
  · exact h.findSome?_chain_of_within hparent hscopeless hq name
  · rw [h.findSome?_chain_of_within hparent hscopeless hq name, Tree.chain_of_parent? hl,
      List.findSome?_cons, boundBy?_of_kind (by simp [hkind, scopeKinds])]

/-- Nor does one come between a name that a declaration binds by its pattern and the scope of the
declaration. -/
theorem findSome?_chain_of_destructured (h : s.Shaped) (hq : s.Destructured scope name q) :
    (s.tree.chain q).findSome? (s.boundBy? name) =
      (s.tree.chain scope).findSome? (s.boundBy? name) := by
  obtain ⟨m, hm, p, hp, hq, -⟩ := hq
  obtain ⟨hchild, hkind⟩ := List.mem_filter.1 hm
  have hkind : s.tree.kind m = "value_declaration" := by simpa using hkind
  have hpattern : p ∈ s.patternsOf m := by
    rw [patternsOf, hkind]
    exact List.mem_append_left _ (Option.mem_toList.2 hp)
  rw [h.findSome?_chain_of_pattern hpattern hq, Tree.chain_of_parent?
    (h.regular.parent?_of_mem_children hchild), List.findSome?_cons,
    h.boundBy?_of_destructured hkind hp]

end Shaped

end Source
end ElmScope
