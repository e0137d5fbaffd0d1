import ElmScope.Proofs.Referent.FixedPoint
import ElmScope.Proofs.Types.Parameters
import Mathlib.Order.Bounds.Defs
/-!
# The innermost scope decides

A plain lower-case name means what the innermost scope around it that binds it binds it to, and only
a name that no scope around it binds is looked up in the file and its imports. Four kinds of nodes
are scopes, and what they bind is read from patterns, save for the functions of a `let`; `Binds`
says which names a scope binds and `Binder` which of its nodes counts for a name, in terms of the
tree alone. So the answer is the same in every workspace.

* `boundBy?_isSome_iff`, `binder_of_boundBy?` — what a scope binds, and the node that counts
* `found_of_plain` — a plain name goes through the scopes around it and then to the file
* `referent_innermost` — the innermost scope that binds a name decides
-/
namespace ElmScope

/-- In ascending order, a search finds the least of those that fit. -/
theorem find?_eq_some_iff_isLeast {l : List Nat} (h : l.Pairwise (· < ·)) {p : Nat → Bool}
    {P : Nat → Prop} (hP : ∀ k, k ∈ l ∧ p k = true ↔ P k) {m : Nat} :
    l.find? p = some m ↔ IsLeast {k | P k} m := by
  rw [find?_eq_some_iff_least h, hP]
  refine and_congr_right fun _ => ⟨fun hleast k hk => ?_, fun hleast k hk hpk => ?_⟩
  · exact hleast k ((hP k).2 hk).1 ((hP k).2 hk).2
  · exact hleast ((hP k).1 ⟨hk, hpk⟩)

namespace Source

/-! ## What a scope binds -/

section
variable (s : Source) (name : String)

/-- Where the names of a pattern stand. A lower-case pattern is a name itself and holds no other. -/
def nameNodes (pattern : Nat) : List Nat :=
  if s.tree.kind pattern = "lower_pattern" then [pattern] else s.tree.below pattern

/-- Whether a node is a name in a pattern. -/
def NamedIn (pattern q : Nat) : Prop :=
  q ∈ s.nameNodes pattern ∧ s.tree.kind q = "lower_pattern" ∧ s.textOf q = name

/-- Whether a declaration right below a scope declares a function of a name. -/
def DeclaresFunction (scope d : Nat) : Prop :=
  d ∈ s.tree.childrenOf ["value_declaration"] scope ∧ (s.functionName? d).map s.textOf = some name

/-- Whether a declaration right below a scope has a pattern with a name in it. -/
def DeclaresByPattern (scope d q : Nat) : Prop :=
  d ∈ s.tree.childrenOf ["value_declaration"] scope ∧ ∃ p, s.tree.child? "pattern" d = some p ∧
    q ∈ s.tree.below p ∧ s.tree.kind q = "lower_pattern" ∧ s.textOf q = name

/-- Whether a node is a scope that binds a name. -/
inductive Binds (scope : Nat) : Prop
  | parameter {p q : Nat} (hk : s.tree.kind scope = "value_declaration")
    (hp : p ∈ s.parameters scope) (hq : s.NamedIn name p q)
  | anonymousParameter {p q : Nat} (hk : s.tree.kind scope = "anonymous_function_expr")
    (hp : p ∈ s.tree.namedChildren scope) (hbody : s.tree.child? "expr" scope ≠ some p)
    (hq : s.NamedIn name p q)
  | branch {p q : Nat} (hk : s.tree.kind scope = "case_of_branch")
    (hp : s.tree.child? "pattern" scope = some p) (hq : s.NamedIn name p q)
  | function {d : Nat} (hk : s.tree.kind scope = "let_in_expr")
    (hd : s.DeclaresFunction name scope d)
  | destructured {d q : Nat} (hk : s.tree.kind scope = "let_in_expr")
    (hq : s.DeclaresByPattern name scope d q)

/-- The node that counts for a name in a scope that binds it, and as what it counts: the first one,
in a `let` the first function of the name or else the first name in the first pattern. -/
inductive Binder (scope : Nat) : Nat → DefinitionKind → Prop
  | parameter {q : Nat} (hk : s.tree.kind scope = "value_declaration")
    (hq : IsLeast {q | ∃ p ∈ s.parameters scope, s.NamedIn name p q} q) :
    Binder scope q .functionParameter
  | anonymousParameter {q : Nat} (hk : s.tree.kind scope = "anonymous_function_expr")
    (hq : IsLeast {q | ∃ p ∈ s.tree.namedChildren scope,
      s.tree.child? "expr" scope ≠ some p ∧ s.NamedIn name p q} q) :
    Binder scope q .anonymousFunctionParameter
  | branch {q : Nat} (hk : s.tree.kind scope = "case_of_branch")
    (hq : IsLeast {q | ∃ p, s.tree.child? "pattern" scope = some p ∧ s.NamedIn name p q} q) :
    Binder scope q .casePattern
  | function {d : Nat} (hk : s.tree.kind scope = "let_in_expr")
    (hd : IsLeast {d | s.DeclaresFunction name scope d} d) : Binder scope d .function
  | destructured {d q : Nat} (hk : s.tree.kind scope = "let_in_expr")
    (hnone : ∀ d, ¬s.DeclaresFunction name scope d)
    (hd : IsLeast {d | ∃ q, s.DeclaresByPattern name scope d q} d)
    (hq : IsLeast {q | s.DeclaresByPattern name scope d q} q) : Binder scope q .function

end

variable {s : Source} {name : String} {d : Definition} {p q l n scope : Nat} {ps : List Nat}

/-! ## Names in patterns -/

theorem bindingBelow?_eq_find? (s : Source) (name : String) (p : Nat) :
    s.bindingBelow? name p = (s.tree.below p).find? fun q =>
      s.tree.kind q = "lower_pattern" && s.textOf q = name := by
  rw [bindingBelow?, Tree.descendants, List.find?_filter]
  simp only [Bool.decide_eq_true, Bool.decide_and]

theorem bindingIn?_eq_find? (s : Source) (name : String) (p : Nat) :
    s.bindingIn? name p = (s.nameNodes p).find? fun q =>
      s.tree.kind q = "lower_pattern" && s.textOf q = name := by
  rw [bindingIn?, nameNodes]
  by_cases hp : s.tree.kind p = "lower_pattern"
  · by_cases hname : s.textOf p = name <;> simp [hp, hname]
  · rw [if_neg hp, if_neg hp, bindingBelow?_eq_find?]

theorem pairwise_nameNodes (s : Source) (p : Nat) : (s.nameNodes p).Pairwise (· < ·) := by
  rw [nameNodes]
  split
  · exact List.pairwise_singleton _ _
  · exact Tree.pairwise_below _ _

theorem le_of_mem_nameNodes (hq : q ∈ s.nameNodes p) : p ≤ q := by
  rw [nameNodes] at hq
  split at hq
  · exact Nat.le_of_eq (List.mem_singleton.1 hq).symm
  · exact Nat.le_of_lt (Tree.mem_below_iff.1 hq).1

theorem lt_endOf_of_mem_nameNodes (hp : p < s.tree.size) (hq : q ∈ s.nameNodes p) :
    q < s.tree.endOf p := by
  rw [nameNodes] at hq
  split at hq
  · rw [List.mem_singleton.1 hq]
    exact Tree.lt_endOf hp
  · exact (Tree.mem_below_iff.1 hq).2

/-- Names stand in the order of the patterns that hold them. -/
theorem pairwise_flatMap_nameNodes (hps : ps.Sublist (s.tree.children l)) :
    (ps.flatMap s.nameNodes).Pairwise (· < ·) := by
  refine List.pairwise_flatMap.2 ⟨fun p _ => pairwise_nameNodes s p, List.Pairwise.sublist hps ?_⟩
  refine (Tree.pairwise_children s.tree l).imp_of_mem fun {a b} ha hb hab x hx y hy => ?_
  have hbetween := (Tree.nests_of_shapeParent? (Tree.shapeParent?_of_mem_children hb)).2.2.2
  calc x < s.tree.endOf a := lt_endOf_of_mem_nameNodes (Tree.lt_of_mem_children ha).2 hx
    _ ≤ b := hbetween a (Tree.lt_of_mem_children ha).1 hab
    _ ≤ y := le_of_mem_nameNodes hy

theorem bindingIn?_eq_some_iff :
    s.bindingIn? name p = some q ↔ IsLeast {q | s.NamedIn name p q} q := by
  rw [bindingIn?_eq_find?]
  exact find?_eq_some_iff_isLeast (pairwise_nameNodes s p) (by simp [NamedIn])

theorem bindingIn?_isSome_iff :
    (s.bindingIn? name p).isSome ↔ ∃ q, s.NamedIn name p q := by
  simp [bindingIn?_eq_find?, NamedIn]

/-- The first pattern with a name in it holds the first node of that name. -/
theorem findSome?_bindingIn?_eq_some_iff (hps : ps.Sublist (s.tree.children l)) :
    ps.findSome? (s.bindingIn? name) = some q ↔
      IsLeast {q | ∃ p ∈ ps, s.NamedIn name p q} q := by
  have hfind : ps.findSome? (s.bindingIn? name) = (ps.flatMap s.nameNodes).find? fun q =>
      s.tree.kind q = "lower_pattern" && s.textOf q = name := by
    rw [List.find?_flatMap, funext (bindingIn?_eq_find? s name)]
  rw [hfind]
  refine find?_eq_some_iff_isLeast (pairwise_flatMap_nameNodes hps) fun q => ?_
  simp only [List.mem_flatMap, NamedIn, Bool.and_eq_true, decide_eq_true_eq, ← exists_and_right,
    and_assoc]

/-! ## Names that a `let` declares -/

theorem find?_function_eq_some_iff :
    ((s.tree.childrenOf ["value_declaration"] scope).find? fun d =>
        (s.functionName? d).any fun n => s.textOf n = name) = some n ↔
      IsLeast {d | s.DeclaresFunction name scope d} n :=
  find?_eq_some_iff_isLeast (Tree.pairwise_childrenOf ..) fun d => by
    simp [DeclaresFunction, Option.any_eq_true]

theorem bindingInPattern?_eq_some_iff {d : Nat}
    (hd : d ∈ s.tree.childrenOf ["value_declaration"] scope) :
    (s.tree.child? "pattern" d).bind (s.bindingBelow? name) = some q ↔
      IsLeast {q | s.DeclaresByPattern name scope d q} q := by
  cases hp : s.tree.child? "pattern" d with
  | none =>
    refine iff_of_false (by simp) fun hq => ?_
    obtain ⟨-, p, hsome, -⟩ := hq.1
    exact absurd (hp.symm.trans hsome) (Option.some_ne_none p).symm
  | some p =>
    rw [Option.bind_some, bindingBelow?_eq_find?]
    exact find?_eq_some_iff_isLeast (Tree.pairwise_below ..) fun q => by
      simp [DeclaresByPattern, hd, hp]

theorem bindingInPattern?_isSome_iff {d : Nat} :
    d ∈ s.tree.childrenOf ["value_declaration"] scope ∧
        ((s.tree.child? "pattern" d).bind (s.bindingBelow? name)).isSome ↔
      ∃ q, s.DeclaresByPattern name scope d q := by
  cases hp : s.tree.child? "pattern" d <;> simp [DeclaresByPattern, hp, bindingBelow?_eq_find?]

theorem findSome?_destructured_eq_some_iff :
    ((s.tree.childrenOf ["value_declaration"] scope).findSome? fun d =>
        (s.tree.child? "pattern" d).bind (s.bindingBelow? name)) = some q ↔
      ∃ d, IsLeast {d | ∃ q, s.DeclaresByPattern name scope d q} d ∧
        IsLeast {q | s.DeclaresByPattern name scope d q} q := by
  rw [findSome?_eq_bind_find?, Option.bind_eq_some_iff]
  refine exists_congr fun d => ?_
  rw [find?_eq_some_iff_isLeast (Tree.pairwise_childrenOf ..) fun d => bindingInPattern?_isSome_iff]
  refine and_congr_right fun hd => ?_
  obtain ⟨q, hq⟩ := hd.1
  exact bindingInPattern?_eq_some_iff hq.1

/-! ## Scopes -/

theorem mem_anonymousParameters_iff :
    p ∈ ((s.tree.namedChildren scope).filter fun m => some m ≠ s.tree.child? "expr" scope) ↔
      p ∈ s.tree.namedChildren scope ∧ s.tree.child? "expr" scope ≠ some p := by
  rw [List.mem_filter, decide_eq_true_eq, ne_comm]

theorem binder_of_boundBy? (hd : s.boundBy? name scope = some d) :
    d.source = s ∧ s.Binder name scope d.node d.kind := by
  unfold boundBy? at hd
  split at hd
  · next hk =>
    obtain ⟨q, hq, rfl⟩ := Option.map_eq_some_iff.1 hd
    obtain ⟨l, hl, -⟩ := s.sublist_parameters scope
    exact ⟨rfl, .parameter hk ((findSome?_bindingIn?_eq_some_iff hl).1 hq)⟩
  · next hk =>
    obtain ⟨q, hq, rfl⟩ := Option.map_eq_some_iff.1 hd
    have hps : ((s.tree.namedChildren scope).filter fun m =>
        some m ≠ s.tree.child? "expr" scope).Sublist (s.tree.children scope) :=
      List.filter_sublist.trans List.filter_sublist
    have hleast := (findSome?_bindingIn?_eq_some_iff hps).1 hq
    simp only [mem_anonymousParameters_iff, and_assoc] at hleast
    exact ⟨rfl, .anonymousParameter hk hleast⟩
  · next hk =>
    obtain ⟨q, hq, rfl⟩ := Option.map_eq_some_iff.1 hd
    obtain ⟨p, hp, hq⟩ := Option.bind_eq_some_iff.1 hq
    refine ⟨rfl, .branch hk ?_⟩
    simpa [hp] using bindingIn?_eq_some_iff.1 hq
  · next hk =>
    obtain ⟨q, hq, rfl⟩ := Option.map_eq_some_iff.1 hd
    simp only [valueNamed?, if_true, Option.or_eq_some_iff] at hq
    rcases hq with hq | ⟨hnone, hq⟩
    · exact ⟨rfl, .function hk (find?_function_eq_some_iff.1 hq)⟩
    · obtain ⟨m, hm, hq⟩ := findSome?_destructured_eq_some_iff.1 hq
      refine ⟨rfl, .destructured hk (fun f hf => ?_) hm hq⟩
      obtain ⟨n, hn, hname⟩ := Option.map_eq_some_iff.1 hf.2
      exact List.find?_eq_none.1 hnone f hf.1 (by simp [hn, hname])
  · exact absurd hd (Option.some_ne_none d).symm

theorem valueNamed?_isSome_iff : (s.valueNamed? scope name true).isSome ↔
    (∃ d, s.DeclaresFunction name scope d) ∨ ∃ d q, s.DeclaresByPattern name scope d q := by
  simp only [valueNamed?, if_true, Option.isSome_or, Bool.or_eq_true, List.find?_isSome,
    List.findSome?_isSome_iff, ← bindingInPattern?_isSome_iff, DeclaresFunction]
  simp [Option.any_eq_true]

theorem boundBy?_isSome_iff : (s.boundBy? name scope).isSome ↔ s.Binds name scope := by
  constructor
  · intro h
    unfold boundBy? at h
    split at h
    · next hk =>
      simp only [Option.isSome_map, List.findSome?_isSome_iff, bindingIn?_isSome_iff] at h
      obtain ⟨p, hp, q, hq⟩ := h
      exact .parameter hk hp hq
    · next hk =>
      simp only [Option.isSome_map, List.findSome?_isSome_iff, bindingIn?_isSome_iff] at h
      obtain ⟨p, hp, q, hq⟩ := h
      obtain ⟨hp, hbody⟩ := mem_anonymousParameters_iff.1 hp
      exact .anonymousParameter hk hp hbody hq
    · next hk =>
      rw [Option.isSome_map, Option.isSome_bind, Option.any_eq_true] at h
      obtain ⟨p, hp, hq⟩ := h
      obtain ⟨q, hq⟩ := bindingIn?_isSome_iff.1 hq
      exact .branch hk hp hq
    · next hk =>
      rw [Option.isSome_map] at h
      rcases valueNamed?_isSome_iff.1 h with ⟨d, hd⟩ | ⟨d, q, hq⟩
      · exact .function hk hd
      · exact .destructured hk hq
    · exact absurd h Bool.false_ne_true
  · intro h
    cases h with
    | parameter hk hp hq =>
      simp only [boundBy?, hk, Option.isSome_map, List.findSome?_isSome_iff, bindingIn?_isSome_iff]
      exact ⟨_, hp, _, hq⟩
    | anonymousParameter hk hp hbody hq =>
      simp only [boundBy?, hk, Option.isSome_map, List.findSome?_isSome_iff, bindingIn?_isSome_iff]
      exact ⟨_, mem_anonymousParameters_iff.2 ⟨hp, hbody⟩, _, hq⟩
    | branch hk hp hq =>
      simp only [boundBy?, hk, hp, Option.isSome_map, Option.bind_some, bindingIn?_isSome_iff]
      exact ⟨_, hq⟩
    | function hk hd =>
      simp only [boundBy?, hk, Option.isSome_map]
      exact valueNamed?_isSome_iff.2 (.inl ⟨_, hd⟩)
    | destructured hk hq =>
      simp only [boundBy?, hk, Option.isSome_map]
      exact valueNamed?_isSome_iff.2 (.inr ⟨_, _, hq⟩)

/-! ## Plain names -/

/-- Whether a name means what the node above it makes it: the name of a field, of a type variable,
of a declaration or of its annotation. -/
def NamedByParent (s : Source) (p n : Nat) : Prop :=
  (s.tree.kind p = "field_access_expr" ∧ s.tree.child? "target" p ≠ some n) ∨
    (s.tree.kind p ∈ ["field", "function_declaration_left"] ∧ Workspace.leads s.tree p n = true) ∨
    s.tree.kind p ∈
      ["field_type", "type_variable", "lower_type_name", "type_annotation", "port_annotation"]

instance (s : Source) (p n : Nat) : Decidable (s.NamedByParent p n) :=
  inferInstanceAs (Decidable (_ ∨ _))

/-- Whether a node is a plain lower-case name: the base of a record, or an identifier without a
qualifier, that does not have its meaning from the node above it. -/
structure PlainName (s : Source) (n : Nat) : Prop where
  kind : s.tree.kind n = "record_base_identifier" ∨ s.tree.kind n = "lower_case_identifier" ∧
    ∀ p ∈ s.tree.parent? n, s.tree.kind p ∈ Reference.pathKinds →
      Reference.segments s.tree p = [n]
  place : ∃ p ∈ s.tree.parent? n, ¬s.NamedByParent p n

end Source

namespace Workspace

variable {w : Workspace} {c : Checker} {s : Source} {n p node : Nat}

theorem found_lowerCaseReferent_of_plain (hp : s.tree.parent? n = some p)
    (h : ¬s.NamedByParent p n) :
    (w.lowerCaseReferent c s n).found = (w.plainReferent s n).found := by
  simp only [Source.NamedByParent, List.mem_cons, List.not_mem_nil, or_false, not_or] at h
  obtain ⟨haccess, hlabel, htype, hvariable, htypeName, hannotated, hport⟩ := h
  have hfield : ¬(s.tree.kind p = "field" ∧ leads s.tree p n = true) :=
    fun hk => hlabel ⟨.inl hk.1, hk.2⟩
  have hleft : ¬(s.tree.kind p = "function_declaration_left" ∧ leads s.tree p n = true) :=
    fun hk => hlabel ⟨.inr hk.1, hk.2⟩
  rw [lowerCaseReferent, hp, Search.found_bind_some]
  dsimp only
  rw [if_neg haccess, if_neg hfield, if_neg htype, if_neg (not_or.2 ⟨hvariable, htypeName⟩),
    if_neg hleft, if_neg (not_or.2 ⟨hannotated, hport⟩)]

/-- An identifier that is all there is of its path, or in no path, is a name without a qualifier. -/
theorem ofNode?_of_plain (hk : s.tree.kind n = "lower_case_identifier")
    (hpath : ∀ p ∈ s.tree.parent? n, s.tree.kind p ∈ Reference.pathKinds →
      Reference.segments s.tree p = [n]) :
    Reference.ofNode? s n = some (.unqualified (s.textOf n) .value) := by
  have hself : Reference.identifier? s.tree n = some n := by
    simp [Reference.identifier?, hk, Reference.pathKinds]
  rw [Reference.ofNode?, hself, Option.bind_some, if_neg (by simp [hk, Reference.identifierKinds])]
  split
  · simp [Reference.plain, hk]
  · next p hp =>
    obtain ⟨hparent, hkind⟩ := Option.filter_eq_some_iff.1 hp
    have hsegments := hpath p hparent (List.contains_iff_mem.1 hkind)
    simp [Reference.inPath?, hsegments, Reference.namespaceOf, hk, Reference.unqualified]

/-- A plain name goes through the scopes around it, and then it is looked up in the file. -/
theorem found_of_plain (hid : identifierOf? s.tree node = some n) (hn : s.PlainName n) :
    (w.referent s node).found = (s.bindingAround? (s.textOf n) n).or
      (w.lookup? s (.unqualified (s.textOf n) .value)) := by
  obtain ⟨p, hp, hplace⟩ := hn.place
  have hlower : ∀ c, (w.identifierReferent c s n).found = (w.plainReferent s n).found := by
    intro c
    rw [← found_lowerCaseReferent_of_plain (c := c) hp hplace, identifierReferent]
    rcases hn.kind with hk | ⟨hk, -⟩ <;> (rw [hk]; rfl)
  have hstep : (w.referent s node).found = (w.plainReferent s n).found :=
    (step_found hid).trans (hlower _)
  rw [hstep]
  refine plainReferent_found_of ?_
  rcases hn.kind with hk | ⟨hk, hpath⟩
  · rw [if_pos hk]
  · rw [if_neg (by simp [hk]), ofNode?_of_plain hk hpath]

/-- **The innermost scope that binds a name decides.** What a plain lower-case name refers to is the
node that counts for it in the innermost scope around it that binds it, in every workspace. If no
scope around it binds it, it is what the name means in the file. -/
theorem referent_innermost (hid : identifierOf? s.tree node = some n) (hn : s.PlainName n) :
    (∀ inner scope outer, s.tree.ancestors n = inner ++ scope :: outer →
      (∀ k ∈ inner, ¬s.Binds (s.textOf n) k) → s.Binds (s.textOf n) scope →
        ∃ q kind, s.Binder (s.textOf n) scope q kind ∧
          ∀ w : Workspace, (w.referent s node).found = some ⟨q, s, kind⟩) ∧
    ((∀ k ∈ s.tree.ancestors n, ¬s.Binds (s.textOf n) k) → ∀ w : Workspace,
      (w.referent s node).found = w.lookup? s (.unqualified (s.textOf n) .value)) := by
  have hnone : ∀ l : List Nat, (∀ k ∈ l, ¬s.Binds (s.textOf n) k) →
      l.findSome? (s.boundBy? (s.textOf n)) = none := by
    intro l hl
    refine List.findSome?_eq_none_iff.2 fun k hk => Option.not_isSome_iff_eq_none.1 fun hsome => ?_
    exact hl k hk (Source.boundBy?_isSome_iff.1 hsome)
  constructor
  · intro inner scope outer hancestors hinner hscope
    obtain ⟨d, hd⟩ := Option.isSome_iff_exists.1 (Source.boundBy?_isSome_iff.2 hscope)
    obtain ⟨hsource, hbinder⟩ := Source.binder_of_boundBy? hd
    refine ⟨d.node, d.kind, hbinder, fun w => ?_⟩
    rw [found_of_plain hid hn, Source.bindingAround?, hancestors, List.findSome?_append,
      hnone inner hinner, Option.none_or, List.findSome?_cons, hd, Option.some_or, ← hsource]
  · intro hall w
    rw [found_of_plain hid hn, Source.bindingAround?, hnone _ hall, Option.none_or]

/-- The expression after `in` refers to what the `let` declares, not to what the three scopes around
the `let` bind. -/
theorem referent_innermost_shadow :
    identifierOf? Sample.shadow.tree 35 = some 36 ∧ Sample.shadow.PlainName 36 ∧
      Sample.shadow.tree.ancestors 36 = [35, 34] ++ 24 :: Sample.shadow.tree.ancestors 24 ∧
      (∀ k ∈ [35, 34], ¬Sample.shadow.Binds "x" k) ∧ Sample.shadow.Binds "x" 24 ∧
      ∀ w : Workspace,
        (w.referent Sample.shadow 35).found = some ⟨26, Sample.shadow, .function⟩ := by
  have hid : identifierOf? Sample.shadow.tree 35 = some 36 := by
    rw [identifierOf?, if_neg (by decide +kernel), if_pos (by decide +kernel)]
    decide +kernel
  have hn : Sample.shadow.PlainName 36 :=
    ⟨.inr ⟨by decide +kernel, by decide +kernel⟩, 35, by decide +kernel, by decide +kernel⟩
  have hname : Sample.shadow.textOf 36 = "x" := by decide +kernel
  have hancestors : Sample.shadow.tree.ancestors 36 =
      [35, 34] ++ 24 :: Sample.shadow.tree.ancestors 24 := by
    rw [Tree.ancestors_of_parent? (p := 35) (by decide +kernel),
      Tree.chain_of_parent? (p := 34) (by decide +kernel),
      Tree.chain_of_parent? (p := 24) (by decide +kernel), Tree.chain_eq_cons]
    rfl
  have hinner : ∀ k ∈ [35, 34], ¬Sample.shadow.Binds "x" k := by
    simp only [← Source.boundBy?_isSome_iff]
    decide +kernel
  have hscope : Sample.shadow.Binds "x" 24 :=
    Source.boundBy?_isSome_iff.1 (by decide +kernel)
  obtain ⟨hbound, -⟩ := referent_innermost hid hn
  rw [hname] at hbound
  obtain ⟨q, kind, hbinder, hfound⟩ := hbound [35, 34] 24 _ hancestors hinner hscope
  refine ⟨hid, hn, hancestors, hinner, hscope, ?_⟩
  have hlet : Sample.shadow.tree.kind 24 = "let_in_expr" := by decide +kernel
  have hchildren : Sample.shadow.tree.childrenOf ["value_declaration"] 24 = [26] := by
    decide +kernel
  have hdeclares : Sample.shadow.DeclaresFunction "x" 24 26 :=
    ⟨by rw [hchildren]; decide, by decide +kernel⟩
  cases hbinder with
  | parameter hk | anonymousParameter hk | branch hk =>
    exact absurd (hlet.symm.trans hk) (by decide)
  | function _ hd =>
    have hmem := hd.1.1
    rw [hchildren, List.mem_singleton] at hmem
    exact hmem ▸ hfound
  | destructured _ hnone => exact absurd hdeclares (hnone 26)

end Workspace
end ElmScope
