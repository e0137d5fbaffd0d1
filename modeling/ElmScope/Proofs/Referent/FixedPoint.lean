import ElmScope.Proofs.Referent.Origin
import ElmScope.Proofs.Referent.Shape
/-!
# Names refer to what they name

The name of a definition stands in the definition itself, and there the search for what a node
refers to takes another way for each kind of definition: a name on the left side of a function
leads to the parent, a field to its field type, the name of a type to its declaration, a port or an
operator through the declarations of the file, a type variable through the owner of the type, and a
name in a pattern through the scopes around it. All of them lead back (`Definition.Settled`), in
every workspace and whatever a checker answers. So what a node refers to is a fixed point.

* `step_of_pattern` — what a name in a pattern refers to
* `Source.Yields.settled` — every definition but a module is settled
* `referent_nameNode` — the name of what a node refers to refers to the same
-/
namespace ElmScope

/-- Whether the name of a definition refers to the definition. -/
def Definition.Settled (d : Definition) : Prop :=
  ∃ m, d.nameNode? = some m ∧
    ∀ (w : Workspace) (c : Checker), (w.step c d.source m).found = some d

variable {w : Workspace} {c : Checker} {s : Source} {name role kind : String}
  {namesp : Namespace} {d : Definition} {k : DefinitionKind} {m n p q scope : Nat}

/-! ## From a name to its identifier -/

namespace Workspace

theorem identifierOf?_self (hk : s.tree.kind n ∉
      ["value_expr", "value_qid", "upper_case_qid", "operator", "lower_pattern"]) :
    identifierOf? s.tree n = some n := by
  rw [List.mem_cons, not_or] at hk
  rw [identifierOf?, if_neg hk.1, if_neg (by simpa using hk.2)]

theorem step_found (h : identifierOf? s.tree n = some m) :
    (w.step c s n).found = (w.identifierReferent c s m).found := by
  simp only [step, h, Search.found_orReport]

theorem step_of_lower (hm : s.tree.kind m = "lower_case_identifier") :
    (w.step c s m).found = (w.lowerCaseReferent c s m).found := by
  rw [step_found (identifierOf?_self (by simp [hm])), identifierReferent, hm]
  rfl

theorem step_of_function (hm : s.tree.kind m = "lower_case_identifier")
    (hp : s.tree.parent? m = some p) (hk : s.tree.kind p = "function_declaration_left")
    (hlead : (s.tree.namedChildren p).head? = some m) :
    (w.step c s m).found = (s.tree.parent? p).map fun n => ⟨n, s, .function⟩ := by
  rw [step_of_lower hm, lowerCaseReferent, hp, Search.found_bind_some]
  simp [hk, leads, hlead]

theorem step_of_field (hm : s.tree.kind m = "lower_case_identifier")
    (hp : s.tree.parent? m = some p) (hk : s.tree.kind p = "field_type") :
    (w.step c s m).found = some ⟨p, s, .fieldType⟩ := by
  rw [step_of_lower hm, lowerCaseReferent, hp, Search.found_bind_some]
  simp [hk]

/-- The name of an annotation is sought at the top level, wherever the annotation stands. -/
theorem step_of_annotationName (hm : s.tree.kind m = "lower_case_identifier")
    (hp : s.tree.parent? m = some p)
    (hk : s.tree.kind p = "type_annotation" ∨ s.tree.kind p = "port_annotation") :
    (w.step c s m).found = s.declared? (s.textOf m) .value := by
  rw [step_of_lower hm, lowerCaseReferent, hp, Search.found_bind_some]
  rcases hk with hk | hk <;> simp [hk]

theorem step_of_upper (hm : s.tree.kind m = "upper_case_identifier")
    (hd : namedDeclaration? s m = some d) : (w.step c s m).found = some d := by
  rw [step_found (identifierOf?_self (by simp [hm])), identifierReferent, hm]
  simp [hd]

theorem step_of_operator (hm : s.tree.kind m = "operator_identifier") :
    (w.step c s m).found = w.lookup? s (.unqualified (s.textOf m) .value) := by
  rw [step_found (identifierOf?_self (by simp [hm])), identifierReferent, hm]
  simp [lookup]

theorem step_of_typeName (hm : s.tree.kind m = "lower_type_name") :
    (w.step c s m).found = s.variableDeclaration? m := by
  rw [step_found (identifierOf?_self (by simp [hm])), identifierReferent, hm]
  rfl

theorem lookup?_of_declared? (hd : s.declared? name .value = some d) :
    w.lookup? s (.unqualified name .value) = some d := by
  simp [lookup?, Reference.unqualified, lookupUnqualified?, hd]

/-- What a plain name refers to: what the scopes around it bind, from the inside out, and otherwise
what the name means in the file. -/
theorem plainReferent_found_of
    (hr : (if s.tree.kind m = "record_base_identifier" then
        some (Reference.unqualified (s.textOf m) .value) else Reference.ofNode? s m) =
      some (.unqualified name .value)) :
    (w.plainReferent s m).found =
      (s.bindingAround? name m).or (w.lookup? s (.unqualified name .value)) := by
  simp only [plainReferent, hr]
  rw [Search.found_bind_some]
  simp only [Reference.unqualified, Option.isNone_none, if_true]
  split
  · next d hd => rw [hd, Option.some_or, Search.found_pure]
  · next hd => rw [hd, Option.none_or, lookup, Search.found_orReport, Search.found_ofOption]

theorem plainReferent_found (hm : s.tree.kind m = "lower_case_identifier")
    (hr : Reference.ofNode? s m = some (.unqualified name .value)) :
    (w.plainReferent s m).found =
      (s.bindingAround? name m).or (w.lookup? s (.unqualified name .value)) :=
  plainReferent_found_of (by rw [if_neg (by simp [hm]), hr])

/-- What a name in a pattern refers to: what the scopes around the pattern bind, from the inside
out, and otherwise what the name means in the file. -/
theorem step_of_pattern (h : s.Shaped) (hq : s.tree.kind q = "lower_pattern") :
    (w.step c s q).found = ((s.tree.chain q).findSome? (s.boundBy? (s.textOf q))).or
      (w.lookup? s (.unqualified (s.textOf q) .value)) := by
  obtain ⟨m, hchildren, hparent, hm, htext⟩ := h.identifier_of_pattern hq
  have hid : identifierOf? s.tree q = some m := by
    simp [identifierOf?, hq, hchildren, hm, Reference.identifierKinds]
  have hreference : Reference.ofNode? s m = some (.unqualified (s.textOf q) .value) := by
    simp [Reference.ofNode?, Reference.identifier?, hm, hq, hparent, htext, Reference.plain,
      Reference.identifierKinds, Reference.pathKinds, Option.filter_some]
  have haround : s.bindingAround? (s.textOf q) m =
      (s.tree.chain q).findSome? (s.boundBy? (s.textOf q)) := by
    rw [Source.bindingAround?, Tree.ancestors_of_parent? hparent]
  rw [step_found hid, identifierReferent, hm, ← haround, ← plainReferent_found hm hreference]
  change (w.lowerCaseReferent c s m).found = _
  rw [lowerCaseReferent, hparent, Search.found_bind_some]
  simp [hq]

end Workspace

/-! ## Definitions that are settled -/

namespace Source

open Workspace

theorem Shaped.exists_name (h : s.Shaped) (hpart : namePart? (s.tree.kind n) = some (role, kind))
    (hne : s.tree.kind n ≠ "") :
    ∃ m, s.tree.child? role n = some m ∧ s.tree.parent? m = some n ∧ s.tree.kind m = kind := by
  have hname := h.names n (Tree.lt_size_of_kind rfl hne) _ hpart
  obtain ⟨m, hm, hkind⟩ := Option.map_eq_some_iff.1 hname
  exact ⟨m, hm, h.regular.parent?_of_child? hm, hkind⟩

theorem settled_function (h : s.Shaped) (hname : (s.functionName? n).map s.textOf = some name) :
    Definition.Settled ⟨n, s, .function⟩ := by
  obtain ⟨m, hm, -⟩ := Option.map_eq_some_iff.1 hname
  obtain ⟨l, hml, hln, hkind, hm', hlead⟩ := h.leads_of_functionName? hm
  refine ⟨m, by simp [Definition.nameNode?, hm], fun w c => ?_⟩
  rw [step_of_function hm' hml hkind hlead, hln, Option.map_some]

theorem settled_field (h : s.Shaped) (hk : s.tree.kind n = "field_type") :
    Definition.Settled ⟨n, s, .fieldType⟩ := by
  obtain ⟨m, hm, hp, hkind⟩ := h.exists_name (n := n) (by rw [hk]; rfl) (by simp [hk])
  exact ⟨m, hm, fun w c => step_of_field hkind hp hk⟩

theorem settled_named (h : s.Shaped) (hk : (s.tree.kind n, k) ∈ namedKinds) :
    Definition.Settled ⟨n, s, k⟩ := by
  simp only [namedKinds, List.mem_cons, Prod.mk.injEq, List.not_mem_nil, or_false] at hk
  rcases hk with ⟨hk, rfl⟩ | ⟨hk, rfl⟩ | ⟨hk, rfl⟩
  all_goals
    obtain ⟨m, hm, hp, hkind⟩ := h.exists_name (n := n) (by rw [hk]; rfl) (by simp [hk])
    refine ⟨m, hm, fun w c => step_of_upper hkind ?_⟩
    rw [namedDeclaration?, hp, Option.bind_some]
    simp only [hk]

theorem settled_port (h : s.Shaped) (hk : s.tree.kind n = "port_annotation")
    (hname : s.declaredName? n = some name)
    (hd : s.declared? name .value = some ⟨n, s, .port⟩) : Definition.Settled ⟨n, s, .port⟩ := by
  obtain ⟨m, hm, hp, hkind⟩ := h.exists_name (n := n) (by rw [hk]; rfl) (by simp [hk])
  obtain rfl : s.textOf m = name := by simpa [declaredName?, hm] using hname
  exact ⟨m, hm, fun w c => (step_of_annotationName hkind hp (.inr hk)).trans hd⟩

theorem settled_operator (h : s.Shaped) (hk : s.tree.kind n = "infix_declaration")
    (hname : s.operatorName? n = some name)
    (hd : s.declared? name .value = some ⟨n, s, .operator⟩) :
    Definition.Settled ⟨n, s, .operator⟩ := by
  obtain ⟨m, hm, -, hkind⟩ := h.exists_name (n := n) (by rw [hk]; rfl) (by simp [hk])
  obtain rfl : s.textOf m = name := by simpa [operatorName?, hm] using hname
  exact ⟨m, hm, fun w c => (step_of_operator hkind).trans (lookup?_of_declared? hd)⟩

theorem settled_variable (h : s.Shaped) (hd : s.variableDeclaration? n = some d) : d.Settled := by
  obtain ⟨owner, howner, hmap⟩ := Option.bind_eq_some_iff.1 hd
  obtain ⟨v, hv, rfl⟩ := Option.map_eq_some_iff.1 hmap
  have hmem := List.mem_filter.1 (List.mem_of_find?_eq_some hv)
  have hkind : s.tree.kind v = "lower_type_name" := by simpa using hmem.2
  have htext : s.textOf v = s.textOf n := by simpa using List.find?_some hv
  have henclosing : ∀ kind, s.tree.enclosing? kind n true = some owner →
      s.tree.kind owner = kind ∧ owner ∈ s.tree.children Tree.root := by
    intro kind hfound
    have := List.find?_some hfound
    simp only [Bool.not_true, Bool.false_or, Bool.and_eq_true, decide_eq_true_eq] at this
    exact ⟨this.1, h.regular.isTopLevel_iff.1 this.2⟩
  -- The variable stands below the owner, and only one node on a chain is at the top level: seen
  -- from the declaration of the variable, the owner is the same.
  have hsame : (s.tree.enclosing? "type_alias_declaration" v true).or
      (s.tree.enclosing? "type_declaration" v true) = some owner := by
    rcases Option.or_eq_some_iff.1 howner with hfound | ⟨-, hfound⟩
    · obtain ⟨hk, htop⟩ := henclosing _ hfound
      rw [h.regular.enclosing?_of_mem_below htop hmem.1, if_pos hk, Option.some_or]
    · obtain ⟨hk, htop⟩ := henclosing _ hfound
      rw [h.regular.enclosing?_of_mem_below htop hmem.1,
        h.regular.enclosing?_of_mem_below htop hmem.1, if_neg (by simp [hk]), if_pos hk,
        Option.none_or]
  refine ⟨v, rfl, fun w c => (step_of_typeName hkind).trans ?_⟩
  rw [variableDeclaration?, hsame, Option.bind_some, htext, hv, Option.map_some]

/-! ## Names in patterns -/

theorem settled_pattern (h : s.Shaped) (hq : s.tree.kind q = "lower_pattern")
    (hk : k ∈ [.function, .functionParameter, .anonymousFunctionParameter, .casePattern])
    (hd : ∀ w : Workspace, ((s.tree.chain q).findSome? (s.boundBy? (s.textOf q))).or
      (w.lookup? s (.unqualified (s.textOf q) .value)) = some ⟨q, s, k⟩) :
    Definition.Settled ⟨q, s, k⟩ := by
  refine ⟨q, ?_, fun w c => (step_of_pattern h hq).trans (hd w)⟩
  simp only [List.mem_cons, List.not_mem_nil, or_false] at hk
  rcases hk with rfl | rfl | rfl | rfl
  · simp [Definition.nameNode?, h.functionName?_of_pattern hq]
  all_goals rfl

/-- A name that a declaration binds by its pattern means what it means in the scope of the
declaration. -/
theorem settled_destructured (h : s.Shaped) (hq : s.Destructured scope name q)
    (hd : ∀ w : Workspace, ((s.tree.chain scope).findSome? (s.boundBy? name)).or
      (w.lookup? s (.unqualified name .value)) = some ⟨q, s, .function⟩) :
    Definition.Settled ⟨q, s, .function⟩ := by
  have hchain := h.findSome?_chain_of_destructured hq
  obtain ⟨-, -, -, -, -, hkind, rfl⟩ := hq
  refine settled_pattern h hkind (by simp) fun w => ?_
  rw [hchain, hd w]

theorem findSome?_chain_self (hd : s.boundBy? name scope = some d) :
    (s.tree.chain scope).findSome? (s.boundBy? name) = some d := by
  rw [Tree.chain_eq_cons, List.findSome?_cons, hd]

theorem settled_of_boundBy? (h : s.Shaped) (hd : s.boundBy? name scope = some d) : d.Settled := by
  have hself := findSome?_chain_self hd
  obtain ⟨rfl, hcases⟩ := boundBy?_cases hd
  obtain ⟨q, s, k⟩ := d
  rcases hcases with ⟨rfl, hvalue⟩ | ⟨hk, p, hp, hbind⟩
  · rcases valueNamed?_cases hvalue with ⟨-, hname⟩ | hq
    · exact settled_function h hname
    · refine settled_destructured h hq fun w => ?_
      rw [hself, Option.some_or]
  · obtain ⟨hq, hkind, rfl⟩ := bindingIn?_cases hbind
    refine settled_pattern h hkind (List.mem_cons_of_mem _ hk) fun w => ?_
    rw [h.findSome?_chain_of_pattern hp hq, hself, Option.some_or]

/-! ## Declarations of the top level -/

theorem declared?_of_mem_declarations (hu : s.Distinct)
    (hd : (name, d) ∈ s.declarations .value) : s.declared? name .value = some d := by
  obtain ⟨hnodup, -, hdisjoint⟩ := List.nodup_append.1 hu
  have hname : name ∈ (s.declarations .value).map (·.1) := List.mem_map_of_mem hd
  rw [declared?_eq_find?_of_undestructured, (find?_eq_some_iff_of_nodup hnodup).2 ⟨hd, rfl⟩]
  · rfl
  · intro _ n hn
    by_contra hne
    obtain ⟨q, hq⟩ := Option.ne_none_iff_exists'.1 hne
    obtain ⟨p, hp, hq⟩ := Option.bind_eq_some_iff.1 hq
    refine hdisjoint name hname name ?_ rfl
    refine List.mem_flatMap.2 ⟨n, hn, List.mem_map.2 ⟨q, ?_, (bindingBelow?_cases hq).2.2⟩⟩
    exact List.mem_flatMap.2 ⟨p, Option.mem_toList.2 hp, List.mem_of_find?_eq_some hq⟩

theorem settled_of_mem_declarations (h : s.Shaped) (hu : s.Distinct)
    (hd : (name, d) ∈ s.declarations namesp) : d.Settled := by
  obtain rfl := source_eq_of_mem_declarations hd
  obtain ⟨n, s, k⟩ := d
  have hkind : ∀ {kind scope}, n ∈ s.tree.childrenOf [kind] scope → s.tree.kind n = kind :=
    fun hn => by simpa using (List.mem_filter.1 hn).2
  have hnamed : ∀ {kind scope}, (kind, k) ∈ namedKinds → n ∈ s.tree.childrenOf [kind] scope →
      Definition.Settled ⟨n, s, k⟩ :=
    fun hk hn => settled_named h (hkind hn ▸ hk)
  cases namesp with
  | module => exact absurd hd List.not_mem_nil
  | value =>
    have hdeclared := declared?_of_mem_declarations hu hd
    simp only [declarations, List.mem_append, mem_named_iff] at hd
    rcases hd with (⟨-, rfl, -, hname⟩ | ⟨-, rfl, hn, hname⟩) | ⟨-, rfl, hn, hname⟩
    · exact settled_function h hname
    · exact settled_port h (hkind hn) hname hdeclared
    · exact settled_operator h (hkind hn) hname hdeclared
  | type =>
    simp only [declarations, List.mem_append, mem_named_iff] at hd
    rcases hd with ⟨-, rfl, hn, -⟩ | ⟨-, rfl, hn, -⟩ <;> exact hnamed (by decide) hn
  | constructor =>
    simp only [declarations, List.mem_append, mem_named_iff, List.mem_flatMap] at hd
    rcases hd with ⟨-, rfl, ⟨owner, -, hn⟩, -⟩ | ⟨-, rfl, hn, -⟩ <;> exact hnamed (by decide) hn

theorem settled_of_declared? (h : s.Shaped) (hu : s.Distinct)
    (hd : s.declared? name namesp = some d) : d.Settled := by
  rcases declared?_cases hd with hmem | ⟨rfl, rfl, hk, hq⟩
  · exact settled_of_mem_declarations h hu hmem
  · obtain ⟨q, s, k⟩ := d
    obtain rfl := hk
    have hnone : s.boundBy? name Tree.root = none :=
      Shaped.boundBy?_of_kind (by simp [h.root, scopeKinds]) name
    refine settled_destructured h hq fun w => ?_
    rw [Tree.chain_root, List.findSome?_cons, hnone, List.findSome?_nil, Option.none_or]
    exact lookup?_of_declared? hd

/-- **Every definition but a module is settled.** -/
theorem Yields.settled (h : s.Shaped) (hu : s.Distinct) (hd : s.Yields d) (hk : d.kind ≠ .module) :
    d.Settled := by
  cases hd with
  | bound hd => exact settled_of_boundBy? h hd
  | declared hd => exact settled_of_declared? h hu hd
  | offered hd => exact settled_of_mem_declarations h hu (offered?_admitted hd).1
  | named hd =>
    obtain ⟨rfl, hkind⟩ := namedDeclaration?_cases hd
    exact settled_named h hkind
  | @function l n hl hn =>
    obtain ⟨m, hm⟩ := h.exists_functionName? hl hn
    exact settled_function h (congrArg (Option.map s.textOf) hm)
  | typeVariable hd => exact settled_variable h hd
  | field hf => exact settled_field h hf
  | module => exact absurd rfl hk

end Source

namespace Sample

def shadowNodes : Array TreeNode :=
  #[ ⟨"file", true, none, 0, 59, none⟩,
     ⟨"value_declaration", true, none, 0, 58, some 0⟩,
     ⟨"function_declaration_left", true, some "functionDeclarationLeft", 0, 8, some 1⟩,
     ⟨"lower_case_identifier", true, none, 0, 6, some 2⟩,
     ⟨"lower_pattern", true, some "pattern", 7, 8, some 2⟩,
     ⟨"lower_case_identifier", true, none, 7, 8, some 4⟩,
     ⟨"eq", true, none, 9, 10, some 1⟩,
     ⟨"anonymous_function_expr", true, some "body", 15, 58, some 1⟩,
     ⟨"backslash", true, none, 15, 16, some 7⟩,
     ⟨"pattern", true, some "param", 16, 17, some 7⟩,
     ⟨"lower_pattern", true, some "child", 16, 17, some 9⟩,
     ⟨"lower_case_identifier", true, none, 16, 17, some 10⟩,
     ⟨"arrow", true, none, 18, 20, some 7⟩,
     ⟨"case_of_expr", true, some "expr", 21, 58, some 7⟩,
     ⟨"case", true, none, 21, 25, some 13⟩,
     ⟨"value_expr", true, some "expr", 26, 27, some 13⟩,
     ⟨"value_qid", true, some "name", 26, 27, some 15⟩,
     ⟨"lower_case_identifier", true, none, 26, 27, some 16⟩,
     ⟨"of", true, none, 28, 30, some 13⟩,
     ⟨"case_of_branch", true, some "branch", 39, 58, some 13⟩,
     ⟨"pattern", true, some "pattern", 39, 40, some 19⟩,
     ⟨"lower_pattern", true, some "child", 39, 40, some 20⟩,
     ⟨"lower_case_identifier", true, none, 39, 40, some 21⟩,
     ⟨"arrow", true, none, 41, 43, some 19⟩,
     ⟨"let_in_expr", true, some "expr", 44, 58, some 19⟩,
     ⟨"let", false, none, 44, 47, some 24⟩,
     ⟨"value_declaration", true, some "valueDeclaration", 48, 53, some 24⟩,
     ⟨"function_declaration_left", true, some "functionDeclarationLeft", 48, 49, some 26⟩,
     ⟨"lower_case_identifier", true, none, 48, 49, some 27⟩,
     ⟨"eq", true, none, 50, 51, some 26⟩,
     ⟨"value_expr", true, some "body", 52, 53, some 26⟩,
     ⟨"value_qid", true, some "name", 52, 53, some 30⟩,
     ⟨"lower_case_identifier", true, none, 52, 53, some 31⟩,
     ⟨"in", false, none, 54, 56, some 24⟩,
     ⟨"value_expr", true, some "body", 57, 58, some 24⟩,
     ⟨"value_qid", true, some "name", 57, 58, some 34⟩,
     ⟨"lower_case_identifier", true, none, 57, 58, some 35⟩ ]

/-- Four scopes, each inside the one before, bind one name. -/
def shadow : Source where
  file := ⟨"file:///src/Shadow.elm"⟩
  text := "shadow x =\n    \\x -> case x of\n        x -> let x = x in x\n".toList
  tree := ⟨shadowNodes, Tree.subtreeEnds shadowNodes, [], by decide +kernel⟩
  writeable := true
  isDraft := false

theorem shaped_shadow : shadow.Shaped where
  regular := by decide
  root := by decide +kernel
  names := by decide +kernel
  lefts := by decide +kernel
  functions := by decide +kernel
  identifiers := by decide +kernel
  destructured := by decide +kernel
  scopeless := by decide +kernel

theorem distinct_shadow : shadow.Distinct := by decide +kernel

theorem ofNode?_shadow : Reference.ofNode? shadow 17 = some (.unqualified "x" .value) := by
  decide +kernel

/-- The subject of the `case` is bound by the function right around it. -/
theorem bindingAround?_shadow :
    shadow.bindingAround? "x" 17 = some ⟨10, shadow, .anonymousFunctionParameter⟩ := by
  have hchain : shadow.tree.ancestors 17 = [16, 15, 13] ++ shadow.tree.chain 7 := by
    rw [Tree.ancestors_of_parent? (p := 16) (by decide +kernel),
      Tree.chain_of_parent? (p := 15) (by decide +kernel),
      Tree.chain_of_parent? (p := 13) (by decide +kernel),
      Tree.chain_of_parent? (p := 7) (by decide +kernel)]
    rfl
  have hnone : [16, 15, 13].findSome? (shadow.boundBy? "x") = none := by decide +kernel
  have hbound : shadow.boundBy? "x" 7 = some ⟨10, shadow, .anonymousFunctionParameter⟩ := by
    decide +kernel
  rw [Source.bindingAround?, hchain, List.findSome?_append, hnone,
    Source.findSome?_chain_self hbound, Option.none_or]

/-- The workspace of that file. -/
def shadowed : Workspace := (∅ : Workspace).install shadow false

theorem eq_shadow_of_source? {f : FileId} {t : Source} (h : shadowed.source? f = some t) :
    t = shadow := by
  by_cases hf : f = shadow.file
  · rw [shadowed, hf, Workspace.source?_install_self] at h
    exact (Option.some.inj h).symm
  · rw [shadowed, Workspace.source?_install_of_ne hf] at h
    exact nomatch h

end Sample

namespace Workspace

/-- **The name of what a node refers to refers to the same.** In a workspace of files whose trees
are shaped by the grammar and whose top levels bind no value twice, whatever a node refers to,
unless it is a module, has a name in its own source, and there the name refers to the same node as
the same kind of definition. -/
theorem referent_nameNode (w : Workspace) {s : Source} {n : Nat} {d : Definition}
    (hw : ∀ f t, w.source? f = some t → t.Shaped ∧ t.Distinct) (hs : s.Shaped ∧ s.Distinct)
    (h : (w.referent s n).found = some d) (hk : d.kind ≠ .module) :
    ∃ m, d.nameNode? = some m ∧ (w.referent d.source m).found = some d := by
  obtain ⟨t, ⟨hshaped, hdistinct⟩, hd⟩ := referent_sound hw s hs n d h
  obtain ⟨m, hm, hsettled⟩ := hd.settled hshaped hdistinct hk
  exact ⟨m, hm, hsettled w _⟩

/-- The subject of the `case` is what the function around it binds. -/
theorem referent_nameNode_shadow :
    let d : Definition := ⟨10, Sample.shadow, .anonymousFunctionParameter⟩
    (∀ f t, Sample.shadowed.source? f = some t → t.Shaped ∧ t.Distinct) ∧
      (Sample.shadowed.referent Sample.shadow 17).found = some d ∧
      ∃ m, d.nameNode? = some m ∧ (Sample.shadowed.referent Sample.shadow m).found = some d := by
  intro d
  have hs : Sample.shadow.Shaped ∧ Sample.shadow.Distinct :=
    ⟨Sample.shaped_shadow, Sample.distinct_shadow⟩
  have hw : ∀ f t, Sample.shadowed.source? f = some t → t.Shaped ∧ t.Distinct :=
    fun f t ht => Sample.eq_shadow_of_source? ht ▸ hs
  have hm : Sample.shadow.tree.kind 17 = "lower_case_identifier" := rfl
  have hp : Sample.shadow.tree.parent? 17 = some 16 := rfl
  have hk : Sample.shadow.tree.kind 16 = "value_qid" := rfl
  have h : (Sample.shadowed.referent Sample.shadow 17).found = some d := by
    change (Sample.shadowed.step _ _ _).found = _
    rw [step_of_lower hm, lowerCaseReferent, hp, Search.found_bind_some]
    simp [hk, plainReferent_found hm Sample.ofNode?_shadow, Sample.bindingAround?_shadow, d]
  exact ⟨hw, h, referent_nameNode Sample.shadowed hw hs h (by decide)⟩

end Workspace
end ElmScope
