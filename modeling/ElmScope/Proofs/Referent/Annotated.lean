import ElmScope.Proofs.Referent.FixedPoint
/-!
# Annotations and what they annotate

An annotation and its declaration are paired in two ways. From the declaration, the annotation is
the named sibling before it, in whatever scope the two stand. From the annotation, the declaration
is sought by its name, and at the top level only. So the two ways agree at the top level, and never
in a `let`, although there as well the scope knows the declaration by that name.

* `valueNamed?_of_declaresOnce` — a name that a scope declares once is its declaration's
* `referent_annotated` — the name of an annotation leads to the annotated declaration exactly at the
  top level
-/
namespace ElmScope
namespace Source

/-- The names that the declarations of a scope bind, by their left sides and by their patterns. -/
def namesIn (s : Source) (scope : Nat) : List String :=
  let declarations := s.tree.childrenOf ["value_declaration"] scope
  declarations.filterMap (fun d => (s.functionName? d).map s.textOf) ++
    declarations.flatMap fun d =>
      ((s.tree.child? "pattern" d).toList.flatMap (s.tree.descendants "lower_pattern")).map s.textOf

/-- Whether a scope declares no name twice. -/
def DeclaresOnce (s : Source) (scope : Nat) : Prop := (s.namesIn scope).Nodup

instance (s : Source) (scope : Nat) : Decidable (s.DeclaresOnce scope) :=
  inferInstanceAs (Decidable (List.Nodup _))

variable {s : Source} {name : String} {scope d : Nat}

/-- In a scope that declares no name twice, the name of a function is the function's. -/
theorem valueNamed?_of_declaresOnce (hu : s.DeclaresOnce scope)
    (hd : d ∈ s.tree.childrenOf ["value_declaration"] scope)
    (hname : (s.functionName? d).map s.textOf = some name) :
    s.valueNamed? scope name true = some d := by
  have hnodup : ((s.named (s.tree.childrenOf ["value_declaration"] scope)
      (fun n => (s.functionName? n).map s.textOf) .function).map (·.1)).Nodup := by
    rw [map_fst_named]
    exact (List.nodup_append.1 hu).1
  have hfirst := (find?_eq_some_iff_of_nodup (a := (name, ⟨d, s, .function⟩)) hnodup).2
    ⟨mem_named_iff.2 ⟨rfl, rfl, hd, hname⟩, rfl⟩
  rw [find?_named, Option.map_eq_some_iff] at hfirst
  obtain ⟨n, hn, heq⟩ := hfirst
  obtain rfl : n = d := congrArg (·.2.node) heq
  have htest : (fun k => (s.functionName? k).any fun m => decide (s.textOf m = name)) =
      fun k => decide ((s.functionName? k).map s.textOf = some name) := by
    funext k
    cases s.functionName? k <;> simp
  simp only [valueNamed?, if_true, htest, hn, Option.some_or]

/-- A function that the top level declares stands there. -/
theorem mem_children_root_of_declared? (hk : s.tree.kind d = "value_declaration")
    (h : s.declared? name .value = some ⟨d, s, .function⟩) : d ∈ s.tree.children Tree.root := by
  rcases declared?_cases h with hmem | ⟨-, -, -, -, -, -, -, -, hpattern, -⟩
  · simp only [declarations, List.mem_append, mem_named_iff] at hmem
    rcases hmem with (⟨-, -, hmem, -⟩ | ⟨-, hkind, -⟩) | ⟨-, hkind, -⟩
    · exact List.mem_of_mem_filter hmem
    · exact absurd hkind (by decide)
    · exact absurd hkind (by decide)
  · exact absurd (hk.symm.trans hpattern) (by decide)

end Source

namespace Workspace

variable {s : Source} {scope d a m : Nat}

/-- **The name of an annotation leads to the declaration it annotates, at the top level.** For a
function and the annotation right before it, of the same name, in a scope that declares no name
twice: the scope knows the function by that name, and the name in the annotation refers to the
function exactly if the scope is the top level. -/
theorem referent_annotated (w : Workspace) (hs : s.tree.Regular)
    (hd : d ∈ s.tree.childrenOf ["value_declaration"] scope) (hu : s.DeclaresOnce scope)
    (ha : s.annotationOf? d = some a) (hm : s.tree.child? "name" a = some m)
    (hk : s.tree.kind m = "lower_case_identifier")
    (hname : (s.functionName? d).map s.textOf = some (s.textOf m)) :
    s.valueNamed? scope (s.textOf m) true = some d ∧
      ((w.referent s m).found = some ⟨d, s, .function⟩ ↔ scope = Tree.root) := by
  have hvalue := Source.valueNamed?_of_declaresOnce hu hd hname
  have hak : s.tree.kind a = "type_annotation" := by
    simpa using (Option.filter_eq_some_iff.1 ha).2
  have hfound : (w.referent s m).found = s.declared? (s.textOf m) .value :=
    step_of_annotationName hk (hs.parent?_of_child? hm) (.inl hak)
  obtain ⟨hchild, hdk⟩ := List.mem_filter.1 hd
  refine ⟨hvalue, fun h => ?_, ?_⟩
  · have htop := Source.mem_children_root_of_declared? (by simpa using hdk) (hfound.symm.trans h)
    exact Option.some.inj <| (Tree.shapeParent?_of_mem_children hchild).symm.trans
      (Tree.shapeParent?_of_mem_children htop)
  · rintro rfl
    rw [hfound, Source.declared?, hvalue, Option.map_some, Option.some_or]

end Workspace

namespace Sample

def totalNodes : Array TreeNode :=
  #[ ⟨"file", true, none, 0, 92, none⟩,
     ⟨"type_annotation", true, none, 0, 11, some 0⟩,
     ⟨"lower_case_identifier", true, some "name", 0, 5, some 1⟩,
     ⟨"colon", true, none, 6, 7, some 1⟩,
     ⟨"type_expression", true, some "typeExpression", 8, 11, some 1⟩,
     ⟨"type_ref", true, some "part", 8, 11, some 4⟩,
     ⟨"upper_case_qid", true, none, 8, 11, some 5⟩,
     ⟨"upper_case_identifier", true, none, 8, 11, some 6⟩,
     ⟨"value_declaration", true, none, 12, 91, some 0⟩,
     ⟨"function_declaration_left", true, some "functionDeclarationLeft", 12, 17, some 8⟩,
     ⟨"lower_case_identifier", true, none, 12, 17, some 9⟩,
     ⟨"eq", true, none, 18, 19, some 8⟩,
     ⟨"let_in_expr", true, some "body", 24, 91, some 8⟩,
     ⟨"let", false, none, 24, 27, some 12⟩,
     ⟨"type_annotation", true, none, 36, 46, some 12⟩,
     ⟨"lower_case_identifier", true, some "name", 36, 40, some 14⟩,
     ⟨"colon", true, none, 41, 42, some 14⟩,
     ⟨"type_expression", true, some "typeExpression", 43, 46, some 14⟩,
     ⟨"type_ref", true, some "part", 43, 46, some 17⟩,
     ⟨"upper_case_qid", true, none, 43, 46, some 18⟩,
     ⟨"upper_case_identifier", true, none, 43, 46, some 19⟩,
     ⟨"value_declaration", true, some "valueDeclaration", 55, 75, some 12⟩,
     ⟨"function_declaration_left", true, some "functionDeclarationLeft", 55, 59, some 21⟩,
     ⟨"lower_case_identifier", true, none, 55, 59, some 22⟩,
     ⟨"eq", true, none, 60, 61, some 21⟩,
     ⟨"number_constant_expr", true, some "body", 74, 75, some 21⟩,
     ⟨"number_literal", true, none, 74, 75, some 25⟩,
     ⟨"in", false, none, 80, 82, some 12⟩,
     ⟨"value_expr", true, some "body", 87, 91, some 12⟩,
     ⟨"value_qid", true, some "name", 87, 91, some 28⟩,
     ⟨"lower_case_identifier", true, none, 87, 91, some 29⟩ ]

/-- A function and one in its `let`, each with its annotation. -/
def total : Source where
  file := ⟨"file:///src/Total.elm"⟩
  text := ("total : Int\ntotal =\n    let\n        part : Int\n        part =\n" ++
    "            1\n    in\n    part\n").toList
  tree := ⟨totalNodes, Tree.subtreeEnds totalNodes, [], by decide +kernel⟩
  writeable := true
  isDraft := false

end Sample

namespace Workspace

/-- The annotation of the outer function leads to it. -/
theorem referent_annotated_total :
    let s := Sample.total
    let w := run [.install s false]
    s.tree.Regular ∧ 8 ∈ s.tree.childrenOf ["value_declaration"] Tree.root ∧
      s.DeclaresOnce Tree.root ∧ s.annotationOf? 8 = some 1 ∧ s.tree.child? "name" 1 = some 2 ∧
      s.tree.kind 2 = "lower_case_identifier" ∧
      (s.functionName? 8).map s.textOf = some (s.textOf 2) ∧
      (w.referent s 2).found = some ⟨8, s, .function⟩ := by
  intro s w
  have hs : s.tree.Regular := by decide
  have hd : 8 ∈ s.tree.childrenOf ["value_declaration"] Tree.root := by decide +kernel
  have hu : s.DeclaresOnce Tree.root := by decide +kernel
  have ha : s.annotationOf? 8 = some 1 := by decide +kernel
  have hm : s.tree.child? "name" 1 = some 2 := by decide +kernel
  have hk : s.tree.kind 2 = "lower_case_identifier" := by decide +kernel
  have hname : (s.functionName? 8).map s.textOf = some (s.textOf 2) := by decide +kernel
  exact ⟨hs, hd, hu, ha, hm, hk, hname,
    (referent_annotated w hs hd hu ha hm hk hname).2.2 rfl⟩

/-- The annotation of the inner function leads nowhere. -/
theorem not_forall_referent_annotated :
    ¬∀ (w : Workspace) (s : Source) (scope d a m : Nat), w.source? s.file = some s →
      s.tree.Regular → (∀ n < s.tree.size, s.DeclaresOnce n) →
      s.tree.kind scope ∈ ["file", "let_in_expr"] →
      d ∈ s.tree.childrenOf ["value_declaration"] scope → s.annotationOf? d = some a →
      s.tree.child? "name" a = some m → s.tree.kind m = "lower_case_identifier" →
      (s.functionName? d).map s.textOf = some (s.textOf m) →
        (w.referent s m).found = some ⟨d, s, .function⟩ := by
  intro hall
  let s := Sample.total
  let w := run [.install s false]
  have hfound : (w.referent s 15).found = some ⟨21, s, .function⟩ :=
    hall w s 12 21 14 15 source?_install_self (by decide) (by decide +kernel) (by decide +kernel)
      (by decide +kernel) (by decide +kernel) (by decide +kernel) (by decide +kernel)
      (by decide +kernel)
  have hdeclared : (w.referent s 15).found = s.declared? (s.textOf 15) .value :=
    step_of_annotationName (p := 14) (by decide +kernel) (by decide +kernel)
      (.inl (by decide +kernel))
  have hnone : (s.declared? (s.textOf 15) .value).isNone := by decide +kernel
  rw [← hdeclared, hfound] at hnone
  exact nomatch hnone

end Workspace
end ElmScope
