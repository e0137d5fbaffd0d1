import ElmScope.Proofs.Reference.Path
/-!
# The uses of a constructor

The uses of a constructor are collected without references: they are the upper-case paths that end
in its name, those excluded that stand in a reference to a type, in the declaration of a module or
in an import. A reference comes to its namespace by the analysis of the path. Where the upper-case
paths are identifiers with single dots between them, the two agree on every path.

* `mem_constructorUses_iff` — what a use of a constructor is
* `ofNode?_constructor_iff` — when a path refers to a constructor
* `constructorUses_references` — the uses are the references to the constructor
-/
namespace ElmScope
namespace Reference

/-- Whether every upper-case path below the root holds nothing, or upper-case identifiers with
single dots between them. -/
def UpperPaths (t : Tree) : Prop :=
  ∀ q ∈ t.below Tree.root, t.kind q = "upper_case_qid" → t.children q = [] ∨
    ∃ names, DottedPath t q names ∧ ∀ n ∈ names, t.kind n = "upper_case_identifier"

variable {t : Tree} {s : Source} {name : String} {q last : Nat} {before names : List Nat}

theorem namesTypeOrModule_iff :
    s.namesTypeOrModule q = true ↔ NamesType s.tree q ∨ NamesModule s.tree q := by
  cases hp : s.tree.parent? q <;> simp [Source.namesTypeOrModule, NamesType, NamesModule, hp]

/-- The identifiers of a path without lower-case ones. -/
theorem DottedPath.childrenOf_upper (h : DottedPath t q names)
    (hupper : ∀ n ∈ names, t.kind n = "upper_case_identifier") :
    t.childrenOf ["upper_case_identifier"] q = names := by
  have hfilter : t.childrenOf ["upper_case_identifier"] q =
      (segments t q).filter fun n => t.kind n = "upper_case_identifier" := by
    simp only [Tree.childrenOf, segments, List.filter_filter]
    refine List.filter_congr fun n _ => ?_
    by_cases hn : t.kind n = "upper_case_identifier" <;> simp [hn]
  rw [hfilter, segments_of_dotted h, List.filter_eq_self]
  simpa using hupper

theorem mem_constructorUses_iff : q ∈ s.constructorUses name ↔
    (q ∈ s.tree.below Tree.root ∧ s.tree.kind q = "upper_case_qid") ∧
      ¬(NamesType s.tree q ∨ NamesModule s.tree q) ∧
      ∃ n, (s.tree.childrenOf ["upper_case_identifier"] q).getLast? = some n ∧
        s.textOf n = name := by
  rw [← namesTypeOrModule_iff]
  simp only [Source.constructorUses, Tree.descendants, List.mem_filter, decide_eq_true_eq,
    Option.any_eq_true, Bool.not_eq_true', Bool.not_eq_true, and_assoc]

/-- The uses stand in document order, each one once. -/
theorem pairwise_constructorUses (s : Source) (name : String) :
    (s.constructorUses name).Pairwise (· < ·) :=
  (((Tree.pairwise_below _ _).filter _).filter _).filter _

/-! ## References to constructors -/

theorem ofNode?_of_children_nil (hq : s.tree.kind q = "upper_case_qid")
    (h : s.tree.children q = []) : ofNode? s q = none := by
  have hlast : lastSegment? s.tree q = none := by
    simp [lastSegment?, segments, Tree.childrenOf, h]
  simp [ofNode?, identifier?, hq, pathKinds, hlast]

/-- A path that ends in an upper-case identifier refers to a constructor unless it stands for a
type or a module. -/
theorem ofNode?_constructor_iff (h : DottedPath s.tree q (before ++ [last]))
    (hupper : s.tree.kind last = "upper_case_identifier") :
    (∃ r, ofNode? s q = some r ∧ r.namesp = .constructor ∧ r.name = name) ↔
      ¬(NamesType s.tree q ∨ NamesModule s.tree q) ∧ s.textOf last = name := by
  rw [h.ofNode?_whole, h.ofNode?_last, namespaceOf_upper hupper]
  by_cases hmodule : NamesModule s.tree q
  · simp [hmodule, unqualified]
  by_cases htype : NamesType s.tree q
  · simp [hmodule, htype]
  · simp [hmodule, htype]

/-- **The uses of a constructor are the references to it.** In every tree whose upper-case paths are
upper-case identifiers with single dots between them, the uses of a constructor are the upper-case
paths below the root that refer to a constructor of that name: all of them, in document order, each
one once. -/
theorem constructorUses_references (h : UpperPaths s.tree) :
    (s.constructorUses name).Pairwise (· < ·) ∧
      ∀ q, q ∈ s.constructorUses name ↔
        q ∈ s.tree.below Tree.root ∧ s.tree.kind q = "upper_case_qid" ∧
          ∃ r, ofNode? s q = some r ∧ r.namesp = .constructor ∧ r.name = name := by
  refine ⟨pairwise_constructorUses s name, fun q => ?_⟩
  rw [mem_constructorUses_iff, and_assoc]
  refine and_congr_right fun hq => and_congr_right fun hkind => ?_
  rcases h q hq hkind with hnil | ⟨names, hpath, hupper⟩
  · simp [ofNode?_of_children_nil hkind hnil, Tree.childrenOf, hnil]
  · obtain ⟨before, last, rfl⟩ := (List.eq_nil_or_concat' names).resolve_left hpath.nodes.ne_nil
    rw [hpath.childrenOf_upper hupper, ofNode?_constructor_iff hpath (hupper last (by simp))]
    simp

end Reference

namespace Sample

theorem dottedPaths_pad : Reference.DottedPath pad.tree 3 [4, 7] ∧
    Reference.DottedPath pad.tree 13 [14, 17, 20] where
  left := by
    have hchildren : pad.tree.children 3 = [4, 5, 7] := by decide +kernel
    refine ⟨by decide, ?_, by decide +kernel⟩
    rw [hchildren]
    exact .dot rfl (.inl rfl) (.last (.inl rfl))
  right := by
    have hchildren : pad.tree.children 13 = [14, 15, 17, 18, 20] := by decide +kernel
    refine ⟨by decide, ?_, by decide +kernel⟩
    rw [hchildren]
    exact .dot rfl (.inl rfl) (.dot rfl (.inl rfl) (.last (.inl rfl)))

theorem upperPaths_pad : Reference.UpperPaths pad.tree := by
  have hpaths : ∀ q ∈ pad.tree.below Tree.root, pad.tree.kind q = "upper_case_qid" →
      q = 3 ∨ q = 13 ∨ q = 26 := by decide +kernel
  intro q hq hkind
  rcases hpaths q hq hkind with rfl | rfl | rfl
  · exact .inr ⟨_, dottedPaths_pad.1, by decide⟩
  · exact .inr ⟨_, dottedPaths_pad.2, by decide⟩
  · exact .inr ⟨_, dottedPath_wide, by decide⟩

end Sample

namespace Reference

/-- The body of `pad` is a use of its constructor, and the type of `pad` is none of `Size`. -/
theorem constructorUses_references_pad :
    UpperPaths Sample.pad.tree ∧
      (∃ r, ofNode? Sample.pad 26 = some r ∧ r.namesp = .constructor ∧ r.name = "Wide") ∧
      ¬∃ r, ofNode? Sample.pad 13 = some r ∧ r.namesp = .constructor ∧ r.name = "Size" := by
  have h : UpperPaths Sample.pad.tree := Sample.upperPaths_pad
  have hwide : 26 ∈ Sample.pad.constructorUses "Wide" := by decide +kernel
  have hsize : 13 ∉ Sample.pad.constructorUses "Size" := by decide +kernel
  refine ⟨h, (((constructorUses_references h).2 26).1 hwide).2.2, fun hr => hsize ?_⟩
  exact ((constructorUses_references h).2 13).2 ⟨by decide +kernel, rfl, hr⟩

end Reference
end ElmScope
