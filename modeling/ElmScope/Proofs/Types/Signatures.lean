import ElmScope.Proofs.Tree.Comments
import ElmScope.Types.Annotation
/-!
# Signatures amid comments

Comments may stand between an annotation and its declaration, between the parameters, and between
the segments of a type, and each reader passes over them in its own way: on the way from sibling to
sibling, after the name is dropped, or with the arrows. What they read is the same as without the
comments (`signatures_withoutComments`), as long as the first thing on a left side is the name
(`NameFirst`): it is dropped by its place, and a comment there would be dropped for it.
-/
namespace ElmScope
namespace Source

/-- A source whose tree has no comments. The text, and so every span, stays. -/
def withoutComments (s : Source) : Source := { s with tree := s.tree.withoutComments }

/-- Whether the left side of every declaration starts with the name of the declaration. -/
def NameFirst (s : Source) : Prop :=
  ∀ d < s.tree.size, ∀ left ∈ s.tree.child? "functionDeclarationLeft" d,
    ∀ m ∈ (s.tree.namedChildren left).head?, s.tree.kind m = "lower_case_identifier"

instance (s : Source) : Decidable s.NameFirst :=
  inferInstanceAs (Decidable (∀ d < _, ∀ _ ∈ s.tree.child? _ d, ∀ _ ∈ _, _))

variable {s : Source} {n n' : Nat}

/-! ## Segments -/

theorem segments_withoutComments (h : s.tree.Remains n n') :
    List.Forall₂ s.tree.Remains (s.segments n) (s.withoutComments.segments n') := by
  rw [segments, segments, Tree.namedChildren, Tree.namedChildren, List.filter_filter,
    List.filter_filter]
  refine h.filter_children (fun m m' hm => by simp only [withoutComments, hm.kind, hm.isNamed])
    fun m _ hm => ?_
  simpa using (Bool.and_eq_true_iff.1 (Bool.and_eq_true_iff.1 hm).1).2

section
variable (hapart : s.tree.CommentsApart)
include hapart

theorem annotatedSegments_withoutComments (h : s.tree.Remains n n') :
    List.Forall₂ s.tree.Remains (s.annotatedSegments n)
      (s.withoutComments.annotatedSegments n') := by
  have htype := hapart.child? h "typeExpression"
  rw [annotatedSegments, annotatedSegments, withoutComments]
  dsimp only
  generalize s.tree.child? "typeExpression" n = a,
    s.tree.withoutComments.child? "typeExpression" n' = b at htype
  cases htype with
  | none => exact .nil
  | some htype => exact segments_withoutComments htype

/-- The last segment, and what its parentheses hold, stay. -/
theorem resultType?_withoutComments (h : s.tree.Remains n n') :
    Option.Rel s.tree.Remains (s.resultType? n) (s.withoutComments.resultType? n') := by
  refine rel_bind (rel_getLast? (annotatedSegments_withoutComments hapart h)) fun m _ m' hm => ?_
  have hkind : s.withoutComments.tree.kind m' = s.tree.kind m := hm.kind
  rw [hkind]
  split
  · exact rel_getLast? (segments_withoutComments hm)
  · exact .some hm

/-! ## Annotations -/

/-- On the way back from a declaration to its annotation, comments are passed over. -/
theorem annotationOf?_withoutComments (h : s.tree.Remains n n') :
    Option.Rel s.tree.Remains (s.annotationOf? n) (s.withoutComments.annotationOf? n') :=
  rel_filter (hapart.namedBefore? h) fun m m' hm => by simp only [withoutComments, hm.kind]

theorem returnType?_withoutComments (h : s.tree.Remains n n') :
    Option.Rel s.tree.Remains (s.returnType? n) (s.withoutComments.returnType? n') :=
  rel_bind (annotationOf?_withoutComments hapart h) fun _ _ _ ha =>
    resultType?_withoutComments hapart ha

theorem unannotatedDeclarations_withoutComments :
    List.Forall₂ s.tree.Remains s.unannotatedDeclarations
      s.withoutComments.unannotatedDeclarations := by
  have hdeclarations : List.Forall₂ s.tree.Remains s.valueDeclarations
      s.withoutComments.valueDeclarations :=
    (Tree.remains_root s.tree).childrenOf (by decide)
  refine List.rel_filter (fun d d' hd => ?_) hdeclarations
  dsimp only
  rw [isNone_eq_of_rel (annotationOf?_withoutComments hapart hd)]

end

/-! ## Parameters -/

theorem le_of_parameterPattern? {p : Nat} (hp : s.parameterPattern? n = some p) : p ≤ n := by
  unfold parameterPattern? at hp
  split at hp
  · exact Nat.le_of_lt (Tree.parent_lt (Option.filter_eq_some_iff.1 hp).1)
  · exact Nat.le_of_eq (Option.some.inj hp).symm

section
variable (hapart : s.tree.CommentsApart)
include hapart

/-- After the name, the parameters are what is no comment. -/
theorem parameters_withoutComments (hname : s.NameFirst) (hn : n < s.tree.size)
    (h : s.tree.Remains n n') :
    List.Forall₂ s.tree.Remains (s.parameters n) (s.withoutComments.parameters n') := by
  have hleft := hapart.child? h "functionDeclarationLeft"
  have hfirst := hname n hn
  rw [parameters, parameters, withoutComments]
  dsimp only
  generalize s.tree.child? "functionDeclarationLeft" n = a,
    s.tree.withoutComments.child? "functionDeclarationLeft" n' = b at hleft hfirst
  cases hleft with
  | none => exact .nil
  | @some left left' hleft =>
    have hdrop : ((s.tree.namedChildren left).drop 1).filter
        (fun m => !Tree.isComment (s.tree.kind m)) =
          ((s.tree.namedChildren left).filter fun m => !Tree.isComment (s.tree.kind m)).drop 1 := by
      have hhead := hfirst left rfl
      generalize s.tree.namedChildren left = nodes at hhead
      cases nodes with
      | nil => rfl
      | cons m nodes =>
        rw [List.filter_cons_of_pos (by rw [hhead m rfl]; rfl), List.drop_one, List.drop_one,
          List.tail_cons, List.tail_cons]
    have hkept : ((s.tree.withoutComments.namedChildren left').drop 1).filter
        (fun m => !Tree.isComment (s.tree.withoutComments.kind m)) =
          (s.tree.withoutComments.namedChildren left').drop 1 :=
      List.filter_eq_self.2 fun m hm => by
        rw [Tree.isComment_kind_withoutComments (List.mem_of_mem_filter (List.mem_of_mem_drop hm))]
        rfl
    simp only [hdrop, hkept]
    exact List.forall₂_drop 1 hleft.namedChildren

theorem parameterPattern?_withoutComments (h : s.tree.Remains n n') :
    Option.Rel s.tree.Remains (s.parameterPattern? n) (s.withoutComments.parameterPattern? n') := by
  have hkind : s.withoutComments.tree.kind n' = s.tree.kind n := h.kind
  rw [parameterPattern?, parameterPattern?, hkind]
  split
  · exact rel_filter (hapart.parent? h) fun m m' hm => by simp only [withoutComments, hm.kind]
  · exact .some h

theorem enclosing?_withoutComments (h : s.tree.Remains n n') (kind : String) :
    Option.Rel s.tree.Remains (s.tree.enclosing? kind n false)
      (s.withoutComments.tree.enclosing? kind n' false) :=
  rel_find? (hapart.chain h) fun m m' hm => by
    simp only [withoutComments, hm.kind, Bool.not_false, Bool.true_or]

theorem parameterType?_withoutComments (hname : s.NameFirst) (hn : n < s.tree.size)
    (h : s.tree.Remains n n') :
    Option.Rel s.tree.Remains (s.parameterType? n) (s.withoutComments.parameterType? n') := by
  refine rel_bind (parameterPattern?_withoutComments hapart h) fun p hp p' hpp => ?_
  refine rel_bind (enclosing?_withoutComments hapart hpp _) fun d hd d' hdd => ?_
  refine rel_bind (annotationOf?_withoutComments hapart hdd) fun a _ a' haa => ?_
  have hsize : d < s.tree.size :=
    Nat.lt_of_le_of_lt (Nat.le_trans (Tree.le_of_mem_chain (List.mem_of_find?_eq_some hd))
      (le_of_parameterPattern? hp)) hn
  have hparameters := parameters_withoutComments hapart hname hsize hdd
  have hsegments := annotatedSegments_withoutComments hapart haa
  dsimp only
  rw [idxOf?_eq_of_rel hparameters fun q q' hq => hq.eq_iff hpp, hparameters.length_eq,
    hsegments.length_eq]
  cases (s.withoutComments.parameters d').idxOf? p' with
  | none => exact .none
  | some i =>
    simp only [Option.bind_eq_bind, Option.bind_some]
    split
    · exact .none
    · exact rel_getElem? hsegments i

end

/-! ## Signatures -/

/-- **Comments never change a signature.** Taking the comments out leaves every other node once, in
order and as what it is; where the comments are leaves, every other node is left. What remains of a
node has what remains of its parameters, of its annotation, of its type as a parameter and of its
type of result; and what remains of the declarations without an annotation are the declarations
without one. -/
theorem signatures_withoutComments (hapart : s.tree.CommentsApart) (hname : s.NameFirst) :
    ((∀ n' < s.withoutComments.tree.size, ∃! n, n < s.tree.size ∧ s.tree.Remains n n') ∧
      (∀ m m' n n', s.tree.Remains m m' → s.tree.Remains n n' → (m < n ↔ m' < n')) ∧
      (∀ n n', s.tree.Remains n n' → s.withoutComments.tree.nodes[n']? =
        s.tree.nodes[n]?.map fun node => { node with parent := node.parent.map s.tree.rank }) ∧
      ((∀ c < s.tree.size, Tree.isComment (s.tree.kind c) = true → s.tree.isLeaf c = true) →
        ∀ n < s.tree.size, n ≠ Tree.root →
          ((∃ n', s.tree.Remains n n') ↔ Tree.isComment (s.tree.kind n) = false))) ∧
    (∀ n < s.tree.size, ∀ n', s.tree.Remains n n' →
      List.Forall₂ s.tree.Remains (s.parameters n) (s.withoutComments.parameters n') ∧
      Option.Rel s.tree.Remains (s.annotationOf? n) (s.withoutComments.annotationOf? n') ∧
      Option.Rel s.tree.Remains (s.parameterType? n) (s.withoutComments.parameterType? n') ∧
      Option.Rel s.tree.Remains (s.returnType? n) (s.withoutComments.returnType? n')) ∧
    List.Forall₂ s.tree.Remains s.unannotatedDeclarations
      s.withoutComments.unannotatedDeclarations := by
  refine ⟨⟨fun n' hn' => Tree.existsUnique_remains hn', fun _ _ _ _ hm hn => hm.lt_iff hn,
    fun n n' h => h.getElem?, fun hleaf n hn hroot => Tree.exists_remains_iff hleaf hn hroot⟩,
    fun n hn n' h => ?_, unannotatedDeclarations_withoutComments hapart⟩
  exact ⟨parameters_withoutComments hapart hname hn h, annotationOf?_withoutComments hapart h,
    parameterType?_withoutComments hapart hname hn h, returnType?_withoutComments hapart h⟩

end Source

namespace Sample

def remarkedNodes : Array TreeNode :=
  #[ ⟨"file", true, none, 0, 51, none⟩,
     ⟨"type_annotation", true, none, 0, 29, some 0⟩,
     ⟨"lower_case_identifier", true, some "name", 0, 1, some 1⟩,
     ⟨"colon", true, none, 2, 3, some 1⟩,
     ⟨"type_expression", true, some "typeExpression", 4, 29, some 1⟩,
     ⟨"type_variable", true, some "part", 4, 5, some 4⟩,
     ⟨"lower_case_identifier", true, none, 4, 5, some 5⟩,
     ⟨"block_comment", true, none, 6, 11, some 4⟩,
     ⟨"\x7b-", false, none, 6, 8, some 7⟩,
     ⟨"-\x7d", false, none, 9, 11, some 7⟩,
     ⟨"arrow", true, none, 12, 14, some 4⟩,
     ⟨"(", false, none, 15, 16, some 4⟩,
     ⟨"type_expression", true, some "part", 16, 28, some 4⟩,
     ⟨"type_variable", true, some "part", 16, 17, some 12⟩,
     ⟨"lower_case_identifier", true, none, 16, 17, some 13⟩,
     ⟨"arrow", true, none, 18, 20, some 12⟩,
     ⟨"block_comment", true, none, 21, 26, some 12⟩,
     ⟨"\x7b-", false, none, 21, 23, some 16⟩,
     ⟨"-\x7d", false, none, 24, 26, some 16⟩,
     ⟨"type_variable", true, some "part", 27, 28, some 12⟩,
     ⟨"lower_case_identifier", true, none, 27, 28, some 19⟩,
     ⟨")", false, none, 28, 29, some 4⟩,
     ⟨"line_comment", true, none, 30, 36, some 0⟩,
     ⟨"value_declaration", true, none, 37, 50, some 0⟩,
     ⟨"function_declaration_left", true, some "functionDeclarationLeft", 37, 46, some 23⟩,
     ⟨"lower_case_identifier", true, none, 37, 38, some 24⟩,
     ⟨"block_comment", true, none, 39, 44, some 24⟩,
     ⟨"\x7b-", false, none, 39, 41, some 26⟩,
     ⟨"-\x7d", false, none, 42, 44, some 26⟩,
     ⟨"lower_pattern", true, some "pattern", 45, 46, some 24⟩,
     ⟨"lower_case_identifier", true, none, 45, 46, some 29⟩,
     ⟨"eq", true, none, 47, 48, some 23⟩,
     ⟨"value_expr", true, some "body", 49, 50, some 23⟩,
     ⟨"value_qid", true, some "name", 49, 50, some 32⟩,
     ⟨"lower_case_identifier", true, none, 49, 50, some 33⟩ ]

/-- An annotated function, with a comment in every place of its signature. -/
def remarked : Source where
  file := ⟨"file:///src/Remarked.elm"⟩
  text := "f : a \x7b-n-\x7d -> (a -> \x7b-r-\x7d b)\n-- doc\nf \x7b-x-\x7d y = g\n".toList
  tree := ⟨remarkedNodes, Tree.subtreeEnds remarkedNodes, [], by decide +kernel⟩
  writeable := true
  isDraft := false

end Sample

namespace Source

/-- Nodes 16 and 19 are what the declaration and its parameter remain as. -/
theorem signatures_withoutComments_remarked :
    let s := Sample.remarked
    s.tree.CommentsApart ∧ s.NameFirst ∧ s.tree.Remains 23 16 ∧ s.tree.Remains 29 19 ∧
      (s.parameters 23 = [29] ∧ s.parameterType? 29 = some 5 ∧ s.returnType? 23 = some 19) ∧
      List.Forall₂ s.tree.Remains [29] (s.withoutComments.parameters 16) ∧
      Option.Rel s.tree.Remains (some 5) (s.withoutComments.parameterType? 19) ∧
      Option.Rel s.tree.Remains (some 19) (s.withoutComments.returnType? 16) := by
  intro s
  have hapart : s.tree.CommentsApart := ⟨by decide +kernel, by simp [s, Sample.remarked]⟩
  have hname : s.NameFirst := by decide +kernel
  have hdeclaration : s.tree.Remains 23 16 := ⟨by decide +kernel, by decide +kernel⟩
  have hparameter : s.tree.Remains 29 19 := ⟨by decide +kernel, by decide +kernel⟩
  have hread : s.parameters 23 = [29] ∧ s.parameterType? 29 = some 5 ∧
      s.returnType? 23 = some 19 := by decide +kernel
  have hnodes := (signatures_withoutComments hapart hname).2.1
  obtain ⟨hparameters, -, -, hreturn⟩ := hnodes 23 (by decide +kernel) 16 hdeclaration
  obtain ⟨-, -, htype, -⟩ := hnodes 29 (by decide +kernel) 19 hparameter
  rw [hread.1] at hparameters
  rw [hread.2.1] at htype
  rw [hread.2.2] at hreturn
  exact ⟨hapart, hname, hdeclaration, hparameter, hread, hparameters, htype, hreturn⟩

end Source
end ElmScope
