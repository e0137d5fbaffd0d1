import ElmScope.Proofs.Tree.Within
import ElmScope.Types.Annotation
/-!
# The annotated types of parameters

An annotation types the parameters of a declaration from the left, each by the segment at its place.
It types all of them, when it has a segment more than there are parameters, or none; so the segment
that is left for the result never becomes the type of a parameter.

A node gets its place from the declaration around it, so it matters that nothing else stands in the
way: the left side holds no declaration of its own (`LeftShaped`).

* `parameterType?_of_declaration` — a node is typed by its place among the parameters
* `parameterType?_allOrNone` — the types of all parameters, of what stands inside them, and the
  result
-/
namespace ElmScope

theorem idxOf?_eq_some_of_nodup {α : Type} [BEq α] [LawfulBEq α] {l : List α} {a : α} {i : Nat}
    (h : l.Nodup) (ha : l[i]? = some a) : l.idxOf? a = some i := by
  obtain ⟨hi, heq⟩ := List.getElem?_eq_some_iff.1 ha
  refine List.idxOf?_eq_some_iff.2 ⟨hi, heq, fun j hj hsame => Nat.ne_of_lt hj ?_⟩
  have hjs : j < l.length := Nat.lt_trans hj hi
  refine (List.getElem?_inj hjs h).1 ?_
  rw [ha, List.getElem?_eq_getElem hjs, hsame]

namespace Source

/-- What the grammar says about the left side of a declaration: it is a child of the declaration, it
holds no declaration, what follows the name are patterns, and the parents of its nodes are those of
the shape. -/
structure LeftShaped (s : Source) (d : Nat) : Prop where
  declaration : s.tree.kind d = "value_declaration"
  child : ∀ l ∈ s.tree.child? "functionDeclarationLeft" d, l ∈ s.tree.children d
  undeclaring : ∀ l ∈ s.tree.child? "functionDeclarationLeft" d, ∀ m ∈ l :: s.tree.below l,
    s.tree.kind m ≠ "value_declaration"
  parents : ∀ l ∈ s.tree.child? "functionDeclarationLeft" d, ∀ m ∈ l :: s.tree.below l,
    s.tree.parent? m = s.tree.shapeParent? m
  patterns : ∀ p ∈ s.parameters d, s.tree.kind p ≠ "lower_case_identifier"

variable {s : Source} {a d i l m p type : Nat}

/-! ## Parameters and segments in order -/

/-- The parameters stand in order on the left side. -/
theorem sublist_parameters (s : Source) (d : Nat) :
    ∃ l, (s.parameters d).Sublist (s.tree.children l) ∧
      ∀ p ∈ s.parameters d, s.tree.child? "functionDeclarationLeft" d = some l := by
  unfold parameters
  split
  · next l hl =>
    have hsub : ((s.tree.namedChildren l).drop 1).Sublist (s.tree.children l) :=
      (List.drop_sublist 1 _).trans List.filter_sublist
    exact ⟨l, List.filter_sublist.trans hsub, fun _ _ => hl⟩
  · exact ⟨d, List.nil_sublist _, fun p hp => absurd hp List.not_mem_nil⟩

theorem mem_children_of_mem_parameters (hp : p ∈ s.parameters d) :
    ∃ l, s.tree.child? "functionDeclarationLeft" d = some l ∧ p ∈ s.tree.children l := by
  obtain ⟨l, hsub, hl⟩ := s.sublist_parameters d
  exact ⟨l, hl p hp, hsub.subset hp⟩

theorem nodup_parameters (s : Source) (d : Nat) : (s.parameters d).Nodup := by
  obtain ⟨l, hsub, -⟩ := s.sublist_parameters d
  exact (Tree.nodup_children s.tree l).sublist hsub

theorem mem_children_of_mem_segments (h : m ∈ s.segments type) : m ∈ s.tree.children type :=
  List.mem_of_mem_filter (List.mem_of_mem_filter h)

theorem nodup_segments (s : Source) (type : Nat) : (s.segments type).Nodup :=
  ((Tree.nodup_children s.tree type).filter _).filter _

theorem annotatedSegments_eq (s : Source) (a : Nat) :
    s.annotatedSegments a = [] ∨ ∃ type, s.annotatedSegments a = s.segments type := by
  cases h : s.tree.child? "typeExpression" a with
  | none => exact .inl (by simp [annotatedSegments, h])
  | some type => exact .inr ⟨type, by simp [annotatedSegments, h]⟩

/-- A segment before the last one is another node than the last one and than its segments. -/
theorem ne_last_segment {last : Nat} (hi : i + 1 < (s.annotatedSegments a).length)
    (htype : (s.annotatedSegments a)[i]? = some type)
    (hlast : (s.annotatedSegments a).getLast? = some last) :
    type ≠ last ∧ type ∉ s.segments last := by
  obtain hnil | ⟨whole, hwhole⟩ := s.annotatedSegments_eq a
  · rw [hnil] at hi
    exact absurd hi (Nat.not_lt_zero _)
  rw [hwhole] at hi htype hlast
  have hne : type ≠ last := by
    rintro rfl
    rw [List.getLast?_eq_getElem?] at hlast
    have := (List.getElem?_inj (by omega) (nodup_segments s whole)).1 (htype.trans hlast.symm)
    omega
  refine ⟨hne, fun hmem => ?_⟩
  have houter := mem_children_of_mem_segments (List.mem_of_getElem? htype)
  have hparent := (Tree.shapeParent?_of_mem_children houter).symm.trans
    (Tree.shapeParent?_of_mem_children (mem_children_of_mem_segments hmem))
  have hlt := Tree.lt_of_mem_children
    (mem_children_of_mem_segments (List.mem_of_getLast? hlast))
  exact absurd (Option.some.inj hparent) (Nat.ne_of_lt hlt.1)

/-! ## The type of one node -/

/-- An identifier stands for the pattern that holds it. -/
theorem parameterType?_of_identifier (hm : s.tree.kind m = "lower_case_identifier") :
    s.parameterType? m =
      ((s.tree.parent? m).filter fun p => s.tree.kind p = "lower_pattern").bind
        s.parameterType? := by
  cases hp : (s.tree.parent? m).filter fun p => s.tree.kind p = "lower_pattern" with
  | none => simp [parameterType?, parameterPattern?, hm, hp]
  | some p =>
    have hkind : s.tree.kind p = "lower_pattern" := by
      simpa using (Option.filter_eq_some_iff.1 hp).2
    simp [parameterType?, parameterPattern?, hm, hp, hkind]

/-- Any other node is typed by its place among the parameters of the declaration around it. -/
theorem parameterType?_of_declaration (hm : s.tree.kind m ≠ "lower_case_identifier")
    (hd : s.tree.enclosing? "value_declaration" m false = some d) :
    s.parameterType? m = (s.annotationOf? d).bind fun a =>
      ((s.parameters d).idxOf? m).bind fun i =>
        if (s.parameters d).length < (s.annotatedSegments a).length then
          (s.annotatedSegments a)[i]?
        else none := by
  have hpattern : s.parameterPattern? m = some m := by rw [parameterPattern?, if_neg hm]
  simp only [parameterType?, hpattern, hd, Option.bind_eq_bind, Option.bind_some]
  refine congrArg _ (funext fun a => ?_)
  cases hi : (s.parameters d).idxOf? m with
  | none => rfl
  | some i =>
    obtain ⟨hlt, -⟩ := List.idxOf?_eq_some_iff.1 hi
    by_cases hmore : (s.parameters d).length < (s.annotatedSegments a).length
    · rw [Option.bind_some, Option.bind_some, if_neg (by omega), if_pos hmore]
    · rw [Option.bind_some, Option.bind_some, if_pos (.inl (by omega)), if_neg hmore]

/-! ## The nodes of a left side -/

/-- The declaration around a node of its left side is the declaration itself. -/
theorem LeftShaped.enclosing?_eq (h : s.LeftShaped d)
    (hl : s.tree.child? "functionDeclarationLeft" d = some l) (hm : m ∈ l :: s.tree.below l) :
    s.tree.enclosing? "value_declaration" m false = some d := by
  obtain ⟨hdl, hsize⟩ := Tree.lt_of_mem_children (h.child l hl)
  have hparent : s.tree.parent? l = some d := by
    rw [h.parents l hl l List.mem_cons_self, Tree.shapeParent?_of_mem_children (h.child l hl)]
  -- What stands on the chain before the declaration lies in the left side.
  obtain ⟨path, hpath, hin⟩ : ∃ path, s.tree.chain m = path ++ s.tree.chain d ∧
      ∀ k ∈ path, k ∈ l :: s.tree.below l := by
    rcases List.mem_cons.1 hm with rfl | hbelow
    · exact ⟨[m], Tree.chain_of_parent? hparent, by simp⟩
    · obtain ⟨path, hpath, hin⟩ := Tree.chain_of_mem_below
        (fun k hk => h.parents l hl k (List.mem_cons_of_mem _ hk)) hsize hbelow
      refine ⟨path ++ [l], by rw [hpath, Tree.chain_of_parent? hparent]; simp, fun k hk => ?_⟩
      rcases List.mem_append.1 hk with hk | hk
      · exact List.mem_cons_of_mem _ (hin k hk)
      · exact List.mem_cons.2 (.inl (List.mem_singleton.1 hk))
  have hnone : path.find? (fun k => s.tree.kind k = "value_declaration" &&
      (!false || s.tree.isTopLevel k)) = none := by
    simpa using fun k hk => h.undeclaring l hl k (hin k hk)
  rw [Tree.enclosing?, hpath, List.find?_append, hnone, Option.none_or, Tree.chain_eq_cons,
    List.find?_cons_of_pos (by simp [h.declaration])]

/-- A parameter is typed by its place, all are or none is. -/
theorem LeftShaped.parameterType?_of_getElem? (h : s.LeftShaped d)
    (hp : (s.parameters d)[i]? = some p) :
    s.parameterType? p = (s.annotationOf? d).bind fun a =>
      if (s.parameters d).length < (s.annotatedSegments a).length then
        (s.annotatedSegments a)[i]?
      else none := by
  have hmem := List.mem_of_getElem? hp
  obtain ⟨l, hl, hchild⟩ := mem_children_of_mem_parameters hmem
  rw [parameterType?_of_declaration (h.patterns p hmem) (h.enclosing?_eq hl
    (List.mem_cons_of_mem _ (Tree.mem_below_of_mem_children hchild)))]
  simp only [idxOf?_eq_some_of_nodup (s.nodup_parameters d) hp, Option.bind_some]

/-- No other node of the left side has a type, as long as it is no identifier. -/
theorem LeftShaped.parameterType?_eq_none (h : s.LeftShaped d)
    (hl : s.tree.child? "functionDeclarationLeft" d = some l) (hm : m ∈ s.tree.below l)
    (hkind : s.tree.kind m ≠ "lower_case_identifier") (hnot : m ∉ s.parameters d) :
    s.parameterType? m = none := by
  rw [parameterType?_of_declaration hkind (h.enclosing?_eq hl (List.mem_cons_of_mem _ hm))]
  simp [List.idxOf?_eq_none_iff.2 hnot]

/-- What stands inside a parameter is not a parameter. -/
theorem not_mem_parameters_of_mem_below (hp : p ∈ s.parameters d) (hm : m ∈ s.tree.below p) :
    m ∉ s.parameters d := by
  intro hmem
  obtain ⟨l, hl, hchild⟩ := mem_children_of_mem_parameters hp
  obtain ⟨l', hl', hchild'⟩ := mem_children_of_mem_parameters hmem
  obtain rfl : l = l' := Option.some.inj (hl.symm.trans hl')
  obtain ⟨q, hq, hcase⟩ := Tree.shapeParent?_of_mem_below (Tree.lt_of_mem_children hchild).2 hm
  obtain rfl : q = l := Option.some.inj (hq.symm.trans (Tree.shapeParent?_of_mem_children hchild'))
  have hlt := (Tree.lt_of_mem_children hchild).1
  rcases hcase with rfl | hbelow
  · exact absurd hlt (Nat.lt_irrefl _)
  · exact absurd (Tree.mem_below_iff.1 hbelow).1 (Nat.lt_asymm hlt)

/-- Inside a parameter, only the identifier of a lower-case pattern has a type. -/
theorem LeftShaped.parameterType?_inside (h : s.LeftShaped d) (hp : p ∈ s.parameters d)
    (hm : m ∈ s.tree.below p)
    (hnot : ¬(s.tree.kind p = "lower_pattern" ∧ m ∈ s.tree.children p ∧
      s.tree.kind m = "lower_case_identifier")) :
    s.parameterType? m = none := by
  obtain ⟨l, hl, hchild⟩ := mem_children_of_mem_parameters hp
  have hbelow : ∀ k ∈ s.tree.below p, k ∈ s.tree.below l := fun k => Tree.mem_below_of_child hchild
  by_cases hkind : s.tree.kind m = "lower_case_identifier"
  · rw [parameterType?_of_identifier hkind, Option.bind_eq_none_iff]
    intro q hq
    obtain ⟨hparent, hpattern⟩ := Option.filter_eq_some_iff.1 hq
    have hpattern : s.tree.kind q = "lower_pattern" := by simpa using hpattern
    rw [h.parents l hl m (List.mem_cons_of_mem _ (hbelow m hm))] at hparent
    obtain ⟨q', hq', hcase⟩ := Tree.shapeParent?_of_mem_below (Tree.lt_of_mem_children hchild).2 hm
    obtain rfl : q = q' := Option.some.inj (hparent.symm.trans hq')
    rcases hcase with rfl | hq
    · exact absurd ⟨hpattern, Tree.mem_children_iff.2 hparent, hkind⟩ hnot
    · exact h.parameterType?_eq_none hl (hbelow q hq) (by simp [hpattern])
        (not_mem_parameters_of_mem_below hp hq)
  · exact h.parameterType?_eq_none hl (hbelow m hm) hkind (not_mem_parameters_of_mem_below hp hm)

/-- The identifier of a lower-case pattern has the type of the pattern. -/
theorem LeftShaped.parameterType?_identifier (h : s.LeftShaped d) (hp : p ∈ s.parameters d)
    (hpattern : s.tree.kind p = "lower_pattern") (hm : m ∈ s.tree.children p)
    (hkind : s.tree.kind m = "lower_case_identifier") :
    s.parameterType? m = s.parameterType? p := by
  obtain ⟨l, hl, hchild⟩ := mem_children_of_mem_parameters hp
  have hbelow := Tree.mem_below_of_child hchild (Tree.mem_below_of_mem_children hm)
  have hparent : s.tree.parent? m = some p := by
    rw [h.parents l hl m (List.mem_cons_of_mem _ hbelow), Tree.shapeParent?_of_mem_children hm]
  rw [parameterType?_of_identifier hkind, hparent, Option.filter_some,
    if_pos (by simpa using hpattern), Option.bind_some]

/-! ## All parameters and the result -/

theorem returnType?_of_annotationOf? (ha : s.annotationOf? d = some a) :
    s.returnType? d = (s.annotatedSegments a).getLast?.bind fun last =>
      if s.tree.kind last = "type_expression" then (s.segments last).getLast? else some last := by
  rw [returnType?, ha, Option.bind_some, resultType?]

/-- The type of a parameter stands before the last segment, so it is not the type of the result. -/
theorem LeftShaped.parameterType?_ne_last (h : s.LeftShaped d) (ha : s.annotationOf? d = some a)
    (hp : p ∈ s.parameters d) (htype : s.parameterType? p = some type) :
    some type ≠ (s.annotatedSegments a).getLast? ∧ some type ≠ s.returnType? d := by
  obtain ⟨i, hi⟩ := List.mem_iff_getElem?.1 hp
  rw [h.parameterType?_of_getElem? hi, ha, Option.bind_some] at htype
  obtain ⟨hmore, htype⟩ := Option.ite_none_right_eq_some.1 htype
  obtain ⟨hlt, -⟩ := List.getElem?_eq_some_iff.1 hi
  have hlast : ∀ last, (s.annotatedSegments a).getLast? = some last →
      type ≠ last ∧ type ∉ s.segments last := fun last => ne_last_segment (by omega) htype
  refine ⟨fun heq => (hlast type heq.symm).1 rfl, fun heq => ?_⟩
  rw [returnType?_of_annotationOf? ha] at heq
  obtain ⟨last, hmem, hresult⟩ := Option.bind_eq_some_iff.1 heq.symm
  split at hresult
  · exact (hlast last hmem).2 (List.mem_of_getLast? hresult)
  · exact (hlast last hmem).1 (Option.some.inj hresult).symm

/-- **The types of parameters are all or none, and never that of the result.** With an annotation
that has more segments than the declaration has parameters, each parameter is typed by the segment
at its place; with any other annotation, or without one, no parameter has a type. The identifier of
a lower-case pattern goes by its pattern, and nothing else inside a parameter has a type. The last
segment, from which the type of the result is taken, is the type of no parameter. -/
theorem parameterType?_allOrNone (h : s.LeftShaped d) :
    (s.annotationOf? d = none → ∀ p ∈ s.parameters d, s.parameterType? p = none) ∧
    (∀ a, s.annotationOf? d = some a →
      ((s.parameters d).length < (s.annotatedSegments a).length →
        ∀ (i p : Nat), (s.parameters d)[i]? = some p →
          ∃ type, (s.annotatedSegments a)[i]? = some type ∧ s.parameterType? p = some type) ∧
      ((s.annotatedSegments a).length ≤ (s.parameters d).length →
        ∀ p ∈ s.parameters d, s.parameterType? p = none) ∧
      (s.returnType? d = (s.annotatedSegments a).getLast?.bind fun last =>
        if s.tree.kind last = "type_expression" then (s.segments last).getLast? else some last) ∧
      ∀ p ∈ s.parameters d, ∀ type, s.parameterType? p = some type →
        some type ≠ (s.annotatedSegments a).getLast? ∧ some type ≠ s.returnType? d) ∧
    ∀ p ∈ s.parameters d,
      (s.tree.kind p = "lower_pattern" → ∀ m ∈ s.tree.children p,
        s.tree.kind m = "lower_case_identifier" → s.parameterType? m = s.parameterType? p) ∧
      ∀ m ∈ s.tree.below p, ¬(s.tree.kind p = "lower_pattern" ∧ m ∈ s.tree.children p ∧
        s.tree.kind m = "lower_case_identifier") → s.parameterType? m = none := by
  refine ⟨fun hnone p hp => ?_, fun a ha => ⟨fun hmore i p hi => ?_, fun hless p hp => ?_,
    returnType?_of_annotationOf? ha, fun p hp type => h.parameterType?_ne_last ha hp⟩,
    fun p hp => ⟨fun hpattern m => h.parameterType?_identifier hp hpattern,
      fun m => h.parameterType?_inside hp⟩⟩
  · obtain ⟨i, hi⟩ := List.mem_iff_getElem?.1 hp
    rw [h.parameterType?_of_getElem? hi, hnone, Option.bind_none]
  · obtain ⟨hlt, -⟩ := List.getElem?_eq_some_iff.1 hi
    have htype := List.getElem?_eq_getElem (Nat.lt_trans hlt hmore)
    refine ⟨_, htype, ?_⟩
    rw [h.parameterType?_of_getElem? hi, ha, Option.bind_some, if_pos hmore, htype]
  · obtain ⟨i, hi⟩ := List.mem_iff_getElem?.1 hp
    rw [h.parameterType?_of_getElem? hi, ha, Option.bind_some, if_neg (Nat.not_lt.2 hless)]

end Source

namespace Sample

def curriedNodes : Array TreeNode :=
  #[ ⟨"file", true, none, 0, 45, none⟩,
     ⟨"type_annotation", true, none, 0, 22, some 0⟩,
     ⟨"lower_case_identifier", true, some "name", 0, 1, some 1⟩,
     ⟨"colon", true, none, 2, 3, some 1⟩,
     ⟨"type_expression", true, some "typeExpression", 4, 22, some 1⟩,
     ⟨"type_ref", true, some "part", 4, 5, some 4⟩,
     ⟨"upper_case_qid", true, none, 4, 5, some 5⟩,
     ⟨"upper_case_identifier", true, none, 4, 5, some 6⟩,
     ⟨"arrow", true, none, 6, 8, some 4⟩,
     ⟨"type_ref", true, some "part", 9, 10, some 4⟩,
     ⟨"upper_case_qid", true, none, 9, 10, some 9⟩,
     ⟨"upper_case_identifier", true, none, 9, 10, some 10⟩,
     ⟨"arrow", true, none, 11, 13, some 4⟩,
     ⟨"(", false, none, 14, 15, some 4⟩,
     ⟨"type_expression", true, some "part", 15, 21, some 4⟩,
     ⟨"type_ref", true, some "part", 15, 16, some 14⟩,
     ⟨"upper_case_qid", true, none, 15, 16, some 15⟩,
     ⟨"upper_case_identifier", true, none, 15, 16, some 16⟩,
     ⟨"arrow", true, none, 17, 19, some 14⟩,
     ⟨"type_ref", true, some "part", 20, 21, some 14⟩,
     ⟨"upper_case_qid", true, none, 20, 21, some 19⟩,
     ⟨"upper_case_identifier", true, none, 20, 21, some 20⟩,
     ⟨")", false, none, 21, 22, some 4⟩,
     ⟨"value_declaration", true, none, 23, 44, some 0⟩,
     ⟨"function_declaration_left", true, some "functionDeclarationLeft", 23, 40, some 23⟩,
     ⟨"lower_case_identifier", true, none, 23, 24, some 24⟩,
     ⟨"lower_pattern", true, some "pattern", 25, 26, some 24⟩,
     ⟨"lower_case_identifier", true, none, 25, 26, some 26⟩,
     ⟨"block_comment", true, none, 27, 34, some 24⟩,
     ⟨"\x7b-", false, none, 27, 29, some 28⟩,
     ⟨"-\x7d", false, none, 32, 34, some 28⟩,
     ⟨"list_pattern", true, some "pattern", 35, 40, some 24⟩,
     ⟨"[", false, none, 35, 36, some 31⟩,
     ⟨"pattern", true, some "part", 37, 38, some 31⟩,
     ⟨"lower_pattern", true, some "child", 37, 38, some 33⟩,
     ⟨"lower_case_identifier", true, none, 37, 38, some 34⟩,
     ⟨"]", false, none, 39, 40, some 31⟩,
     ⟨"eq", true, none, 41, 42, some 23⟩,
     ⟨"value_expr", true, some "body", 43, 44, some 23⟩,
     ⟨"value_qid", true, some "name", 43, 44, some 38⟩,
     ⟨"lower_case_identifier", true, none, 43, 44, some 39⟩ ]

def curriedEnds : Array Nat :=
  #[41, 23, 3, 4, 23, 8, 8, 8, 9, 12, 12, 12, 13, 14, 22, 18, 18, 18, 19, 22, 22, 22, 23, 41, 37, 26,
    28, 28, 31, 30, 31, 37, 33, 36, 36, 36, 37, 38, 41, 41, 41]

/-- A function of two parameters, a comment between them, that returns a function. -/
def curried : Source where
  file := ⟨"file:///src/Curried.elm"⟩
  text := "f : A -> B -> (C -> D)\nf x \x7b- y -\x7d [ z ] = z\n".toList
  tree := ⟨curriedNodes, curriedEnds, [], by decide +kernel⟩
  writeable := true
  isDraft := false

end Sample

namespace Source

/-- The two parameters have the types `A` and `B`, so does the identifier of the first; the name in
the list has none. -/
theorem parameterType?_allOrNone_curried :
    Sample.curried.LeftShaped 23 ∧ Sample.curried.annotationOf? 23 = some 1 ∧
      Sample.curried.parameters 23 = [26, 31] ∧ Sample.curried.annotatedSegments 1 = [5, 9, 14] ∧
      (∃ type, Sample.curried.parameterType? 31 = some type ∧ [5, 9, 14][1]? = some type) ∧
      Sample.curried.parameterType? 27 = Sample.curried.parameterType? 26 ∧
      Sample.curried.parameterType? 34 = none ∧ Sample.curried.returnType? 23 = some 19 := by
  have h : Sample.curried.LeftShaped 23 :=
    ⟨by decide +kernel, by decide +kernel, by decide +kernel, by decide +kernel, by decide +kernel⟩
  have ha : Sample.curried.annotationOf? 23 = some 1 := by decide +kernel
  have hparameters : Sample.curried.parameters 23 = [26, 31] := by decide +kernel
  have hsegments : Sample.curried.annotatedSegments 1 = [5, 9, 14] := by decide +kernel
  obtain ⟨-, htypes, hinside⟩ := parameterType?_allOrNone h
  obtain ⟨hall, -, hresult, -⟩ := htypes 1 ha
  rw [hparameters] at hall hinside
  rw [hsegments] at hall
  obtain ⟨type, hsegment, htype⟩ := hall (by decide) 1 31 rfl
  refine ⟨h, ha, hparameters, hsegments, ⟨type, htype, hsegment⟩, ?_, ?_, ?_⟩
  · exact (hinside 26 (by decide)).1 (by decide +kernel) 27 (by decide +kernel) (by decide +kernel)
  · exact (hinside 31 (by decide)).2 34 (by decide +kernel) (by decide +kernel)
  · rw [hresult]
    decide +kernel

end Source
end ElmScope
