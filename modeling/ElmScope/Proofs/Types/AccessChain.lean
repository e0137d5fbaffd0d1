import ElmScope.Proofs.Referent.Plan
import ElmScope.Proofs.Referent.WellFormed
import ElmScope.Proofs.Types.RecordAlias
/-!
# Chains of field accesses

An access reads a field of what its target is, and the target may be an access again, in any number
of parentheses. So a chain of accesses is an expression to start from and the names of the fields
read from it, one after the other (`Source.Reads`).

For the rules from expressions to aliases the parentheses and the place of each access are nothing:
they start from the alias of the first expression and go, name by name, to the first field of that
name and on to its alias (`Chain.reached`). This holds whoever answers what the first expression and
the types of the fields refer to.

* `found_fieldInAccess_of_reads` — the field that the last access of a chain reads
* `aliasOfExpression_chain` — the alias and the field of a whole chain
-/
namespace ElmScope

/-! ## Chains -/

namespace Tree

/-- Whether an expression is another one, or holds it in parentheses, comments aside. -/
inductive Encloses (t : Tree) : Nat → Nat → Prop
  | refl (e : Nat) : Encloses t e e
  | parenthesized {outer inner e : Nat} (houter : t.kind outer = "parenthesized_expr")
    (hinner : ((t.namedChildren outer).filter fun m => !isComment (t.kind m)).head? = some inner)
    (h : Encloses t inner e) : Encloses t outer e

/-- Whether no base of a record update stands in a node or right beside it. -/
def Baseless (t : Tree) (n : Nat) : Prop :=
  ∀ p, p = n ∨ t.parent? n = some p → ∀ m ∈ t.namedChildren p, t.kind m ≠ "record_base_identifier"

instance (t : Tree) (n : Nat) : Decidable (t.Baseless n) :=
  decidable_of_iff (∀ p ∈ n :: (t.parent? n).toList, ∀ m ∈ t.namedChildren p,
    t.kind m ≠ "record_base_identifier") (by simp [Baseless])

end Tree

/-- Whether an expression reads some fields from `base`, one after the other. -/
inductive Source.Reads (s : Source) (base : Nat) : List String → Nat → Prop
  | start : Reads s base [] base
  | access {fields : List String} {e a target m : Nat} (h : Reads s base fields e)
    (ha : s.tree.kind a = "field_access_expr") (htarget : s.tree.child? "target" a = some target)
    (hchild : target ∈ s.tree.children a) (he : s.tree.Encloses target e)
    (hfield : Chain.accessedField? s.tree a = some m) (hbase : s.tree.Baseless a) :
    Reads s base (fields ++ [s.textOf m]) a

namespace Chain

/-- The alias of the first field of a name, in the record that an alias stands for. -/
def aliasAfter (c : Checker) (owner? : Option Definition) (name : String) : Option Definition :=
  (owner?.bind fun owner => Record.firstField? owner name).bind fun field =>
    (aliasOfDefinition c field).found

/-- The alias that is reached from a node by some fields, one after the other. -/
def reached (c : Checker) (s : Source) (base : Nat) (fields : List String) : Option Definition :=
  fields.foldl (aliasAfter c) ((c s base).found.bind fun d => (aliasOfDefinition c d).found)

variable {c : Checker} {s : Source} {name : String} {fields before : List String}
  {base e m n a target outer inner : Nat} {d : Definition}

/-! ## One access -/

theorem found_fieldIn (x : Search Definition) (name : String) :
    (x.bind fun owner => .ofOption ((Record.ofAlias? owner).bind fun r => r.field? name)).found =
      x.found.bind fun owner => Record.firstField? owner name := by
  refine (Search.found_bind x _).trans (congrArg _ (funext fun owner => ?_))
  rw [Search.found_ofOption, Record.bind_field?_eq_firstField?]

/-- What an access reads: the first field of its name, in the alias of the record it reads from. -/
theorem found_fieldInAccess (c : Checker) (s : Source) (a : Nat) :
    (fieldInAccess c s a).found = (accessedField? s.tree a).bind fun m =>
      (aliasOfRecord c s a).found.bind fun owner => Record.firstField? owner (s.textOf m) := by
  rw [fieldInAccess, fieldOf]
  refine (Search.found_bind _ _).trans ?_
  rw [Search.found_ofOption]
  exact congrArg _ (funext fun m => found_fieldIn _ _)

theorem recordBase?_eq_none (hn : s.tree.kind n ≠ "record_base_identifier")
    (h : s.tree.Baseless n) : recordBase? s.tree n = none := by
  have hnone : ∀ p, p = n ∨ s.tree.parent? n = some p → ((s.tree.namedChildren p).find? fun k =>
      s.tree.kind k = "record_base_identifier") = none := by
    intro p hp
    simpa using h p hp
  unfold recordBase?
  dsimp only
  rw [if_neg hn, hnone n (.inl rfl), Option.none_or, Option.bind_eq_none_iff]
  exact fun p hp => hnone p (.inr hp)

/-- Without a base of an update, an access reads from its target. -/
theorem aliasOfRecord_of_access (ha : s.tree.kind a = "field_access_expr")
    (htarget : s.tree.child? "target" a = some target) (hbase : s.tree.Baseless a) :
    aliasOfRecord c s a = aliasOfExpression c s target := by
  rw [aliasOfRecord, aliasOfRecordWith, recordBase?_eq_none (by simp [ha]) hbase]
  simp only [ha, if_true, htarget]
  rfl

/-- The alias of an access is the alias of the field it reads. -/
theorem aliasOfExpression_of_access (ha : s.tree.kind a = "field_access_expr")
    (hchild : ∀ e, s.tree.child? "target" a = some e → e ∈ s.tree.children a) :
    aliasOfExpression c s a = (fieldInAccess c s a).bind (aliasOfDefinition c) := by
  have hbody := Workspace.run_body_aliasOfExpression (w := ∅) (c := c) (s := s) (e := a)
    fun e _ he => hchild e he
  simp only [Workspace.body, ha] at hbody
  rw [if_neg (by decide), if_pos trivial, Workspace.run_describing] at hbody
  exact hbody.symm

theorem aliasOfExpression_of_parenthesized (houter : s.tree.kind outer = "parenthesized_expr")
    (hinner : ((s.tree.namedChildren outer).filter fun m =>
      !Tree.isComment (s.tree.kind m)).head? = some inner) :
    aliasOfExpression c s outer = aliasOfExpression c s inner := by
  have hfirst : parenthesized? s.tree outer = some inner := by
    rw [parenthesized?, ← List.head?_filter, hinner]
  have hchild := (List.mem_filter.1 (List.mem_of_find?_eq_some hfirst)).1
  rw [aliasOfExpression, if_pos houter, hfirst, Search.ofOption_some_bind,
    dif_pos (Tree.lt_of_mem_children hchild)]

theorem aliasOfExpression_of_encloses (h : s.tree.Encloses outer e) :
    aliasOfExpression c s outer = aliasOfExpression c s e := by
  induction h with
  | refl => rfl
  | parenthesized houter hinner _ ih =>
    rw [aliasOfExpression_of_parenthesized houter hinner, ih]

/-- An expression that the rules do not look into is asked what it refers to. -/
theorem found_aliasOfExpression_of_base
    (hbase : s.tree.kind base ∉ ["field_access_expr", "parenthesized_expr", "record_expr"]) :
    (aliasOfExpression c s base).found = reached c s base [] := by
  simp only [List.mem_cons, List.not_mem_nil, or_false, not_or] at hbase
  rw [aliasOfExpression, if_neg hbase.2.1, if_neg hbase.1, if_neg hbase.2.2]
  exact Search.found_bind _ _

/-! ## A chain of accesses -/

theorem foldl_aliasAfter_none (c : Checker) (fields : List String) :
    fields.foldl (aliasAfter c) none = none := by
  induction fields with
  | nil => rfl
  | cons name fields ih => exact ih

theorem reached_append (c : Checker) (s : Source) (base : Nat) (before after : List String) :
    reached c s base (before ++ after) =
      after.foldl (aliasAfter c) (reached c s base before) := List.foldl_append

/-- The field that an access reads, from the alias of the expression its target encloses. -/
theorem found_fieldInAccess_of_encloses (ha : s.tree.kind a = "field_access_expr")
    (htarget : s.tree.child? "target" a = some target) (he : s.tree.Encloses target e)
    (hfield : accessedField? s.tree a = some m) (hbase : s.tree.Baseless a) :
    (fieldInAccess c s a).found =
      (aliasOfExpression c s e).found.bind fun owner => Record.firstField? owner (s.textOf m) := by
  rw [found_fieldInAccess, hfield, Option.bind_some, aliasOfRecord_of_access ha htarget hbase,
    aliasOfExpression_of_encloses he]

/-- From the alias of the expression a chain starts from, the alias of the chain is reached field by
field. -/
theorem found_aliasOfExpression_of_reads (h : s.Reads base fields e) :
    (aliasOfExpression c s e).found =
      fields.foldl (aliasAfter c) (aliasOfExpression c s base).found := by
  induction h with
  | start => rfl
  | @access _ _ a target _ _ ha htarget hchild he hfield hbaseless ih =>
    have htargets : ∀ e, s.tree.child? "target" a = some e → e ∈ s.tree.children a :=
      fun e h => Option.some.inj (htarget.symm.trans h) ▸ hchild
    have hfound := Search.found_bind (fieldInAccess c s a) (aliasOfDefinition c)
    rw [aliasOfExpression_of_access ha htargets, List.foldl_append, List.foldl_cons,
      List.foldl_nil, aliasAfter, ← ih,
      ← found_fieldInAccess_of_encloses ha htarget he hfield hbaseless]
    exact hfound

/-- The last access of a chain reads the field of its name from the alias that is reached before. -/
theorem found_fieldInAccess_of_reads (h : s.Reads base (before ++ [name]) a) :
    s.tree.kind a = "field_access_expr" ∧ (fieldInAccess c s a).found =
      (before.foldl (aliasAfter c) (aliasOfExpression c s base).found).bind fun owner =>
        Record.firstField? owner name := by
  generalize hfields : before ++ [name] = fields at h
  cases h with
  | start => exact absurd hfields (by simp)
  | @access init e _ target m h ha htarget hchild he hfield hbaseless =>
    obtain ⟨rfl, hname⟩ := List.append_inj' hfields rfl
    obtain rfl : name = s.textOf m := (List.cons.inj hname).1
    rw [← found_aliasOfExpression_of_reads h]
    exact ⟨ha, found_fieldInAccess_of_encloses ha htarget he hfield hbaseless⟩

/-- Where an access reads no field, no chain of accesses that starts from it does. -/
theorem found_fieldInAccess_of_reads_none (ha : s.tree.kind a = "field_access_expr")
    (hchild : ∀ e, s.tree.child? "target" a = some e → e ∈ s.tree.children a)
    (hnone : (fieldInAccess c s a).found = none) (h : s.Reads a fields e) :
    (fieldInAccess c s e).found = none := by
  have halias : (aliasOfExpression c s a).found = none := by
    rw [aliasOfExpression_of_access ha hchild]
    refine (Search.found_bind _ _).trans ?_
    rw [hnone, Option.bind_none]
  cases h with
  | start => exact hnone
  | access h hb htarget _ he hfield hbase =>
    rw [found_fieldInAccess_of_encloses hb htarget he hfield hbase,
      found_aliasOfExpression_of_reads h, halias, foldl_aliasAfter_none, Option.bind_none]

theorem found_fieldOfAccess_of_fieldInAccess (ha : s.tree.kind a = "field_access_expr")
    (h : (fieldInAccess c s a).found = some d) : (fieldOfAccess c s a).found = some d := by
  rw [fieldOfAccess, Tree.chain_eq_cons, fieldAmong, if_pos ha, Search.found_orElse, h,
    Option.some_or]

/-! ## Kinds -/

theorem aliasOfType_kind (c : Checker) (s : Source) (n : Nat) :
    (aliasOfType c s n).Ensures (·.kind = .typeAlias) := by
  unfold aliasOfType
  split
  · refine Search.ensures_bind fun d => ?_
    split
    · next hk => exact Search.ensures_pure hk
    · exact Search.ensures_nothing
  · exact Search.ensures_nothing

theorem aliasOfDefinition_kind (c : Checker) (d : Definition) :
    (aliasOfDefinition c d).Ensures (·.kind = .typeAlias) := by
  unfold aliasOfDefinition
  split
  · next a hsite =>
    refine Search.ensures_pure ?_
    unfold siteOf? at hsite
    split at hsite <;> simp_all
  · exact aliasOfType_kind c _ _
  · exact Search.ensures_nothing

theorem aliasOfReferent_kind (c : Checker) (s : Source) (n : Nat) :
    (aliasOfReferent c s n).Ensures (·.kind = .typeAlias) :=
  Search.ensures_bind fun d => aliasOfDefinition_kind c d

theorem aliasOfExpression_kind (c : Checker) (s : Source) (e : Nat) :
    (aliasOfExpression c s e).Ensures (·.kind = .typeAlias) :=
  aliasOfExpression_ensures (aliasOfReferent_kind c s) (aliasOfType_kind c s)
    (fun _ _ _ => Search.ensures_bind fun d => aliasOfDefinition_kind c d) e

/-- **A chain of accesses is read field by field.** Whoever answers what nodes refer to, the alias of
a chain of accesses is the alias of the expression it starts from, followed from name to name to the
alias of the first field of that name; where one step leads nowhere, so does the chain. The field
that its last access reads is the first of its name in the alias reached before. All aliases found
are type aliases and all fields are fields. -/
theorem aliasOfExpression_chain (c : Checker)
    (hbase : s.tree.kind base ∉ ["field_access_expr", "parenthesized_expr", "record_expr"])
    (h : s.Reads base fields e) :
    (aliasOfExpression c s e).found = reached c s base fields ∧
    (∀ before after, fields = before ++ after → reached c s base before = none →
      (aliasOfExpression c s e).found = none) ∧
    (∀ before name, fields = before ++ [name] → ∀ f,
      ((reached c s base before).bind fun owner => Record.firstField? owner name) = some f →
        (fieldOfAccess c s e).found = some f) ∧
    (∀ n d, (aliasOfExpression c s n).found = some d → d.kind = .typeAlias) ∧
    ∀ n d, (fieldOfAccess c s n).found = some d → d.kind = .fieldType := by
  have hstart := found_aliasOfExpression_of_base (c := c) hbase
  have hreached : ∀ fields, reached c s base fields =
      fields.foldl (aliasAfter c) (aliasOfExpression c s base).found :=
    fun fields => hstart ▸ reached_append c s base [] fields
  have halias := (found_aliasOfExpression_of_reads (c := c) h).trans (hreached fields).symm
  refine ⟨halias, ?_, ?_, fun n => aliasOfExpression_kind c s n,
    fun n => fieldAmong_kind c s (s.tree.chain n)⟩
  · rintro before after rfl hnone
    rw [halias, reached_append, hnone, foldl_aliasAfter_none]
  · rintro before name rfl f hf
    obtain ⟨ha, hfield⟩ := found_fieldInAccess_of_reads (c := c) h
    rw [hreached before] at hf
    exact found_fieldOfAccess_of_fieldInAccess ha (hfield.trans hf)

end Chain

namespace Sample

def windingNodes : Array TreeNode :=
  #[ ⟨"file", true, none, 0, 56, none⟩,
     ⟨"type_alias_declaration", true, none, 0, 24, some 0⟩,
     ⟨"type", true, none, 0, 4, some 1⟩,
     ⟨"alias", true, none, 5, 10, some 1⟩,
     ⟨"upper_case_identifier", true, some "name", 11, 12, some 1⟩,
     ⟨"eq", true, none, 13, 14, some 1⟩,
     ⟨"type_expression", true, some "typeExpression", 15, 24, some 1⟩,
     ⟨"record_type", true, some "part", 15, 24, some 6⟩,
     ⟨"\x7b", false, none, 15, 16, some 7⟩,
     ⟨"field_type", true, some "fieldType", 17, 22, some 7⟩,
     ⟨"lower_case_identifier", true, some "name", 17, 18, some 9⟩,
     ⟨"colon", true, none, 19, 20, some 9⟩,
     ⟨"type_expression", true, some "typeExpression", 21, 22, some 9⟩,
     ⟨"type_ref", true, some "part", 21, 22, some 12⟩,
     ⟨"upper_case_qid", true, none, 21, 22, some 13⟩,
     ⟨"upper_case_identifier", true, none, 21, 22, some 14⟩,
     ⟨"\x7d", false, none, 23, 24, some 7⟩,
     ⟨"type_annotation", true, none, 26, 31, some 0⟩,
     ⟨"lower_case_identifier", true, some "name", 26, 27, some 17⟩,
     ⟨"colon", true, none, 28, 29, some 17⟩,
     ⟨"type_expression", true, some "typeExpression", 30, 31, some 17⟩,
     ⟨"type_ref", true, some "part", 30, 31, some 20⟩,
     ⟨"upper_case_qid", true, none, 30, 31, some 21⟩,
     ⟨"upper_case_identifier", true, none, 30, 31, some 22⟩,
     ⟨"value_declaration", true, none, 32, 55, some 0⟩,
     ⟨"function_declaration_left", true, some "functionDeclarationLeft", 32, 33, some 24⟩,
     ⟨"lower_case_identifier", true, none, 32, 33, some 25⟩,
     ⟨"eq", true, none, 34, 35, some 24⟩,
     ⟨"field_access_expr", true, some "body", 36, 55, some 24⟩,
     ⟨"parenthesized_expr", true, some "target", 36, 53, some 28⟩,
     ⟨"(", false, none, 36, 37, some 29⟩,
     ⟨"block_comment", true, none, 37, 48, some 29⟩,
     ⟨"\x7b-", false, none, 37, 39, some 31⟩,
     ⟨"-\x7d", false, none, 46, 48, some 31⟩,
     ⟨"field_access_expr", true, some "expression", 49, 52, some 29⟩,
     ⟨"value_expr", true, some "target", 49, 50, some 34⟩,
     ⟨"value_qid", true, some "name", 49, 50, some 35⟩,
     ⟨"lower_case_identifier", true, none, 49, 50, some 36⟩,
     ⟨"dot", true, none, 50, 51, some 34⟩,
     ⟨".", false, none, 50, 51, some 38⟩,
     ⟨"lower_case_identifier", true, none, 51, 52, some 34⟩,
     ⟨")", false, none, 52, 53, some 29⟩,
     ⟨"dot", true, none, 53, 54, some 28⟩,
     ⟨".", false, none, 53, 54, some 42⟩,
     ⟨"lower_case_identifier", true, none, 54, 55, some 28⟩ ]

/-- A value that is a field of a field of itself. -/
def winding : Source where
  file := ⟨"file:///src/Winding.elm"⟩
  text := "type alias R = \x7b a : R \x7d\n\nv : R\nv = (\x7b- again -\x7d v.a).a\n".toList
  tree := ⟨windingNodes, Tree.subtreeEnds windingNodes, [], by decide +kernel⟩
  writeable := true
  isDraft := false

theorem reads_winding : winding.Reads 35 ["a", "a"] 28 := by
  have henclosed : winding.tree.Encloses 29 34 :=
    .parenthesized (by decide +kernel) (by decide +kernel) (.refl 34)
  have hinner : winding.Reads 35 ([] ++ [winding.textOf 40]) 34 :=
    .access .start (by decide +kernel) (by decide +kernel) (by decide +kernel) (.refl 35)
      (by decide +kernel) (by decide +kernel)
  have houter : winding.Reads 35 ([] ++ [winding.textOf 40] ++ [winding.textOf 44]) 28 :=
    .access hinner (by decide +kernel) (by decide +kernel) (by decide +kernel) henclosed
      (by decide +kernel) (by decide +kernel)
  have htext : [] ++ [winding.textOf 40] ++ [winding.textOf 44] = ["a", "a"] := by decide +kernel
  exact htext ▸ houter

end Sample

namespace Chain

/-- The second access of the chain reads the field that the first one reads. -/
theorem aliasOfExpression_chain_winding :
    let c := (Workspace.run [.install Sample.winding false]).referent
    Sample.winding.tree.kind 35 ∉ ["field_access_expr", "parenthesized_expr", "record_expr"] ∧
      Sample.winding.Reads 35 ["a", "a"] 28 ∧
      (reached c Sample.winding 35 ["a", "a"]).map (·.node) = some 1 ∧
      (aliasOfExpression c Sample.winding 28).found = reached c Sample.winding 35 ["a", "a"] := by
  intro c
  have hbase : Sample.winding.tree.kind 35 ∉
      ["field_access_expr", "parenthesized_expr", "record_expr"] := by decide +kernel
  have hreached : (reached c Sample.winding 35 ["a", "a"]).map (·.node) = some 1 := by
    decide +kernel
  exact ⟨hbase, Sample.reads_winding, hreached,
    (aliasOfExpression_chain c hbase Sample.reads_winding).1⟩

end Chain
end ElmScope
