import ElmScope.Proofs.Referent.Descent
import ElmScope.Proofs.Types.AccessChain
/-!
# The names that accesses read

The name in an access refers to the field that the access reads. Where it reads none, the search
goes on to the accesses around it, as far as the value declaration they stand in, and each of those
reads a field of its own name. So a name may lead to a field of another name, but only to a field
that is read in another place: accesses that go on from one that reads nothing read nothing either.

* `Chain.found_fieldOfAccess` — the search asks the accesses around a node, from the inside out
* `referent_access` — what the name in an access refers to
-/
namespace ElmScope

namespace Tree

/-- The accesses among some nodes, before the first value declaration. -/
def accessesAmong (t : Tree) (nodes : List Nat) : List Nat :=
  (nodes.takeWhile fun k => ¬(t.kind k = "value_declaration" ∨ t.kind k = "file")).filter fun k =>
    t.kind k = "field_access_expr"

/-- The accesses around a node, itself included, in the value declaration it stands in. -/
def accessesAround (t : Tree) (n : Nat) : List Nat := t.accessesAmong (t.chain n)

theorem accessesAmong_cons_of_access {t : Tree} {a : Nat} (ha : t.kind a = "field_access_expr")
    (nodes : List Nat) : t.accessesAmong (a :: nodes) = a :: t.accessesAmong nodes := by
  rw [accessesAmong, List.takeWhile_cons_of_pos (by simp [ha]),
    List.filter_cons_of_pos (by simpa using ha), accessesAmong]

end Tree

/-- The field that an access reads: the first of its name, in the alias of the record it reads
from. -/
def Workspace.fieldRead? (w : Workspace) (s : Source) (access : Nat) : Option Definition :=
  (Chain.accessedField? s.tree access).bind fun m =>
    (Chain.aliasOfRecord w.referent s access).found.bind fun owner =>
      Record.firstField? owner (s.textOf m)

variable {w : Workspace} {c : Checker} {s : Source} {name : String} {fields : List String}
  {owner d : Definition} {a b m : Nat}

/-! ## The accesses around a node -/

theorem Chain.found_fieldAmong (c : Checker) (s : Source) (nodes : List Nat) :
    (fieldAmong c s nodes).found =
      (s.tree.accessesAmong nodes).findSome? fun a => (fieldInAccess c s a).found := by
  induction nodes with
  | nil => rfl
  | cons n rest ih =>
    rw [fieldAmong, Search.found_orElse]
    by_cases ha : s.tree.kind n = "field_access_expr"
    · rw [if_pos ha, if_neg (by simp [ha]), ih, Tree.accessesAmong_cons_of_access ha,
        List.findSome?_cons]
      cases (fieldInAccess c s n).found <;> rfl
    · rw [if_neg ha, Search.found_nothing, Option.none_or]
      by_cases hend : s.tree.kind n = "value_declaration" ∨ s.tree.kind n = "file"
      · rw [if_pos hend, Tree.accessesAmong,
          List.takeWhile_cons_of_neg (by simp only [hend]; decide)]
        rfl
      · rw [if_neg hend, ih, Tree.accessesAmong, Tree.accessesAmong,
          List.takeWhile_cons_of_pos (by simpa using hend),
          List.filter_cons_of_neg (by simpa using ha)]

/-- The search asks the accesses around a node, from the inside out. -/
theorem Chain.found_fieldOfAccess (c : Checker) (s : Source) (n : Nat) :
    (fieldOfAccess c s n).found =
      (s.tree.accessesAround n).findSome? fun a => (fieldInAccess c s a).found :=
  found_fieldAmong c s _

/-! ## The field of a name -/

theorem Record.firstField?_cases (h : firstField? owner name = some d) :
    d.kind = .fieldType ∧ d.name? = some name := by
  obtain ⟨record, -, h⟩ := Option.bind_eq_some_iff.1 h
  obtain ⟨f, hf, rfl⟩ := Option.map_eq_some_iff.1 h
  have hname : owner.source.declaredName? f = some name := by simpa using List.find?_some hf
  exact ⟨rfl, hname⟩

namespace Workspace

theorem fieldRead?_cases (h : w.fieldRead? s a = some d) : d.kind = .fieldType ∧
    ∃ m, Chain.accessedField? s.tree a = some m ∧ d.name? = some (s.textOf m) := by
  obtain ⟨m, hm, h⟩ := Option.bind_eq_some_iff.1 h
  obtain ⟨owner, -, h⟩ := Option.bind_eq_some_iff.1 h
  obtain ⟨hkind, hname⟩ := Record.firstField?_cases h
  exact ⟨hkind, m, hm, hname⟩

/-- Where an access reads nothing, the accesses that go on from it read nothing. -/
theorem fieldRead?_of_reads_none (hs : s.tree.Grounded) (ha : s.tree.kind a = "field_access_expr")
    (hnone : w.fieldRead? s a = none) (h : s.Reads a fields b) : w.fieldRead? s b = none := by
  have hread : ∀ k, (Chain.fieldInAccess w.referent s k).found = w.fieldRead? s k :=
    fun k => Chain.found_fieldInAccess w.referent s k
  rw [← hread] at hnone ⊢
  exact Chain.found_fieldInAccess_of_reads_none ha
    (fun e he => hs.mem_children_of_target ha he) hnone h

theorem step_of_access (hm : s.tree.kind m = "lower_case_identifier")
    (hp : s.tree.parent? m = some a) (ha : s.tree.kind a = "field_access_expr")
    (htarget : s.tree.child? "target" a ≠ some m) :
    (w.step c s m).found = (Chain.fieldOfAccess c s a).found := by
  rw [step_of_lower hm, lowerCaseReferent, hp, Search.found_bind_some]
  simp [ha, htarget]

/-- The name in an access refers to the first field that is read by the accesses around it. -/
theorem found_referent_of_access (hs : s.tree.Grounded)
    (hm : s.tree.kind m = "lower_case_identifier") (hp : s.tree.parent? m = some a)
    (ha : s.tree.kind a = "field_access_expr") (htarget : s.tree.child? "target" a ≠ some m) :
    (w.referent s m).found = (s.tree.accessesAround a).findSome? (w.fieldRead? s) := by
  have hsteps : Chain.fieldOfAccess (w.steps (s.tree.size + 1)) s a =
      Chain.fieldOfAccess w.referent s a :=
    answerWith_steps w (q := .fieldOfAccess s a) hs (Nat.le_add_left 1 _)
  have hfound : (w.referent s m).found =
      (Chain.fieldOfAccess (w.steps (s.tree.size + 1)) s a).found :=
    step_of_access hm hp ha htarget
  rw [hfound, hsteps, Chain.found_fieldOfAccess]
  exact congrArg (List.findSome? · _) (funext fun k => Chain.found_fieldInAccess w.referent s k)

/-- **The name in an access refers to the first field that is read around it.** Of the accesses from
this one outwards, in the value declaration they stand in, the first that reads a field decides, and
each reads the first field of its own name in the alias of its record. So the field has the name,
unless the access itself reads nothing and another one around it, which does not go on from it,
reads the field under its own name. Where all accesses around it go on from it, the name refers to
what the access reads, and to nothing if the record has no such field. -/
theorem referent_access (w : Workspace) (hs : s.tree.Grounded)
    (hm : s.tree.kind m = "lower_case_identifier") (hp : s.tree.parent? m = some a)
    (ha : s.tree.kind a = "field_access_expr") (htarget : s.tree.child? "target" a ≠ some m)
    (hfield : Chain.accessedField? s.tree a = some m) :
    (w.referent s m).found = (s.tree.accessesAround a).findSome? (w.fieldRead? s) ∧
    (∀ d, (w.referent s m).found = some d → d.kind = .fieldType ∧
      (d.name? = some (s.textOf m) ∨ w.fieldRead? s a = none ∧
        ∃ b ∈ s.tree.accessesAround a, w.fieldRead? s b = some d ∧
          (∃ k, Chain.accessedField? s.tree b = some k ∧ d.name? = some (s.textOf k)) ∧
          ∀ fields, ¬s.Reads a fields b)) ∧
    ((∀ b ∈ s.tree.accessesAround a, ∃ fields, s.Reads a fields b) →
      (w.referent s m).found = w.fieldRead? s a) := by
  have hfound := found_referent_of_access (w := w) hs hm hp ha htarget
  have hfirst : ∀ d, w.fieldRead? s a = some d → (w.referent s m).found = some d := by
    intro d hd
    rw [hfound, Tree.accessesAround, Tree.chain_eq_cons, Tree.accessesAmong_cons_of_access ha,
      List.findSome?_cons, hd]
  refine ⟨hfound, fun d hd => ?_, fun hreads => ?_⟩
  · cases hown : w.fieldRead? s a with
    | some d' =>
      obtain rfl : d' = d := Option.some.inj ((hfirst d' hown).symm.trans hd)
      obtain ⟨hkind, k, hk, hname⟩ := fieldRead?_cases hown
      obtain rfl : m = k := Option.some.inj (hfield.symm.trans hk)
      exact ⟨hkind, .inl hname⟩
    | none =>
      obtain ⟨b, hb, hread⟩ := List.exists_of_findSome?_eq_some (hfound.symm.trans hd)
      obtain ⟨hkind, hname⟩ := fieldRead?_cases hread
      refine ⟨hkind, .inr ⟨rfl, b, hb, hread, hname, fun fields hreads => ?_⟩⟩
      rw [fieldRead?_of_reads_none hs ha hown hreads] at hread
      exact nomatch hread
  · cases hown : w.fieldRead? s a with
    | some d => exact hfirst d hown
    | none =>
      rw [hfound, List.findSome?_eq_none_iff]
      intro b hb
      obtain ⟨fields, hreads⟩ := hreads b hb
      exact fieldRead?_of_reads_none hs ha hown hreads

end Workspace

namespace Sample

def updateNodes : Array TreeNode :=
  #[ ⟨"file", true, none, 0, 54, none⟩,
     ⟨"type_alias_declaration", true, none, 0, 24, some 0⟩,
     ⟨"type", true, none, 0, 4, some 1⟩,
     ⟨"alias", true, none, 5, 10, some 1⟩,
     ⟨"upper_case_identifier", true, some "name", 11, 12, some 1⟩,
     ⟨"eq", true, none, 13, 14, some 1⟩,
     ⟨"type_expression", true, some "typeExpression", 15, 24, some 1⟩,
     ⟨"record_type", true, some "part", 15, 24, some 6⟩,
     ⟨"\x7b", false, none, 15, 16, some 7⟩,
     ⟨"field_type", true, some "fieldType", 17, 22, some 7⟩,
     ⟨"lower_case_identifier", true, some "name", 17, 18, some 9⟩,
     ⟨"colon", true, none, 19, 20, some 9⟩,
     ⟨"type_expression", true, some "typeExpression", 21, 22, some 9⟩,
     ⟨"type_ref", true, some "part", 21, 22, some 12⟩,
     ⟨"upper_case_qid", true, none, 21, 22, some 13⟩,
     ⟨"upper_case_identifier", true, none, 21, 22, some 14⟩,
     ⟨"\x7d", false, none, 23, 24, some 7⟩,
     ⟨"type_annotation", true, none, 26, 31, some 0⟩,
     ⟨"lower_case_identifier", true, some "name", 26, 27, some 17⟩,
     ⟨"colon", true, none, 28, 29, some 17⟩,
     ⟨"type_expression", true, some "typeExpression", 30, 31, some 17⟩,
     ⟨"type_ref", true, some "part", 30, 31, some 20⟩,
     ⟨"upper_case_qid", true, none, 30, 31, some 21⟩,
     ⟨"upper_case_identifier", true, none, 30, 31, some 22⟩,
     ⟨"value_declaration", true, none, 32, 53, some 0⟩,
     ⟨"function_declaration_left", true, some "functionDeclarationLeft", 32, 33, some 24⟩,
     ⟨"lower_case_identifier", true, none, 32, 33, some 25⟩,
     ⟨"eq", true, none, 34, 35, some 24⟩,
     ⟨"field_access_expr", true, some "body", 36, 53, some 24⟩,
     ⟨"record_expr", true, some "target", 36, 51, some 28⟩,
     ⟨"\x7b", false, none, 36, 37, some 29⟩,
     ⟨"record_base_identifier", true, some "baseRecord", 38, 39, some 29⟩,
     ⟨"lower_case_identifier", true, none, 38, 39, some 31⟩,
     ⟨"|", false, none, 40, 41, some 29⟩,
     ⟨"field", true, some "field", 42, 49, some 29⟩,
     ⟨"lower_case_identifier", true, some "name", 42, 43, some 34⟩,
     ⟨"eq", true, none, 44, 45, some 34⟩,
     ⟨"field_access_expr", true, some "expression", 46, 49, some 34⟩,
     ⟨"value_expr", true, some "target", 46, 47, some 37⟩,
     ⟨"value_qid", true, some "name", 46, 47, some 38⟩,
     ⟨"lower_case_identifier", true, none, 46, 47, some 39⟩,
     ⟨"dot", true, none, 47, 48, some 37⟩,
     ⟨".", false, none, 47, 48, some 41⟩,
     ⟨"lower_case_identifier", true, none, 48, 49, some 37⟩,
     ⟨"\x7d", false, none, 50, 51, some 29⟩,
     ⟨"dot", true, none, 51, 52, some 28⟩,
     ⟨".", false, none, 51, 52, some 45⟩,
     ⟨"lower_case_identifier", true, none, 52, 53, some 28⟩ ]

/-- An access to a field that is not there, in the update of a record that is read from. -/
def update : Source where
  file := ⟨"file:///src/Update.elm"⟩
  text := "type alias R = \x7b a : R \x7d\n\nv : R\nv = \x7b v | a = v.b \x7d.a\n".toList
  tree := ⟨updateNodes, Tree.subtreeEnds updateNodes, [], by decide +kernel⟩
  writeable := true
  isDraft := false

theorem grounded_update : update.tree.Grounded :=
  Tree.Regular.grounded (by decide) (by decide +kernel)

end Sample

namespace Workspace

/-- The name in the outer access refers to the field of the alias. -/
theorem referent_access_update :
    let s := Sample.update
    let w := run [.install s false]
    s.tree.Grounded ∧ s.tree.kind 47 = "lower_case_identifier" ∧ s.tree.parent? 47 = some 28 ∧
      s.tree.kind 28 = "field_access_expr" ∧ s.tree.child? "target" 28 ≠ some 47 ∧
      Chain.accessedField? s.tree 28 = some 47 ∧
      (∀ b ∈ s.tree.accessesAround 28, ∃ fields, s.Reads 28 fields b) ∧
      (w.referent s 47).found = w.fieldRead? s 28 ∧
      (w.fieldRead? s 28).map (·.node) = some 9 := by
  intro s w
  have hm : s.tree.kind 47 = "lower_case_identifier" := by decide +kernel
  have hp : s.tree.parent? 47 = some 28 := by decide +kernel
  have ha : s.tree.kind 28 = "field_access_expr" := by decide +kernel
  have htarget : s.tree.child? "target" 28 ≠ some 47 := by decide +kernel
  have hfield : Chain.accessedField? s.tree 28 = some 47 := by decide +kernel
  have haround : s.tree.accessesAround 28 = [28] := by decide +kernel
  have hreads : ∀ b ∈ s.tree.accessesAround 28, ∃ fields, s.Reads 28 fields b := by
    rw [haround, List.forall_mem_singleton]
    exact ⟨[], .start⟩
  have hread : (w.fieldRead? s 28).map (·.node) = some 9 := by decide +kernel
  exact ⟨Sample.grounded_update, hm, hp, ha, htarget, hfield, hreads,
    (referent_access w Sample.grounded_update hm hp ha htarget hfield).2.2 hreads, hread⟩

/-- The name in the inner access refers to the same field, which has another name. -/
theorem not_forall_referent_access :
    ¬∀ (w : Workspace) (s : Source) (a m : Nat) (d : Definition), w.source? s.file = some s →
      s.tree.Grounded → s.tree.kind m = "lower_case_identifier" → s.tree.parent? m = some a →
      s.tree.kind a = "field_access_expr" → s.tree.child? "target" a ≠ some m →
      Chain.accessedField? s.tree a = some m → (w.referent s m).found = some d →
        d.kind = .fieldType ∧ d.name? = some (s.textOf m) := by
  intro hall
  let s := Sample.update
  let w := run [.install s false]
  have hname : ((w.referent s 43).found.bind Definition.name?) = some "a" := by decide +kernel
  obtain ⟨d, hd, hname⟩ := Option.bind_eq_some_iff.1 hname
  obtain ⟨-, htext⟩ := hall w s 37 43 d source?_install_self Sample.grounded_update
    (by decide +kernel) (by decide +kernel) (by decide +kernel) (by decide +kernel)
    (by decide +kernel) hd
  have hne : s.textOf 43 ≠ "a" := by decide +kernel
  exact hne (Option.some.inj (htext.symm.trans hname))

end Workspace
end ElmScope
