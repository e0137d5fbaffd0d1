import Mathlib.Data.List.Count
import Mathlib.Data.List.Find
import ElmScope.Proofs.Types.RecordAlias
/-!
# The fields of a record alias

The fields of an alias are read in two ways: as a list of names and types, in the order in which
they are written, and as a map from the names to the fields. If each field has a name and a type,
both hold the same: the names of the map are those in the list, under each name stand as many fields
as the list has entries of the name, and the field that answers for a name is the first one.

* `writtenFields?_eq` — the list has one entry for each field
* `getD_get?_ofNode`, `mem_names_iff` — what the map holds under a name, and under which names
* `writtenFields?_agrees` — the two readings agree
-/
namespace ElmScope
namespace Record

/-- The name of a field. -/
def fieldName? (f : Definition) : Option String := f.source.declaredName? f.node

/-- The name and the type of a field as they are written. -/
def writtenField? (f : Definition) : Option (String × String) :=
  (fieldName? f).bind fun name =>
    (f.source.tree.child? "typeExpression" f.node).map fun type => (name, f.source.textOf type)

/-- The fields in a record, in document order. -/
def fieldsIn (s : Source) (record : Nat) : List Definition :=
  (s.tree.childrenOf ["field_type"] record).map fun f => ⟨f, s, .fieldType⟩

/-- Whether every field in the record of an alias is a named node that has a name and a type. -/
def Complete (d : Definition) : Prop :=
  ∀ record, nodeOfAlias? d = some record → ∀ f ∈ fieldsIn d.source record,
    f.source.tree.isNamed f.node = true ∧ (writtenField? f).isSome

/-- Whether a list of names and types and a map from names hold the same fields: the list has an
entry for each field, and the map is the grouping of the fields by their names. -/
structure Agrees (fields : List Definition) (fs : List (String × String)) (r : Record) : Prop where
  order : fields.Pairwise (·.node < ·.node)
  entries : fields.map writtenField? = fs.map some
  ascending : r.names.Pairwise (· < ·)
  names : ∀ name, name ∈ r.names ↔ name ∈ fs.map (·.1)
  references : ∀ name, (r.fields.get? name).getD [] = fields.filter (fieldName? · = some name)
  count : ∀ name, ((r.fields.get? name).getD []).length = (fs.map (·.1)).count name
  first : ∀ name, ((TypeShape.record r).field? name).map writtenField? =
    (fs.find? (·.1 = name)).map some

variable {s : Source} {d f : Definition} {fields : List Definition} {fs : List (String × String)}
  {name : String} {record : Nat}

/-! ## The written fields -/

theorem fieldName?_eq (h : (writtenField? f).isSome) :
    fieldName? f = (writtenField? f).map (·.1) := by
  rw [writtenField?] at h ⊢
  cases hname : fieldName? f with
  | none => simp [hname] at h
  | some name =>
    cases htype : f.source.tree.child? "typeExpression" f.node with
    | none => simp [hname, htype] at h
    | some type => simp

theorem map_eq_map_some_filterMap {α β : Type} {f : α → Option β} {l : List α}
    (h : ∀ a ∈ l, (f a).isSome) : l.map f = (l.filterMap f).map some := by
  induction l with
  | nil => rfl
  | cons a l ih =>
    obtain ⟨b, hb⟩ := Option.isSome_iff_exists.1 (h a List.mem_cons_self)
    simp [hb, ih fun a ha => h a (List.mem_cons_of_mem _ ha)]

/-- The fields of a record are the same among its named children, if all are named. -/
theorem filter_namedChildren_eq (h : ∀ f ∈ s.tree.childrenOf ["field_type"] record,
    s.tree.isNamed f = true) :
    ((s.tree.namedChildren record).filter fun m => s.tree.kind m = "field_type") =
      s.tree.childrenOf ["field_type"] record := by
  rw [Tree.namedChildren, List.filter_comm, ← List.filter_eq_self.2 h, Tree.childrenOf]
  simp

/-- What is written of an alias is one entry for each field of its record. -/
theorem writtenFields?_eq (h : Complete d) (hrecord : nodeOfAlias? d = some record) :
    ∃ fs, (fieldsIn d.source record).map writtenField? = fs.map some ∧
      writtenFields? d = if fs = [] then none else some fs := by
  refine ⟨(fieldsIn d.source record).filterMap writtenField?,
    map_eq_map_some_filterMap fun f hf => (h record hrecord f hf).2, ?_⟩
  have hnamed : ∀ f ∈ d.source.tree.childrenOf ["field_type"] record,
      d.source.tree.isNamed f = true :=
    fun f hf => (h record hrecord _ (List.mem_map_of_mem hf)).1
  rw [writtenFields?, hrecord, Option.bind_some]
  simp only [filter_namedChildren_eq hnamed, fieldsIn, List.filterMap_map]
  rfl

/-! ## The fields by name -/

theorem getD_get?_ofNode (s : Source) (record : Nat) (name : String) :
    ((ofNode s record).fields.get? name).getD [] =
      (fieldsIn s record).filter (fieldName? · = some name) := by
  rw [(fields_ofNode s record).2 name, fieldsIn, List.filter_map]
  rfl

/-- No name stands for no field. -/
theorem ne_nil_of_mem_entries {e : String × List Definition}
    (he : e ∈ (ofNode s record).fields.entries) : e.2 ≠ [] := by
  unfold ofNode at he
  generalize s.tree.childrenOf ["field_type"] record = nodes at he
  induction nodes using List.reverseRecOn with
  | nil => exact absurd he List.not_mem_nil
  | append_singleton nodes f ih =>
    simp only [List.foldl_append, List.foldl_cons, List.foldl_nil] at he
    cases hname : s.declaredName? f with
    | none =>
      rw [hname] at he
      exact ih he
    | some key =>
      rw [hname] at he
      rcases NameMap.mem_alterList he with ⟨-, old, hvalue⟩ | he
      · simp [hvalue]
      · exact ih he

theorem mem_names_iff :
    name ∈ (ofNode s record).names ↔ ∃ f ∈ fieldsIn s record, fieldName? f = some name := by
  have hget := getD_get?_ofNode s record name
  constructor
  · intro hname
    obtain ⟨⟨_, ds⟩, he, rfl⟩ := List.mem_map.1 hname
    rw [NameMap.get?_of_mem (fields_ofNode s record).1 he, Option.getD_some] at hget
    obtain ⟨f, hf⟩ := List.exists_mem_of_ne_nil _ (hget ▸ ne_nil_of_mem_entries he)
    obtain ⟨hf, hname⟩ := List.mem_filter.1 hf
    exact ⟨f, hf, by simpa using hname⟩
  · rintro ⟨f, hf, hname⟩
    refine NameMap.mem_keys_iff.2 (Option.isSome_iff_ne_none.2 fun hnone => ?_)
    rw [hnone, Option.getD_none] at hget
    exact List.filter_eq_nil_iff.1 hget.symm f hf (by simpa using hname)

theorem pairwise_names (s : Source) (record : Nat) :
    (ofNode s record).names.Pairwise (· < ·) :=
  List.pairwise_map.2 (fields_ofNode s record).1

theorem pairwise_fieldsIn (s : Source) (record : Nat) :
    (fieldsIn s record).Pairwise (·.node < ·.node) :=
  List.pairwise_map.2 (Tree.pairwise_childrenOf _ _ _)

/-! ## Both readings -/

section
variable (hentries : fields.map writtenField? = fs.map some)
include hentries

theorem isSome_of_entries (hf : f ∈ fields) : (writtenField? f).isSome := by
  have hmem : writtenField? f ∈ fs.map some := hentries ▸ List.mem_map_of_mem hf
  obtain ⟨e, -, he⟩ := List.mem_map.1 hmem
  rw [← he, Option.isSome_some]

/-- The fields have the names of their entries. -/
theorem map_fieldName?_eq : fields.map fieldName? = (fs.map (·.1)).map some := by
  calc fields.map fieldName?
    _ = (fields.map writtenField?).map (·.map (·.1)) := by
      rw [List.map_map]
      exact List.map_congr_left fun f hf => fieldName?_eq (isSome_of_entries hentries hf)
    _ = (fs.map (·.1)).map some := by simp [hentries]

/-- A name has as many fields as entries. -/
theorem length_filter_eq_count (name : String) :
    (fields.filter (fieldName? · = some name)).length = (fs.map (·.1)).count name := by
  calc (fields.filter (fieldName? · = some name)).length
    _ = (fields.map fieldName?).countP (· = some name) := by
      rw [List.countP_map, List.countP_eq_length_filter]
      rfl
    _ = (fs.map (·.1)).count name := by
      rw [map_fieldName?_eq hentries, List.countP_map, List.count]
      exact List.countP_congr fun n _ => by simp

/-- The first field of a name is written in the first entry of the name. -/
theorem map_find?_eq (name : String) :
    (fields.find? (fieldName? · = some name)).map writtenField? =
      (fs.find? (·.1 = name)).map some := by
  let named (e : Option (String × String)) : Bool := e.map (·.1) = some name
  have hnamed : fields.find? (fieldName? · = some name) = fields.find? (named ∘ writtenField?) := by
    refine List.find?_congr fun f hf => ?_
    simp [named, fieldName?_eq (isSome_of_entries hentries hf)]
  calc (fields.find? (fieldName? · = some name)).map writtenField?
    _ = (fields.map writtenField?).find? named := by rw [hnamed, List.find?_map]
    _ = (fs.find? (·.1 = name)).map some := by
      rw [hentries, List.find?_map]
      simp [named]

end

theorem field?_ofNode_eq_find? (s : Source) (record : Nat) (name : String) :
    (ofNode s record).field? name = (fieldsIn s record).find? (fieldName? · = some name) := by
  rw [field?_ofNode_eq, fieldsIn, List.find?_map]
  rfl

theorem Agrees.names_eq_nil_iff {r : Record} (h : Agrees fields fs r) : r.names = [] ↔ fs = [] := by
  simp only [List.eq_nil_iff_forall_not_mem, h.names, List.mem_map]
  simp

theorem agrees_ofNode (hentries : (fieldsIn s record).map writtenField? = fs.map some) :
    Agrees (fieldsIn s record) fs (ofNode s record) where
  order := pairwise_fieldsIn s record
  entries := hentries
  ascending := pairwise_names s record
  names name := by
    rw [mem_names_iff, ← List.mem_map, map_fieldName?_eq hentries]
    simp
  references := getD_get?_ofNode s record
  count name := by
    rw [getD_get?_ofNode, length_filter_eq_count hentries]
  first name := by
    rw [← map_find?_eq hentries, ← field?_ofNode_eq_find?]
    rfl

/-- **The two readings of a record alias agree.** If every field in the record of an alias is a
named node with a name and a type, the alias has written fields exactly if it has a record that is
not empty. The written fields are then the names and types of the fields in document order. The
names of the record are those among them, ascending and each one once; under each name stand the
fields of that name in document order, as many as entries have it; and the field that answers for a
name is the one that the first entry of the name is read from, none if no entry has it. -/
theorem writtenFields?_agrees (h : Complete d) :
    ((writtenFields? d).isSome ↔ ∃ r, ofAlias? d = some r ∧ r.names ≠ []) ∧
      ∀ fs r, writtenFields? d = some fs → ofAlias? d = some r →
        ∃ record, nodeOfAlias? d = some record ∧ Agrees (fieldsIn d.source record) fs r := by
  cases hrecord : nodeOfAlias? d with
  | none => simp [writtenFields?, ofAlias?, hrecord]
  | some record =>
    obtain ⟨fs, hentries, hwritten⟩ := writtenFields?_eq h hrecord
    have hagrees := agrees_ofNode hentries
    have halias : ofAlias? d = some (ofNode d.source record) := by
      rw [ofAlias?, hrecord, Option.map_some]
    rw [hwritten, halias]
    by_cases hnil : fs = []
    · simp [hnil, hagrees.names_eq_nil_iff]
    · rw [if_neg hnil]
      refine ⟨by simp [hnil, hagrees.names_eq_nil_iff], ?_⟩
      rintro _ _ ⟨⟩ ⟨⟩
      exact ⟨record, rfl, hagrees⟩

end Record

/-! ## A name that two fields have -/

namespace Sample

def mixedNodes : Array TreeNode :=
  #[ ⟨"file", true, none, 0, 56, none⟩,
     ⟨"type_alias_declaration", true, none, 0, 55, some 0⟩,
     ⟨"type", true, none, 0, 4, some 1⟩,
     ⟨"alias", true, none, 5, 10, some 1⟩,
     ⟨"upper_case_identifier", true, some "name", 11, 16, some 1⟩,
     ⟨"eq", true, none, 17, 18, some 1⟩,
     ⟨"type_expression", true, some "typeExpression", 23, 55, some 1⟩,
     ⟨"record_type", true, some "part", 23, 55, some 6⟩,
     ⟨"\x7b", false, none, 23, 24, some 7⟩,
     ⟨"field_type", true, some "fieldType", 25, 32, some 7⟩,
     ⟨"lower_case_identifier", true, some "name", 25, 26, some 9⟩,
     ⟨"colon", true, none, 27, 28, some 9⟩,
     ⟨"type_expression", true, some "typeExpression", 29, 32, some 9⟩,
     ⟨"type_ref", true, some "part", 29, 32, some 12⟩,
     ⟨"upper_case_qid", true, none, 29, 32, some 13⟩,
     ⟨"upper_case_identifier", true, none, 29, 32, some 14⟩,
     ⟨",", false, none, 32, 33, some 7⟩,
     ⟨"field_type", true, some "fieldType", 34, 42, some 7⟩,
     ⟨"lower_case_identifier", true, some "name", 34, 35, some 17⟩,
     ⟨"colon", true, none, 36, 37, some 17⟩,
     ⟨"type_expression", true, some "typeExpression", 38, 42, some 17⟩,
     ⟨"type_ref", true, some "part", 38, 42, some 20⟩,
     ⟨"upper_case_qid", true, none, 38, 42, some 21⟩,
     ⟨"upper_case_identifier", true, none, 38, 42, some 22⟩,
     ⟨",", false, none, 42, 43, some 7⟩,
     ⟨"field_type", true, some "fieldType", 44, 53, some 7⟩,
     ⟨"lower_case_identifier", true, some "name", 44, 45, some 25⟩,
     ⟨"colon", true, none, 46, 47, some 25⟩,
     ⟨"type_expression", true, some "typeExpression", 48, 53, some 25⟩,
     ⟨"type_ref", true, some "part", 48, 53, some 28⟩,
     ⟨"upper_case_qid", true, none, 48, 53, some 29⟩,
     ⟨"upper_case_identifier", true, none, 48, 53, some 30⟩,
     ⟨"\x7d", false, none, 54, 55, some 7⟩ ]

/-- The alias of a record that has one name twice. -/
def mixed : Source where
  file := ⟨"file:///src/Mixed.elm"⟩
  text := "type alias Mixed =\n    \x7b x : Int, y : Bool, x : Float \x7d\n".toList
  tree := ⟨mixedNodes, Tree.subtreeEnds mixedNodes, [], by decide +kernel⟩
  writeable := true
  isDraft := false

end Sample

namespace Record

/-- The name that two fields have stands for both, and the first of them answers for it. -/
theorem writtenFields?_agrees_mixed :
    let d : Definition := ⟨1, Sample.mixed, .typeAlias⟩
    Complete d ∧
      writtenFields? d = some [("x", "Int"), ("y", "Bool"), ("x", "Float")] ∧
      ∃ r, ofAlias? d = some r ∧ "x" ∈ r.names ∧
        ((r.fields.get? "x").getD []).length = 2 ∧
        ((TypeShape.record r).field? "x").map writtenField? = some (some ("x", "Int")) := by
  intro d
  have hrecord : nodeOfAlias? d = some 7 := by decide +kernel
  have hcomplete : Complete d := by
    intro record hr
    obtain rfl : 7 = record := Option.some.inj (hrecord.symm.trans hr)
    decide +kernel
  have hwritten : writtenFields? d = some [("x", "Int"), ("y", "Bool"), ("x", "Float")] := by
    decide +kernel
  obtain ⟨hiff, hall⟩ := writtenFields?_agrees hcomplete
  obtain ⟨r, hr, -⟩ := hiff.1 (by rw [hwritten]; rfl)
  obtain ⟨record, -, hagrees⟩ := hall _ r hwritten hr
  refine ⟨hcomplete, hwritten, r, hr, (hagrees.names "x").2 (by decide), ?_, ?_⟩
  · rw [hagrees.count "x"]
    decide
  · rw [hagrees.first "x"]
    decide

end Record
end ElmScope
