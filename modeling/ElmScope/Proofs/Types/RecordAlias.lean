import ElmScope.Proofs.Referent.Origin
import ElmScope.Proofs.Tree.Within
/-!
# Which record an alias stands for

A record of an alias is a map from names to fields. Asked for one name it answers the first field
that declares it (`bind_field?_eq_firstField?`), so the map can be forgotten.

The record of an alias is sought anywhere in the body, and the shape of a type only looks through
parentheses. The two agree on a body that is a record and on one that holds none; on a body that
holds a record inside something else they do not.

* `firstWithin?_unwrap` — looking through parentheses passes no record type
* `ofAlias?_iff_shape` — where the two ways to read an alias agree
-/
namespace ElmScope

namespace Tree

/-- Whether tokens are leaves, and a record type is no token. -/
def Tokenized (t : Tree) : Prop :=
  ∀ m < t.size, t.isNamed m = false → t.isLeaf m = true ∧ t.kind m ≠ "record_type"

instance (t : Tree) : Decidable t.Tokenized := inferInstanceAs (Decidable (∀ _ < _, _ → _))

variable {t : Tree} {m n inner : Nat}

/-- A type expression that holds one named node has its record types in that node. -/
theorem Tokenized.mem_within_iff_of_single (h : t.Tokenized) (hn : t.kind n = "type_expression")
    (hinner : t.namedChildren n = [inner]) :
    (m ∈ n :: t.below n ∧ t.kind m = "record_type") ↔
      (m ∈ inner :: t.below inner ∧ t.kind m = "record_type") := by
  have hsize : n < t.size := lt_size_of_kind hn (by decide)
  have hchild : inner ∈ t.children n := (List.mem_filter.1 (hinner ▸ List.mem_singleton_self _)).1
  obtain ⟨hlt, hpos, hend, -⟩ := nests_of_shapeParent? (mem_children_iff.1 hchild)
  simp only [List.mem_cons, mem_below_iff]
  constructor
  · rintro ⟨rfl | hm, hk⟩
    · exact absurd (hn.symm.trans hk) (by decide)
    refine ⟨?_, hk⟩
    have hm := mem_below_iff.2 hm
    have hblock := lt_endOf (lt_size_of_mem_below hsize hm)
    obtain ⟨k, hchild, hkm, hle⟩ := exists_child_of_mem_below hsize hm
    cases hnamed : t.isNamed k with
    | true =>
      have hk : k ∈ t.namedChildren n := List.mem_filter.2 ⟨hchild, hnamed⟩
      obtain rfl : k = inner := List.mem_singleton.1 (hinner ▸ hk)
      omega
    | false =>
      -- A token has nothing below it, so the record type would be the token.
      obtain ⟨hleaf, htoken⟩ := h k (lt_of_mem_children hchild).2 hnamed
      obtain rfl : k = m := by
        simp only [isLeaf, decide_eq_true_eq] at hleaf
        omega
      exact absurd hk htoken
  · rintro ⟨hm, hk⟩
    refine ⟨.inr ?_, hk⟩
    omega

end Tree

namespace TypeShape

variable {s : Source} {t : Tree} {n inner : Nat} {r : Record}

theorem unwrap_of_single (hn : t.kind n = "type_expression")
    (hinner : t.namedChildren n = [inner]) :
    unwrap t n = unwrap t inner := by
  rw [unwrap, if_pos hn]
  split
  · next i hi =>
    rw [hinner] at hi
    obtain rfl : inner = i := (List.cons.inj hi).1
    rfl
  · next hne => exact absurd hinner (hne inner)

theorem unwrap_of_not_single (h : t.kind n = "type_expression" → ∀ i, t.namedChildren n ≠ [i]) :
    unwrap t n = n := by
  rw [unwrap]
  split
  · next hn =>
    split
    · next i hi => exact absurd hi (h hn i)
    · rfl
  · rfl

/-- Looking through parentheses passes no record type. -/
theorem firstWithin?_unwrap (h : t.Tokenized) (n : Nat) :
    t.firstWithin? "record_type" (unwrap t n) = t.firstWithin? "record_type" n := by
  -- What parentheses hold stands further on in the tree.
  induction hk : t.size - n using Nat.strongRecOn generalizing n with
  | ind k ih =>
    by_cases hsingle : t.kind n = "type_expression" ∧ ∃ i, t.namedChildren n = [i]
    · obtain ⟨hn, i, hi⟩ := hsingle
      have hchild := (List.mem_filter.1 (hi ▸ List.mem_singleton_self i)).1
      have := Tree.lt_of_mem_children hchild
      rw [unwrap_of_single hn hi, ih (t.size - i) (by omega) i rfl]
      exact Tree.firstWithin?_congr fun m => (h.mem_within_iff_of_single hn hi).symm
    · rw [unwrap_of_not_single fun hn i hi => hsingle ⟨hn, i, hi⟩]

theorem ofNode_eq_record_iff : ofNode s n = record r ↔
    s.tree.kind (unwrap s.tree n) = "record_type" ∧ Record.ofNode s (unwrap s.tree n) = r := by
  unfold ofNode
  dsimp only
  split
  · next hk => simp [hk]
  · next hk =>
    refine iff_of_false ?_ fun h => hk h.1
    split
    · split <;> exact nofun
    · exact nofun

end TypeShape

namespace Record

variable {d : Definition} {r : Record} {body : Nat}

/-! ## Fields by name -/

/-- The first field of a name in the record that an alias stands for. -/
def firstField? (d : Definition) (name : String) : Option Definition :=
  (nodeOfAlias? d).bind fun record =>
    ((d.source.tree.childrenOf ["field_type"] record).find? fun f =>
      d.source.declaredName? f = some name).map fun f => ⟨f, d.source, .fieldType⟩

theorem field?_ofNode_eq (s : Source) (record : Nat) (name : String) :
    (ofNode s record).field? name =
      ((s.tree.childrenOf ["field_type"] record).find? fun f =>
        s.declaredName? f = some name).map fun f => ⟨f, s, .fieldType⟩ := by
  have hfields := (fields_ofNode s record).2 name
  have hhead : (ofNode s record).field? name =
      (((ofNode s record).fields.get? name).getD []).head? := by
    rw [field?]
    cases (ofNode s record).fields.get? name <;> rfl
  rw [hhead, hfields, List.head?_map, List.head?_filter]

/-- A record answers for a name what its first field of the name is. -/
theorem bind_field?_eq_firstField? (d : Definition) (name : String) :
    ((ofAlias? d).bind fun r => r.field? name) = firstField? d name := by
  rw [ofAlias?, firstField?, Option.bind_map]
  exact congrArg _ (funext fun record => field?_ofNode_eq d.source record name)

/-! ## Aliases of records -/

/-- The record of an alias is the first one within its body, looked at without parentheses. -/
theorem nodeOfAlias?_eq (ht : d.source.tree.Tokenized) (hk : d.kind = .typeAlias)
    (hbody : d.source.tree.child? "typeExpression" d.node = some body) :
    nodeOfAlias? d =
      d.source.tree.firstWithin? "record_type" (TypeShape.unwrap d.source.tree body) := by
  rw [nodeOfAlias?, if_pos hk, hbody, Option.bind_some, TypeShape.firstWithin?_unwrap ht]

theorem holds_of_ofAlias? (hk : d.kind = .typeAlias)
    (hbody : d.source.tree.child? "typeExpression" d.node = some body) :
    (ofAlias? d).isSome ↔ d.source.tree.Holds "record_type" body := by
  rw [ofAlias?, Option.isSome_map, nodeOfAlias?, if_pos hk, hbody, Option.bind_some,
    Tree.firstWithin?_isSome_iff]

theorem isSome_of_writtenFields? (h : (writtenFields? d).isSome) : (ofAlias? d).isSome := by
  obtain ⟨fields, hfields⟩ := Option.isSome_iff_exists.1 h
  obtain ⟨record, hrecord, -⟩ := Option.bind_eq_some_iff.1 hfields
  rw [ofAlias?, hrecord, Option.map_some, Option.isSome_some]

/-- **An alias is read as a record by its shape and by its fields alike, unless its body holds a
record inside something else.** The two ways to read the alias give the same record, and fields are
written only where there is one, exactly if the body holds no record type or is one once its
parentheses are taken away. -/
theorem ofAlias?_iff_shape (ht : d.source.tree.Tokenized) (hk : d.kind = .typeAlias)
    (hbody : d.source.tree.child? "typeExpression" d.node = some body) :
    ((∀ r, ofAlias? d = some r ↔ TypeShape.ofNode d.source body = .record r) ∧
      ((writtenFields? d).isSome → ∃ r, TypeShape.ofNode d.source body = .record r)) ↔
    (d.source.tree.Holds "record_type" body →
      d.source.tree.kind (TypeShape.unwrap d.source.tree body) = "record_type") := by
  constructor
  · rintro ⟨hsame, -⟩ hholds
    obtain ⟨r, hr⟩ := Option.isSome_iff_exists.1 ((holds_of_ofAlias? hk hbody).2 hholds)
    exact (TypeShape.ofNode_eq_record_iff.1 ((hsame r).1 hr)).1
  · intro hrecord
    have hsame : ∀ r, ofAlias? d = some r ↔ TypeShape.ofNode d.source body = .record r := by
      intro r
      rw [TypeShape.ofNode_eq_record_iff]
      by_cases hunwrap : d.source.tree.kind (TypeShape.unwrap d.source.tree body) = "record_type"
      · rw [ofAlias?, nodeOfAlias?_eq ht hk hbody, Tree.firstWithin?_self hunwrap]
        simp [hunwrap]
      · have hnone : ¬(ofAlias? d).isSome :=
          fun h => hunwrap (hrecord ((holds_of_ofAlias? hk hbody).1 h))
        refine iff_of_false (fun hr => hnone ?_) fun h => hunwrap h.1
        rw [hr, Option.isSome_some]
    refine ⟨hsame, fun hwritten => ?_⟩
    obtain ⟨r, hr⟩ := Option.isSome_iff_exists.1 (isSome_of_writtenFields? hwritten)
    exact ⟨r, (hsame r).1 hr⟩

end Record

namespace Sample

def rowNodes : Array TreeNode :=
  #[ ⟨"file", true, none, 0, 75, none⟩,
     ⟨"type_alias_declaration", true, none, 0, 34, some 0⟩,
     ⟨"type", true, none, 0, 4, some 1⟩,
     ⟨"alias", true, none, 5, 10, some 1⟩,
     ⟨"upper_case_identifier", true, some "name", 11, 14, some 1⟩,
     ⟨"eq", true, none, 15, 16, some 1⟩,
     ⟨"type_expression", true, some "typeExpression", 21, 34, some 1⟩,
     ⟨"(", false, none, 21, 22, some 6⟩,
     ⟨"type_expression", true, some "part", 22, 33, some 6⟩,
     ⟨"record_type", true, some "part", 22, 33, some 8⟩,
     ⟨"\x7b", false, none, 22, 23, some 9⟩,
     ⟨"field_type", true, some "fieldType", 24, 31, some 9⟩,
     ⟨"lower_case_identifier", true, some "name", 24, 25, some 11⟩,
     ⟨"colon", true, none, 26, 27, some 11⟩,
     ⟨"type_expression", true, some "typeExpression", 28, 31, some 11⟩,
     ⟨"type_ref", true, some "part", 28, 31, some 14⟩,
     ⟨"upper_case_qid", true, none, 28, 31, some 15⟩,
     ⟨"upper_case_identifier", true, none, 28, 31, some 16⟩,
     ⟨"\x7d", false, none, 32, 33, some 9⟩,
     ⟨")", false, none, 33, 34, some 6⟩,
     ⟨"type_alias_declaration", true, none, 36, 74, some 0⟩,
     ⟨"type", true, none, 36, 40, some 20⟩,
     ⟨"alias", true, none, 41, 46, some 20⟩,
     ⟨"upper_case_identifier", true, some "name", 47, 51, some 20⟩,
     ⟨"eq", true, none, 52, 53, some 20⟩,
     ⟨"type_expression", true, some "typeExpression", 58, 74, some 20⟩,
     ⟨"type_ref", true, none, 58, 74, some 25⟩,
     ⟨"upper_case_qid", true, none, 58, 62, some 26⟩,
     ⟨"upper_case_identifier", true, none, 58, 62, some 27⟩,
     ⟨"record_type", true, some "part", 63, 74, some 26⟩,
     ⟨"\x7b", false, none, 63, 64, some 29⟩,
     ⟨"field_type", true, some "fieldType", 65, 72, some 29⟩,
     ⟨"lower_case_identifier", true, some "name", 65, 66, some 31⟩,
     ⟨"colon", true, none, 67, 68, some 31⟩,
     ⟨"type_expression", true, some "typeExpression", 69, 72, some 31⟩,
     ⟨"type_ref", true, some "part", 69, 72, some 34⟩,
     ⟨"upper_case_qid", true, none, 69, 72, some 35⟩,
     ⟨"upper_case_identifier", true, none, 69, 72, some 36⟩,
     ⟨"\x7d", false, none, 73, 74, some 29⟩ ]

/-- A record in parentheses, and a list of records. -/
def rows : Source where
  file := ⟨"file:///src/Rows.elm"⟩
  text := ("type alias Row =\n    (\x7b x : Int \x7d)\n\n" ++
    "type alias Rows =\n    List \x7b x : Int \x7d\n").toList
  tree := ⟨rowNodes, Tree.subtreeEnds rowNodes, [], by decide +kernel⟩
  writeable := true
  isDraft := false

theorem tokenized_rows : rows.tree.Tokenized := by decide +kernel

end Sample

namespace Record

/-- Parentheses around a record change nothing. -/
theorem ofAlias?_iff_shape_row :
    let d : Definition := ⟨1, Sample.rows, .typeAlias⟩
    Sample.rows.tree.Tokenized ∧ Sample.rows.tree.child? "typeExpression" 1 = some 6 ∧
      Sample.rows.tree.kind (TypeShape.unwrap Sample.rows.tree 6) = "record_type" ∧
      ∀ r, ofAlias? d = some r ↔ TypeShape.ofNode Sample.rows 6 = .record r := by
  intro d
  have hbody : Sample.rows.tree.child? "typeExpression" 1 = some 6 := by decide +kernel
  have hunwrap : Sample.rows.tree.kind (TypeShape.unwrap Sample.rows.tree 6) = "record_type" := by
    decide +kernel
  have hiff := ofAlias?_iff_shape (d := d) Sample.tokenized_rows rfl hbody
  exact ⟨Sample.tokenized_rows, hbody, hunwrap, (hiff.2 fun _ => hunwrap).1⟩

/-- A list of records is no record, and yet the alias of one has fields. -/
theorem not_forall_ofAlias?_iff_shape :
    ¬ ∀ (d : Definition) (body : Nat), d.source.tree.Tokenized → d.kind = .typeAlias →
      d.source.tree.child? "typeExpression" d.node = some body →
      (∀ r, ofAlias? d = some r ↔ TypeShape.ofNode d.source body = .record r) ∧
        ((writtenFields? d).isSome → ∃ r, TypeShape.ofNode d.source body = .record r) := by
  intro h
  have hbody : Sample.rows.tree.child? "typeExpression" 20 = some 25 := by decide +kernel
  obtain ⟨-, hwritten⟩ := h ⟨20, Sample.rows, .typeAlias⟩ 25 Sample.tokenized_rows rfl hbody
  obtain ⟨r, hr⟩ := hwritten (by decide +kernel)
  have hunwrap := (TypeShape.ofNode_eq_record_iff.1 hr).1
  exact absurd hunwrap (by decide +kernel)

end Record
end ElmScope
