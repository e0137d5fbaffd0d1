import ElmScope.NameMap
import ElmScope.Definition.Basic
/-!
# Shapes of types

What a type expression looks like from outside: a record with its fields, a named type, or
something else. A record keeps, for each field name, every field that has it.
-/
namespace ElmScope

/-- The fields of a record type by name, in ascending order of the names. Fields of
one name stand in document order. -/
structure Record where
  fields : NameMap (List Definition)

namespace Record

/-- The fields of a `record_type` node (`Record::from_record_type`). -/
def ofNode (s : Source) (record : Nat) : Record where
  fields :=
    (s.tree.childrenOf ["field_type"] record).foldl
      (fun m field =>
        match s.declaredName? field with
        | some name => m.alter name fun old => old.getD [] ++ [⟨field, s, .fieldType⟩]
        | none => m)
      ∅

/-- The `record_type` a type alias stands for: the first one in its body (part of
`Record::from_type_alias`). -/
def nodeOfAlias? (d : Definition) : Option Nat :=
  if d.kind = .typeAlias then
    (d.source.tree.child? "typeExpression" d.node).bind
      (d.source.tree.firstWithin? "record_type")
  else none

/-- The record a type alias stands for (`Record::from_type_alias`). -/
def ofAlias? (d : Definition) : Option Record :=
  (nodeOfAlias? d).map (ofNode d.source)

/-- The names of the fields, ascending (`field_names`). -/
def names (r : Record) : List String := r.fields.keys

/-- The first field of a name (part of `find_field_reference`). -/
def field? (r : Record) (name : String) : Option Definition := (r.fields.get? name).bind List.head?

/-- The written name and type of each field of a type alias, in document order
(`record_fields`). A type alias without any stands for no record. -/
def writtenFields? (d : Definition) : Option (List (String × String)) :=
  (nodeOfAlias? d).bind fun record =>
    let s := d.source
    let fields := (s.tree.namedChildren record).filter fun m => s.tree.kind m = "field_type"
    let written := fields.filterMap fun f =>
      (s.declaredName? f).bind fun name =>
        (s.tree.child? "typeExpression" f).map fun type => (name, s.textOf type)
    if written = [] then none else some written

end Record

/-- A type as seen from outside (`Type`). -/
inductive TypeShape where
  | record (r : Record)
  /-- A named type such as `Int` or `Maybe a`, by its written name. -/
  | named (name : String)
  | unknown

namespace TypeShape

/-- The type expression inside expressions that hold nothing else (part of
`Type::of_type_expression`). -/
def unwrap (t : Tree) (n : Nat) : Nat :=
  if t.kind n = "type_expression" then
    match _h : t.namedChildren n with
    | [inner] => unwrap t inner
    | _ => n
  else n
termination_by t.size - n
decreasing_by
  have hm : inner ∈ t.namedChildren n := by simp [_h]
  have := Tree.lt_of_mem_children (List.mem_filter.1 hm).1
  omega

/-- The shape of a type expression (`Type::of_type_expression`). -/
def ofNode (s : Source) (n : Nat) : TypeShape :=
  let n := unwrap s.tree n
  if s.tree.kind n = "record_type" then record (Record.ofNode s n)
  else if s.tree.kind n = "type_ref" then
    match (s.tree.child? "name" n).or (s.tree.firstChild? "upper_case_qid" n) with
    | some name => named (s.textOf name)
    | none => unknown
  else unknown

/-- The first field of a name, in a record (`find_field_reference`). -/
def field? (shape : TypeShape) (name : String) : Option Definition :=
  match shape with
  | record r => r.field? name
  | named _ | unknown => none

end TypeShape
end ElmScope
