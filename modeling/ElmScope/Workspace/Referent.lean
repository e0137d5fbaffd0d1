import ElmScope.Source.Cursor
import ElmScope.Source.Scope
import ElmScope.Types.Chain
import ElmScope.Workspace.Lookup
/-!
# What a node refers to

An identifier refers to what the scopes around it bind, from the inside out, and otherwise to
what its reference means in the file; a field refers to the field of its record's type alias.

The search for a field asks in turn what other nodes refer to. `step` does one search and
takes a `Checker` for those questions; `referent` stacks as many steps as the tree has nodes,
and two more. A search that ends asks about no node twice, and at most once about another
file, so the stack is never too small for it.
-/
namespace ElmScope
namespace Workspace

variable (w : Workspace)

/-- The identifier a node narrows down to: an expression to what it holds, a path, operator or
pattern to its last identifier, any other node to itself (`identifier_of`). -/
def identifierOf? (t : Tree) (n : Nat) : Option Nat :=
  if t.kind n = "value_expr" then
    match _h : (t.namedChildren n).head? with
    | some m => identifierOf? t m
    | none => none
  else if ["value_qid", "upper_case_qid", "operator", "lower_pattern"].contains (t.kind n) then
    ((t.namedChildren n).filter fun m => Reference.identifierKinds.contains (t.kind m)).getLast?
  else some n
termination_by t.size - n
decreasing_by
  have := Tree.lt_of_mem_children (List.mem_filter.1 (List.mem_of_mem_head? _h)).1
  omega

/-- The field that a field of a record expression sets (`record_field`). -/
def assignedField (c : Checker) (s : Source) (field name : Nat) : Search Definition :=
  (Search.ofOption ((s.tree.parent? field).filter fun p => s.tree.kind p = "record_expr")).bind
    fun record =>
      (Chain.aliasOfRecord c s record).bind fun owner =>
        .ofOption ((Record.ofAlias? owner).bind fun r => r.field? (s.textOf name))

/-- What a plain lower-case name refers to: a binding around it, unless it is qualified, or what
its reference means (part of `lower_case`). -/
def plainReferent (s : Source) (n : Nat) : Search Definition :=
  let reference? :=
    if s.tree.kind n = "record_base_identifier" then
      some (Reference.unqualified (s.textOf n) .value)
    else Reference.ofNode? s n
  (Search.ofOption reference?).bind fun r =>
    match (if r.qualifier?.isNone then s.bindingAround? r.name n else none) with
    | some d => pure d
    | none => w.lookup s r

/-- Whether a node is the first named child of its parent. -/
def leads (t : Tree) (p n : Nat) : Bool := (t.namedChildren p).head? = some n

/-- What a lower-case identifier refers to, by the place it stands in (`lower_case`). -/
def lowerCaseReferent (c : Checker) (s : Source) (n : Nat) : Search Definition :=
  (Search.ofOption (s.tree.parent? n)).bind fun p =>
    let kind := s.tree.kind p
    if kind = "field_access_expr" ∧ s.tree.child? "target" p ≠ some n then
      Chain.fieldOfAccess c s p
    else if kind = "field" ∧ leads s.tree p n then assignedField c s p n
    else if kind = "field_type" then pure ⟨p, s, .fieldType⟩
    else if kind = "type_variable" ∨ kind = "lower_type_name" then
      .ofOption (s.variableDeclaration? p)
    else if kind = "function_declaration_left" ∧ leads s.tree p n then
      .ofOption ((s.tree.parent? p).map fun d => ⟨d, s, .function⟩)
    else if kind = "type_annotation" ∨ kind = "port_annotation" then
      .ofOption (s.declared? (s.textOf n) .value)
    else w.plainReferent s n

/-- The declaration an upper-case identifier is the name of (part of `find_definition`). -/
def namedDeclaration? (s : Source) (n : Nat) : Option Definition :=
  (s.tree.parent? n).bind fun p =>
    match s.tree.kind p with
    | "type_alias_declaration" => some ⟨p, s, .typeAlias⟩
    | "type_declaration" => some ⟨p, s, .type⟩
    | "union_variant" => some ⟨p, s, .unionConstructor⟩
    | _ => none

/-- What an identifier refers to, by its kind (part of `find_definition`). -/
def identifierReferent (c : Checker) (s : Source) (n : Nat) : Search Definition :=
  match s.tree.kind n with
  | "lower_case_identifier" | "record_base_identifier" => w.lowerCaseReferent c s n
  | "upper_case_identifier" =>
    match namedDeclaration? s n with
    | some d => pure d
    | none => w.lookupAt s n
  | "operator_identifier" => w.lookup s (.unqualified (s.textOf n) .value)
  | "lower_type_name" | "type_variable" => .ofOption (s.variableDeclaration? n)
  | _ => .nothing

/-- One search for what a node refers to (`find_definition`). Questions about other nodes go to
`c`. -/
def step (c : Checker) : Checker := fun s node =>
  match identifierOf? s.tree node with
  | some n => (w.identifierReferent c s n).orReport (.definitionNotFound s.file (s.tree.kind n))
  | none => .nothing

/-- A stack of steps, with nobody to ask below the last one. -/
def steps : Nat → Checker
  | 0 => fun _ _ => .nothing
  | k + 1 => w.step (steps k)

/-- What a node refers to (`StructuralDefinitions`). -/
def referent : Checker := fun s n => w.steps (s.tree.size + 2) s n

/-- What the node under a cursor in a file refers to (`definition_at`). -/
def referentAt (file : FileId) (p : Position) : Search Definition :=
  (Search.ofOption (w.source? file)).bind fun s =>
    (Search.ofOption (s.nodeAtPosition? p)).bind fun n =>
      let found := w.referent s n
      ⟨found.found, .definitionRequested file p (s.tree.kind n) :: found.events⟩

end Workspace
end ElmScope
