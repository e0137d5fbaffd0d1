import ElmScope.Types.Annotation
import ElmScope.Types.Shape
import ElmScope.Search
/-!
# From expressions to type aliases

Rules that lead from an expression to the type alias that describes its value: from a
parameter to its part of the annotation, from a function to its result, from a record to its
alias, from a field access to the field. Each rule may ask, for one node, what the node
refers to; who answers that is a parameter (`Checker`).

The rules go from a field access to its target and from parentheses to what they hold, so
always to a node further on in the tree.
-/
namespace ElmScope

/-- Whoever answers what a node of a source refers to (`FindDefinition`). -/
abbrev Checker := Source → Nat → Search Definition

namespace Chain

/-- Where the type of a definition is written. -/
inductive TypeSite where
  /-- The definition is a type alias itself. -/
  | typeAlias (d : Definition)
  /-- In a type expression of the definition's source. -/
  | expression (n : Nat) (s : Source)

/-- Where the type of a definition is written (`type_site`). -/
def siteOf? (d : Definition) : Option TypeSite :=
  let within (n : Option Nat) : Option TypeSite := n.map fun n => .expression n d.source
  match d.kind with
  | .typeAlias => some (.typeAlias d)
  | .functionParameter => within (d.source.parameterType? d.node)
  | .function => within (d.source.returnType? d.node)
  | .port => within (d.source.resultType? d.node)
  | .fieldType => within (d.source.tree.child? "typeExpression" d.node)
  | .type | .operator | .module | .casePattern | .anonymousFunctionParameter
  | .unionConstructor | .typeVariable => none

/-- The name of the first type a type expression mentions (part of
`type_alias_of_type_expression`). -/
def typeName? (t : Tree) (type : Nat) : Option Nat :=
  ((t.firstWithin? "upper_case_qid" type).bind fun path =>
      ((t.namedChildren path).filter fun m => t.kind m = "upper_case_identifier").getLast?).or
    (t.firstWithin? "upper_case_identifier" type)

/-- Go on with type aliases only (part of `type_alias_of_type_expression`). -/
def onlyAlias (x : Search Definition) : Search Definition :=
  x.bind fun d => if d.kind = .typeAlias then pure d else .nothing

/-- The type alias a type expression mentions first (`type_alias_of_type_expression`). -/
def aliasOfType (c : Checker) (s : Source) (type : Nat) : Search Definition :=
  match typeName? s.tree type with
  | some name => onlyAlias (c s name)
  | none => .nothing

/-- The type alias that describes what a definition binds (`type_alias_of_definition`). -/
def aliasOfDefinition (c : Checker) (d : Definition) : Search Definition :=
  match siteOf? d with
  | some (.typeAlias a) => pure a
  | some (.expression n s) => aliasOfType c s n
  | none => .nothing

/-- The type alias that describes what a node refers to. -/
def aliasOfReferent (c : Checker) (s : Source) (n : Nat) : Search Definition :=
  (c s n).bind (aliasOfDefinition c)

/-- The record that an update starts from, written in a node or beside it
(`record_base_identifier`). -/
def recordBase? (t : Tree) (n : Nat) : Option Nat :=
  let baseIn (m : Nat) : Option Nat :=
    (t.namedChildren m).find? fun k => t.kind k = "record_base_identifier"
  if t.kind n = "record_base_identifier" then some n
  else (baseIn n).or ((t.parent? n).bind baseIn)

/-- The declaration whose body evaluates to a node: through parentheses and the bodies of `let`
expressions (`returned_by`). -/
def returnedBy? (t : Tree) (n : Nat) : Option Nat :=
  match _h : t.parent? n with
  | none => none
  | some p =>
    if t.kind p = "parenthesized_expr" then returnedBy? t p
    else if t.kind p = "let_in_expr" ∧ t.child? "body" p = some n then returnedBy? t p
    else if t.kind p = "value_declaration" ∧ t.child? "body" p = some n then some p
    else none
termination_by n
decreasing_by all_goals exact Tree.parent_lt _h

/-- The type alias of a record, of the base of an update, or of the target of a field access (part
of `type_alias_of_record`). `ofTarget` finds the alias of the target expression.

A base decides where there is one. Otherwise a field access asks its target, the body of a
function has the type the function returns, and any other node is asked what it refers to. -/
def aliasOfRecordWith (c : Checker) (s : Source) (ofTarget : Nat → Search Definition) (n : Nat) :
    Search Definition :=
  match recordBase? s.tree n with
  | some base => aliasOfReferent c s base
  | none =>
    if s.tree.kind n = "field_access_expr" then
      (Search.ofOption (s.tree.child? "target" n)).bind ofTarget
    else
      match returnedBy? s.tree n with
      | some declaration => (Search.ofOption (s.returnType? declaration)).bind (aliasOfType c s)
      | none => aliasOfReferent c s n

/-- The node that names the field a field access reads (part of `field_in_access`). -/
def accessedField? (t : Tree) (access : Nat) : Option Nat :=
  (t.child? "field" access).or
    ((t.namedChildren access).filter fun m => t.kind m = "lower_case_identifier").getLast?

/-- The field a field access reads, from the alias of the record it reads from (part of
`field_in_access`). -/
def fieldOf (s : Source) (access : Nat) (aliasOfRecord : Nat → Search Definition) :
    Search Definition :=
  (Search.ofOption (accessedField? s.tree access)).bind fun field =>
    (aliasOfRecord access).bind fun owner =>
      .ofOption ((Record.ofAlias? owner).bind fun r => r.field? (s.textOf field))

/-- The expression inside parentheses (part of `type_alias_of_expression`). -/
def parenthesized? (t : Tree) (n : Nat) : Option Nat :=
  (t.namedChildren n).find? fun m => !Tree.isComment (t.kind m)

/-- The type alias of the value of an expression (`type_alias_of_expression`). -/
def aliasOfExpression (c : Checker) (s : Source) (e : Nat) : Search Definition :=
  let further (n : Nat) : Search Definition :=
    if _h : e < n ∧ n < s.tree.size then aliasOfExpression c s n else .nothing
  if s.tree.kind e = "parenthesized_expr" then
    (Search.ofOption (parenthesized? s.tree e)).bind further
  else if s.tree.kind e = "field_access_expr" then
    (fieldOf s e (aliasOfRecordWith c s further)).bind (aliasOfDefinition c)
  else if s.tree.kind e = "record_expr" then aliasOfRecordWith c s further e
  else aliasOfReferent c s e
termination_by s.tree.size - e
decreasing_by omega

/-- The type alias of a record, of the base of an update, or of the target of a field access
(`type_alias_of_record`). -/
def aliasOfRecord (c : Checker) (s : Source) (n : Nat) : Search Definition :=
  aliasOfRecordWith c s (aliasOfExpression c s) n

/-- The field a field access reads (`field_in_access`). -/
def fieldInAccess (c : Checker) (s : Source) (access : Nat) : Search Definition :=
  fieldOf s access (aliasOfRecord c s)

/-- The field read by the first access among some nodes that leads to one (part of
`field_type_of_access`). A declaration ends the search. -/
def fieldAmong (c : Checker) (s : Source) : List Nat → Search Definition
  | [] => .nothing
  | n :: rest =>
    let here : Search Definition :=
      if s.tree.kind n = "field_access_expr" then fieldInAccess c s n else .nothing
    here.orElse fun _ =>
      if s.tree.kind n = "value_declaration" ∨ s.tree.kind n = "file" then .nothing
      else fieldAmong c s rest

/-- The field read by the access a node belongs to, the innermost that leads to one
(`field_type_of_access`). -/
def fieldOfAccess (c : Checker) (s : Source) (n : Nat) : Search Definition :=
  fieldAmong c s (s.tree.chain n)

/-- The type alias of the field that a field access reads (`type_alias_of_record_field`). -/
def aliasOfField (c : Checker) (s : Source) (n : Nat) : Search Definition :=
  (fieldOfAccess c s n).bind (aliasOfDefinition c)

/-- The type alias of the subject of a `case`, given the whole expression or the subject
(`type_alias_of_case`). -/
def aliasOfSubject (c : Checker) (s : Source) (n : Nat) : Search Definition :=
  if s.tree.kind n = "case_of_expr" then
    (Search.ofOption (s.tree.child? "expr" n)).bind (aliasOfExpression c s)
  else aliasOfExpression c s n

end Chain
end ElmScope
