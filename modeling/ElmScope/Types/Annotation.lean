import ElmScope.Module.Structure
/-!
# Reading type annotations

Which part of a type annotation belongs to which parameter, and which to the result. A
function type is a list of segments, its arrows and comments left out; the last segment is
the type of the result.
-/
namespace ElmScope
namespace Source

variable (s : Source)

/-- The segments of a function type (`type_segments`). -/
def segments (type : Nat) : List Nat :=
  (s.tree.namedChildren type).filter fun m =>
    s.tree.kind m ≠ "arrow" && !Tree.isComment (s.tree.kind m)

/-- The segments of the type an annotation gives (`annotation_segments`). -/
def annotatedSegments (annotated : Nat) : List Nat :=
  ((s.tree.child? "typeExpression" annotated).map s.segments).getD []

/-- The pattern a parameter node stands for: an identifier for the pattern that holds it (part
of `function_parameter_type`). -/
def parameterPattern? (n : Nat) : Option Nat :=
  if s.tree.kind n = "lower_case_identifier" then
    (s.tree.parent? n).filter fun p => s.tree.kind p = "lower_pattern"
  else some n

/-- The annotated type of a parameter (`function_parameter_type`). There is none without an
annotation, for a node that is not a parameter itself, or when the annotation does not have more
segments than the declaration has parameters. -/
def parameterType? (n : Nat) : Option Nat := do
  let parameter ← s.parameterPattern? n
  let declaration ← s.tree.enclosing? "value_declaration" parameter false
  let annotated ← s.annotationOf? declaration
  let parameters := s.parameters declaration
  let position ← parameters.idxOf? parameter
  let segments := s.annotatedSegments annotated
  if segments.length ≤ parameters.length ∨ segments.length ≤ position + 1 then none
  else segments[position]?

/-- The type of an annotated result: the last segment, out of its parentheses if it has some
(`last_segment_unwrapped`). -/
def resultType? (annotated : Nat) : Option Nat :=
  (s.annotatedSegments annotated).getLast?.bind fun last =>
    if s.tree.kind last = "type_expression" then (s.segments last).getLast? else some last

/-- The annotated type of what a declaration returns (`function_return_type`). -/
def returnType? (declaration : Nat) : Option Nat :=
  (s.annotationOf? declaration).bind s.resultType?

end Source
end ElmScope
