import ElmScope.Source.Basic
/-!
# From a place to a node

What stands under a cursor, what stands before it, and what starts a neighbouring line.

* `namedAt` — the innermost named node that covers a range
* `nodeAt` — the node under a cursor, where a cursor right after an identifier is on it
* `leafBefore?` — the last token that starts before a place
-/
namespace ElmScope
namespace Source

variable (s : Source)

/-- Whether a child is passed over on the way to a range: it ends before the range ends, or
it touches the range's start from the left only. -/
def isPassed (a b : Point) (n : Nat) : Bool :=
  let e := s.stopPoint n
  e < b || (if s.startPoint n = e then e < a else e ≤ a)

/-- Follow the first child that is not passed over, as long as it starts in time, and keep
the last named node on the way. -/
def descend (a b : Point) (named n : Nat) : Nat :=
  match _h : (s.tree.children n).find? fun m => !s.isPassed a b m with
  | none => named
  | some m =>
    if a < s.startPoint m then named else descend a b (if s.tree.isNamed m then m else named) m
termination_by s.tree.size - n
decreasing_by
  have := Tree.lt_of_mem_children (List.mem_of_find?_eq_some _h)
  omega

/-- The innermost named node of the subtree of `n` that covers the range from `a` to `b`
(`named_descendant_for_point_range`). -/
def namedAt (a b : Point) (n : Nat) : Nat := s.descend a b n n

/-- Whether the character before a place belongs to an identifier (part of `node_at_position`). -/
def followsIdentifier (p : Point) : Bool :=
  (s.text.lineText? p.row).any fun line =>
    (line.charEndingAt? p.column).any fun c => c.isAlphanum || c = '_'

/-- The named node under a cursor (`node_at_position`). A cursor right after an identifier
character is on the identifier, not on what starts there. -/
def nodeAt (p : Point) : Nat :=
  if 0 < p.column ∧ s.followsIdentifier p then s.namedAt ⟨p.row, p.column - 1⟩ p Tree.root
  else s.namedAt p p Tree.root

/-- The named node under an editor's cursor (`node_at_lsp_position`). -/
def nodeAtPosition? (p : Position) : Option Nat := (s.text.pointOf? p).map s.nodeAt

/-- The last leaf below `n` that covers text and starts before a place (`previous_node`). A
token around the place counts; so does one that ends there. -/
def leafBefore? (p : Point) (n : Nat) : Option Nat :=
  let nodes := s.tree.children n
  if nodes = [] then some n
  else
    match _h : nodes.find? fun m => s.tree.hasTokens m && p < s.stopPoint m with
    | none => (s.tree.lastWithTokens? nodes).bind s.tree.rightmostLeaf?
    | some m =>
      if p ≤ s.startPoint m then
        (s.tree.lastWithTokens? (nodes.takeWhile (· < m))).bind s.tree.rightmostLeaf?
      else leafBefore? p m
termination_by s.tree.size - n
decreasing_by
  have := Tree.lt_of_mem_children (List.mem_of_find?_eq_some _h)
  omega

/-- The named node of the subtree of `n` at the start of the line before a place, the first line
standing for the one before it (`named_node_on_line_before`). -/
def namedOnLineBefore (p : Point) (n : Nat) : Nat :=
  let start : Point := ⟨p.row - 1, 0⟩
  s.namedAt start start n

/-- The named node of the subtree of `n` at the start of the line after a place, the last line
of the subtree standing for any later one (`named_node_on_line_after`). -/
def namedOnLineAfter (p : Point) (n : Nat) : Nat :=
  let start : Point := ⟨min (p.row + 1) (s.stopPoint n).row, 0⟩
  s.namedAt start start n

end Source
end ElmScope
