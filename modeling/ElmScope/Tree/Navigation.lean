import ElmScope.Tree.Basic
/-!
# Moving in a syntax tree

Searches by kind, down a subtree and up the chain of parents, and the step from leaf to leaf.
A search that finds nothing answers `none` or the empty list.

Searches down read a block of numbers from left to right, so they answer in document order.
Searches up read `chain`, the node and its ancestors, innermost first.
-/
namespace ElmScope
namespace Tree

variable (t : Tree)

/-- Comments may stand anywhere and mean nothing (`is_comment`). -/
def isComment (kind : String) : Bool := kind = "line_comment" || kind = "block_comment"

/-! ## Down -/

/-- The first child of a kind (`first_child_of_kind`). -/
def firstChild? (kind : String) (n : Nat) : Option Nat :=
  (t.children n).find? fun m => t.kind m = kind

/-- The children of some kinds (`children_of_kinds`). -/
def childrenOf (kinds : List String) (n : Nat) : List Nat :=
  (t.children n).filter fun m => kinds.contains (t.kind m)

/-- The nodes of a kind below `n` (`descendants_of_kind`). -/
def descendants (kind : String) (n : Nat) : List Nat := (t.below n).filter fun m => t.kind m = kind

/-- The first node of a kind in the subtree of `n`, `n` included
(`first_descendant_or_self_of_kind`). -/
def firstWithin? (kind : String) (n : Nat) : Option Nat :=
  (n :: t.below n).find? fun m => t.kind m = kind

/-- The leaf a subtree starts with (`leftmost_leaf`). -/
def leftmostLeaf (n : Nat) : Nat :=
  match _h : (t.children n).head? with
  | none => n
  | some m => leftmostLeaf m
termination_by t.size - n
decreasing_by
  have := lt_of_mem_children (List.mem_of_mem_head? _h)
  omega

/-- Whether a node covers any text (`has_tokens`). A node put in to recover from an error does
not. -/
def hasTokens (n : Nat) : Bool := t.stop n ≠ t.start n

/-- The last of some nodes that covers text (`rightmost_with_tokens`). -/
def lastWithTokens? (nodes : List Nat) : Option Nat := nodes.reverse.find? t.hasTokens

/-- The leaf a subtree ends with, nodes without text aside (`rightmost_leaf`). -/
def rightmostLeaf? (n : Nat) : Option Nat :=
  if t.children n = [] then some n
  else
    match _h : t.lastWithTokens? (t.children n) with
    | none => none
    | some m => rightmostLeaf? m
termination_by t.size - n
decreasing_by
  have := lt_of_mem_children (List.mem_reverse.1 (List.mem_of_find?_eq_some _h))
  omega

/-! ## Up -/

/-- A node and its ancestors, innermost first. -/
def chain (n : Nat) : List Nat :=
  match _h : t.parent? n with
  | none => [n]
  | some p => n :: chain p
termination_by n
decreasing_by exact parent_lt _h

/-- The ancestors of a node, innermost first. -/
def ancestors (n : Nat) : List Nat := (t.chain n).tail

/-- Whether a node stands directly below the root (`is_top_level`). -/
def isTopLevel (n : Nat) : Bool := (t.parent? n).any fun p => (t.parent? p).isNone

/-- The innermost node of a kind on the chain of `n` (`ancestor_of_kind`). When only the top
level counts, the node must stand directly below the root. -/
def enclosing? (kind : String) (n : Nat) (topLevelOnly : Bool) : Option Nat :=
  (t.chain n).find? fun m => t.kind m = kind && (!topLevelOnly || t.isTopLevel m)

/-- The nodes of a kind on the chain of `n`, innermost first (`ancestors_of_kind`). -/
def enclosingAll (kind : String) (n : Nat) : List Nat := (t.chain n).filter fun m => t.kind m = kind

/-! ## Along -/

/-- The leaf after the subtree of `n`: up to the first node with a sibling after it, then down
that sibling's left edge (`next_node`). -/
def nextLeaf? (n : Nat) : Option Nat := ((t.chain n).findSome? t.nextSibling?).map t.leftmostLeaf

/-- The leaves from `n` on, as long as the next one lies further on (part of `leaves`). -/
def leavesFrom (n : Nat) : List Nat :=
  match t.nextLeaf? n with
  | none => [n]
  | some m => if _h : n < m ∧ m < t.size then n :: leavesFrom m else [n]
termination_by t.size - n
decreasing_by omega

/-- The leaves from the left edge of `n` to the end of the file. -/
def leaves (n : Nat) : List Nat := t.leavesFrom (t.leftmostLeaf n)

/-- The named sibling before a node, comments aside (`previous_named_sibling`). -/
def namedBefore? (n : Nat) : Option Nat :=
  match _h : t.prevNamedSibling? n with
  | none => none
  | some m => if isComment (t.kind m) then namedBefore? m else some m
termination_by n
decreasing_by exact prevNamedSibling_lt _h

end Tree
end ElmScope
