/-!
# Syntax trees

A concrete syntax tree, tokens included. Its nodes are numbered in the order in which a
reader meets them: a node before its children, a child's subtree before the next child. So
the subtree of node `n` is the block of numbers from `n` up to `endOf n`, and document order
is the order of numbers.

A tree is built from its nodes and their parents by `ofNodes?`, which refuses a numbering that
is not of this kind; every `Tree` therefore carries the nesting of its blocks (`WellNested`).
A parser may report a few links that are not the ones the shape gives (an invisible node
stands between); such a link is kept in `irregular` and wins over the shape.

* `mem_children_iff` — the children of a node are the nodes with that parent
* `parent_lt`, `lt_of_mem_children` — walks up go down in number, walks down go up
-/
namespace ElmScope

/-- One node as the parser reports it: its kind, whether it is named (a token is not), its
role in the parent, the bytes it covers, counted in 32 bits, and its parent. -/
structure TreeNode where
  kind : String
  isNamed : Bool
  field : Option String
  start : UInt32
  stop : UInt32
  parent : Option Nat
deriving DecidableEq, Repr

/-- The links a parser may report against the shape of the tree. -/
inductive Link where
  | nextSibling
  | prevSibling
  | prevNamedSibling
  | parent
  | field (name : String)
deriving DecidableEq, Repr

namespace Tree

/-- The parent of node `n`. -/
def parentIn (nodes : Array TreeNode) (n : Nat) : Option Nat := nodes[n]?.bind (·.parent)

/-- The first number after the subtree of `n`. -/
def endIn (ends : Array Nat) (n : Nat) : Nat := ends[n]?.getD (n + 1)

/-- Whether the block of `n` is a block of its own: the root's holds every node, any other
lies in its parent's, and what stands between parent and `n` has ended before `n`. -/
def nestsAt (nodes : Array TreeNode) (ends : Array Nat) (n : Nat) : Bool :=
  n < endIn ends n &&
    match parentIn nodes n with
    | none => n = 0 && endIn ends n = nodes.size
    | some p =>
      p < n && endIn ends n ≤ endIn ends p
        && (List.range n).all fun q => q ≤ p || endIn ends q ≤ n

/-- The blocks of numbers nest as the subtrees of one tree do. -/
def WellNested (nodes : Array TreeNode) (ends : Array Nat) : Prop :=
  0 < nodes.size ∧ ∀ n < nodes.size, nestsAt nodes ends n = true

instance (nodes : Array TreeNode) (ends : Array Nat) : Decidable (WellNested nodes ends) :=
  inferInstanceAs (Decidable (_ ∧ _))

/-- The end of every block, from the parents: a node ends where its last child ends. -/
def subtreeEnds (nodes : Array TreeNode) : Array Nat :=
  (List.range nodes.size).foldr
    (fun n ends =>
      match parentIn nodes n with
      | none => ends
      | some p => ends.setIfInBounds p (max (endIn ends p) (endIn ends n)))
    (Array.ofFn fun n : Fin nodes.size => n.val + 1)

end Tree

/-- A syntax tree. -/
structure Tree where
  nodes : Array TreeNode
  ends : Array Nat
  irregular : List (Link × Nat × Option Nat)
  wellNested : Tree.WellNested nodes ends
deriving DecidableEq

namespace Tree

/-- The tree of some nodes, if their parents number one in document order. -/
def ofNodes? (nodes : Array TreeNode) (irregular : List (Link × Nat × Option Nat)) :
    Option Tree :=
  let ends := subtreeEnds nodes
  if h : WellNested nodes ends then some ⟨nodes, ends, irregular, h⟩ else none

/-- The tree of a text in which nothing was recognised: a lone root over `n` bytes. -/
def bare (n : Nat) : Tree where
  nodes := #[⟨"file", true, none, 0, .ofNat n, none⟩]
  ends := #[1]
  irregular := []
  wellNested := by simp [WellNested, nestsAt, parentIn, endIn]

/-- The number of the root. -/
def root : Nat := 0

variable (t : Tree)

/-- How many nodes there are. -/
def size : Nat := t.nodes.size

/-- The kind of a node. -/
def kind (n : Nat) : String := t.nodes[n]?.elim "" TreeNode.kind

/-- Whether a node is named. -/
def isNamed (n : Nat) : Bool := t.nodes[n]?.any TreeNode.isNamed

/-- The role of a node in its parent. -/
def label? (n : Nat) : Option String := t.nodes[n]?.bind TreeNode.field

/-- The first byte of a node. -/
def start (n : Nat) : Nat := t.nodes[n]?.elim 0 fun node => node.start.toNat

/-- The byte after the last one of a node. -/
def stop (n : Nat) : Nat := t.nodes[n]?.elim 0 fun node => node.stop.toNat

/-- The first number after the subtree of a node. -/
def endOf (n : Nat) : Nat := endIn t.ends n

/-- The parent by the shape of the tree. -/
def shapeParent? (n : Nat) : Option Nat := parentIn t.nodes n

/-- What the parser reports for a link against the shape, if it does. -/
def irregular? (link : Link) (n : Nat) : Option (Option Nat) :=
  (t.irregular.find? fun (l, m, _) => l = link && m = n).map (·.2.2)

/-- The target of a link whose target by the shape is `regular`. -/
def follow (link : Link) (n : Nat) (regular : Option Nat) : Option Nat :=
  (t.irregular? link n).getD regular

/-- The nodes below `n`, in document order. -/
def below (n : Nat) : List Nat := List.range' (n + 1) (t.endOf n - (n + 1))

/-- The children of `n`, tokens included, in order. -/
def children (n : Nat) : List Nat := (t.below n).filter fun m => t.shapeParent? m = some n

/-- The named children of `n`, in order (`named_children`). -/
def namedChildren (n : Nat) : List Nat := (t.children n).filter t.isNamed

/-- Whether nothing lies below `n`. -/
def isLeaf (n : Nat) : Bool := t.endOf n ≤ n + 1

/-- The parent of a node. It always comes before the node. -/
def parent? (n : Nat) : Option Nat := (t.follow .parent n (t.shapeParent? n)).filter (· < n)

/-- The sibling after a node: its block starts where the node's ends. -/
def nextSibling? (n : Nat) : Option Nat :=
  t.follow .nextSibling n <|
    (t.shapeParent? n).bind fun p => if t.endOf n < t.endOf p then some (t.endOf n) else none

/-- The last child of a node's parent before the node that passes a test. -/
def siblingBefore? (test : Nat → Bool) (n : Nat) : Option Nat :=
  (t.shapeParent? n).bind fun p => ((t.children p).filter fun m => m < n && test m).getLast?

/-- The sibling before a node. -/
def prevSibling? (n : Nat) : Option Nat :=
  t.follow .prevSibling n (t.siblingBefore? (fun _ => true) n)

/-- The named sibling before a node. It always comes before the node. -/
def prevNamedSibling? (n : Nat) : Option Nat :=
  (t.follow .prevNamedSibling n (t.siblingBefore? t.isNamed n)).filter (· < n)

/-- The child of `n` with role `name` (`child_by_field_name`). -/
def child? (name : String) (n : Nat) : Option Nat :=
  t.follow (.field name) n ((t.children n).find? fun m => t.label? m = some name)

/-! ## Numbers along the links -/

/-- Nodes end within the bytes that 32 bits count. -/
theorem stop_lt (n : Nat) : t.stop n < UInt32.size := by
  rw [stop]
  cases t.nodes[n]? with
  | none => decide
  | some node => exact node.stop.toNat_lt_size

variable {t : Tree}

theorem lt_size_of_shapeParent? {m n : Nat} (h : t.shapeParent? m = some n) : m < t.size := by
  simp only [shapeParent?, parentIn, Option.bind_eq_some_iff] at h
  obtain ⟨a, ha, -⟩ := h
  exact (Array.getElem?_eq_some_iff.1 ha).1

theorem mem_below_iff {m n : Nat} : m ∈ t.below n ↔ n < m ∧ m < t.endOf n := by
  simp only [below, List.mem_range'_1]; omega

theorem shapeParent?_of_mem_children {m n : Nat} (h : m ∈ t.children n) :
    t.shapeParent? m = some n := by
  simpa using (List.mem_filter.1 h).2

theorem lt_of_mem_children {m n : Nat} (h : m ∈ t.children n) : n < m ∧ m < t.size :=
  ⟨(mem_below_iff.1 (List.mem_filter.1 h).1).1,
    lt_size_of_shapeParent? (shapeParent?_of_mem_children h)⟩

/-- What nesting says about a node with a parent: the parent comes first and its block holds
the node's, and every block that starts between the two has ended before the node. -/
theorem nests_of_shapeParent? {m n : Nat} (h : t.shapeParent? m = some n) :
    n < m ∧ m < t.endOf m ∧ t.endOf m ≤ t.endOf n ∧ ∀ q, n < q → q < m → t.endOf q ≤ m := by
  have hw := t.wellNested.2 m (lt_size_of_shapeParent? h)
  unfold shapeParent? at h
  simp only [nestsAt, h, Bool.and_eq_true, decide_eq_true_eq, List.all_eq_true, List.mem_range,
    Bool.or_eq_true] at hw
  refine ⟨hw.2.1.1, hw.1, hw.2.1.2, fun q hq hm => ?_⟩
  have := hw.2.2 q hm
  simp only [endOf]; omega

theorem mem_children_iff {m n : Nat} : m ∈ t.children n ↔ t.shapeParent? m = some n := by
  refine ⟨shapeParent?_of_mem_children, fun h => List.mem_filter.2 ⟨?_, by simpa using h⟩⟩
  have := nests_of_shapeParent? h
  exact mem_below_iff.2 ⟨this.1, by omega⟩

theorem parent_lt {m n : Nat} (h : t.parent? m = some n) : n < m := by
  simpa using (Option.filter_eq_some_iff.1 h).2

theorem prevNamedSibling_lt {m n : Nat} (h : t.prevNamedSibling? m = some n) : n < m := by
  simpa using (Option.filter_eq_some_iff.1 h).2

end Tree
end ElmScope
