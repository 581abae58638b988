import RowStore.Page

/-!
# Nodes of a tree of pages

Every page after the header holds one node. A leaf holds cells, each a key with
its value, in ascending order of the keys, and refers to the leaf after it. A
branch holds separators and one more child than separators: the child at a
position holds the keys below the separator at that position and from the
separator before it on. Every node refers to its parent, and the root alone is
marked as root.

Keys and values of a leaf are two lists, and so are separators and children of
a branch; that the lengths match is an invariant of trees, not part of the
types, because a node in memory may break it.

A node may be larger than a page for a moment, between an insertion and the
split that follows it. `Leaf.canDivideAt` tells beforehand whether both halves of
a leaf will fit; it looks at the sizes the cells will have and is never asked
after the fact.
-/

set_option autoImplicit false

namespace RowStore

/-- A node that holds keys, in ascending order, and their values. It may be marked as the root of
its tree, and may refer to the branch that has it as a child and to the leaf with the keys that
follow. -/
structure Leaf where
  rootMark : Bool := false
  parent : Option PageNumber := none
  next : Option PageNumber := none
  keys : List Key := []
  values : List Bytes := []
  deriving DecidableEq, Inhabited

/-- A node that leads to other nodes, its children, between which the separators stand in ascending
order. It may be marked as the root of its tree, and may refer to the branch above it. -/
structure Branch where
  rootMark : Bool := false
  parent : Option PageNumber := none
  separators : List Key := []
  children : List PageNumber := []
  deriving DecidableEq, Inhabited

/-- What a page holds. -/
inductive Node where
  | branch (branch : Branch)
  | leaf (leaf : Leaf)
  deriving DecidableEq

/-! ## Leaves -/

namespace Leaf

/-- The bytes of a leaf beside its cells. -/
def headerSize : Nat := 14

/-- The bytes of a cell beside its value. -/
def cellFixedSize : Nat := 8

/-- The bytes that cells with values of the given lengths take. -/
def cellsSize : List Nat → Nat
  | [] => 0
  | length :: lengths => cellFixedSize + length + cellsSize lengths

/-- The bytes that the leaf takes when it is written. -/
def size (leaf : Leaf) : Nat := headerSize + cellsSize (leaf.values.map List.length)

/-- The cells of the leaf, in order. -/
def cells (leaf : Leaf) : List (Key × Bytes) := leaf.keys.zip leaf.values

/-- A value of the given length can be added without a split. -/
def hasRoomFor (leaf : Leaf) (length : Nat) : Bool :=
  leaf.size + cellFixedSize + length ≤ Page.size

/-- The place of a key: how many keys of the leaf are smaller. -/
def position (leaf : Leaf) (key : Key) : Nat := (leaf.keys.takeWhile (· < key)).length

/-- The key stands at its place. -/
def hasKey (leaf : Leaf) (key : Key) : Bool := leaf.keys[leaf.position key]? == some key

/-- The leaf with one more cell, at the place of its key. -/
def insert (leaf : Leaf) (key : Key) (value : Bytes) : Leaf :=
  { leaf with
    keys := leaf.keys.insertIdx (leaf.position key) key
    values := leaf.values.insertIdx (leaf.position key) value }

/-- With a value of the given length added at the given place, both halves of the leaf fit a
page. -/
def canDivideAt (leaf : Leaf) (place length : Nat) : Bool :=
  let lengths := (leaf.values.map List.length).insertIdx place length
  let middle := lengths.length / 2
  headerSize + cellsSize (lengths.take middle) ≤ Page.size &&
    headerSize + cellsSize (lengths.drop middle) ≤ Page.size

/-- The two halves of a leaf, the upper one on the given page. The lower half keeps the first
`⌊n / 2⌋` of `n` cells. -/
def divide (leaf : Leaf) (upperPage : PageNumber) : Leaf × Leaf :=
  let middle := leaf.keys.length / 2
  ({ leaf with
      next := some upperPage
      keys := leaf.keys.take middle
      values := leaf.values.take middle },
    { parent := leaf.parent
      next := leaf.next
      keys := leaf.keys.drop middle
      values := leaf.values.drop middle })

end Leaf

/-! ## Branches -/

namespace Branch

/-- The bytes of a branch beside its separators and children. -/
def headerSize : Nat := 14

/-- The bytes that a separator takes together with the child after it. -/
def entrySize : Nat := 8

/-- The bytes that the branch takes when it is written. -/
def size (branch : Branch) : Nat :=
  headerSize + 4 * branch.separators.length + 4 * branch.children.length

/-- The position of the child for a key: how many separators are not greater than the key. -/
def position (branch : Branch) (key : Key) : Nat :=
  (branch.separators.takeWhile (· ≤ key)).length

/-- The child for a key. -/
def childFor? (branch : Branch) (key : Key) : Option PageNumber :=
  branch.children[branch.position key]?

/-- One more separator and child can be added without a split. -/
def canGrow (branch : Branch) : Bool := branch.size + entrySize ≤ Page.size

/-- The branch with one more separator at its place and one more child after it. -/
def insert (branch : Branch) (separator : Key) (child : PageNumber) : Branch :=
  { branch with
    separators := branch.separators.insertIdx (branch.position separator) separator
    children := branch.children.insertIdx (branch.position separator + 1) child }

/-- The separator in the middle, which stands in neither half after a split. A branch that is
split always has one. -/
def median (branch : Branch) : Key :=
  branch.separators.getD (branch.separators.length / 2) 0

/-- The two halves of a branch, without the separator in the middle. -/
def divide (branch : Branch) : Branch × Branch :=
  let middle := branch.separators.length / 2
  ({ branch with
      separators := branch.separators.take middle
      children := branch.children.take (middle + 1) },
    { parent := branch.parent
      separators := branch.separators.drop (middle + 1)
      children := branch.children.drop (middle + 1) })

end Branch

/-! ## What leaves and branches have in common -/

namespace Node

/-- The branch that has this node as a child. -/
def parent : Node → Option PageNumber
  | branch node => node.parent
  | leaf node => node.parent

/-- The node with another parent reference. -/
def withParent (parent : Option PageNumber) : Node → Node
  | branch node => branch { node with parent }
  | leaf node => leaf { node with parent }

/-- Whether the node is marked as root. -/
def rootMark : Node → Bool
  | branch node => node.rootMark
  | leaf node => node.rootMark

/-- The node with another root mark. -/
def withRootMark (rootMark : Bool) : Node → Node
  | branch node => branch { node with rootMark }
  | leaf node => leaf { node with rootMark }

/-- The bytes that the node takes when it is written. -/
def size : Node → Nat
  | branch node => node.size
  | leaf node => node.size

/-- A leaf has one value for each key, a branch one more child than separators. -/
def WellShaped : Node → Prop
  | branch node => node.children.length = node.separators.length + 1
  | leaf node => node.values.length = node.keys.length

instance (node : Node) : Decidable node.WellShaped := by
  cases node <;> unfold WellShaped <;> infer_instance

/-- The parent of a node is the one that it was last given. -/
theorem parent_withParent (node : Node) (parent : Option PageNumber) :
    (node.withParent parent).parent = parent := by
  cases node <;> rfl

end Node

end RowStore
