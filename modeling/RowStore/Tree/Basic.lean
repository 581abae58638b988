import RowStore.Store.Basic

/-!
# Trees and the walks through them

A tree is a root page in a store. It is a leaf, or a branch whose children are
trees, all leaves at the same depth. A key is found by going down from the root,
taking at each branch the child whose separators enclose the key; all cells are
found by going down to the first leaf and along the references to the next.

References come from a file and may be wrong, so every walk has a budget: the
number of pages in use. A walk that would visit more pages than there are has
come back to a page it has visited, and stops with a fault that names the page
it was about to visit, or the page whose reference it was about to follow.
-/

set_option autoImplicit false

namespace RowStore

open Store

/-- A tree of pages, known by the page of its root. -/
structure Tree where
  root : PageNumber
  deriving DecidableEq

namespace Tree

/-- A new tree without a cell. -/
def create : StoreM Tree := do
  let root ← allocate (.leaf { rootMark := true })
  return { root }

/-! ## Upwards -/

/-- The page at the end of the parent references from a page, with a budget of references to
follow. -/
def rootWithin : Nat → PageNumber → StoreM PageNumber
  | budget, id => do
    match (← load id).parent with
    | none => return id
    | some parent =>
      match budget with
      | 0 => throw (.corrupt id .parentCycle)
      | budget + 1 => rootWithin budget parent

/-- The root of the tree that a page belongs to. -/
def rootAbove (id : PageNumber) : StoreM PageNumber := do rootWithin (← countPages) id

/-! ## Downwards -/

/-- The leaf below a page, where `choose` picks the child of each branch, with a budget of pages
to visit. -/
def descendWithin (choose : Branch → Option PageNumber) : Nat → PageNumber → StoreM PageNumber
  | 0, id => throw (.corrupt id .referenceCycle)
  | budget + 1, id => do
    match ← load id with
    | .leaf _ => return id
    | .branch branch =>
      match choose branch with
      | some child => descendWithin choose budget child
      | none => throw (.corrupt id .childCountMismatch)

/-- The leaf where a key belongs. -/
def leafFor (tree : Tree) (key : Key) : StoreM PageNumber := do
  descendWithin (·.childFor? key) (← countPages) tree.root

/-- The leaf with the smallest keys. -/
def firstLeaf (tree : Tree) : StoreM PageNumber := do
  descendWithin (·.children.head?) (← countPages) tree.root

/-- The number of levels from a page down, with a budget of branches to pass. -/
def heightWithin : Nat → PageNumber → StoreM Nat
  | budget, id => do
    match ← load id with
    | .leaf _ => return 1
    | .branch branch =>
      match budget with
      | 0 => throw (.corrupt id .referenceCycle)
      | budget + 1 =>
        match branch.children.head? with
        | none => throw (.corrupt id .childCountMismatch)
        | some child => return (← heightWithin budget child) + 1

/-- The number of levels of the tree. -/
def height (tree : Tree) : StoreM Nat := do heightWithin (← countPages) tree.root

/-- The root is a leaf without a key. -/
def isEmpty (tree : Tree) : StoreM Bool := do
  match ← load tree.root with
  | .leaf leaf => return leaf.keys.isEmpty
  | .branch _ => return false

/-! ## Along the leaves -/

/-- What a reader makes of each cell of the leaves from a page on, with a budget of leaves to
visit. -/
def collectWithin {α : Type} (read : Key → Bytes → Except Fault α) :
    Nat → Option PageNumber → StoreM (List α)
  | _, none => return []
  | 0, some id => throw (.corrupt id .referenceCycle)
  | budget + 1, some id => do
    let leaf ← loadLeaf id
    let here ← lift (leaf.cells.mapM fun cell => read cell.1 cell.2)
    let beyond ← collectWithin read budget leaf.next
    return here ++ beyond

/-- What a reader makes of each cell of the tree, in the order of the keys. The first cell that
the reader refuses ends the walk. -/
def collect {α : Type} (tree : Tree) (read : Key → Bytes → Except Fault α) :
    StoreM (List α) := do
  let first ← tree.firstLeaf
  collectWithin read (← countPages) (some first)

/-- All cells of the tree, in the order of the keys. -/
def cells (tree : Tree) : StoreM (List (Key × Bytes)) :=
  tree.collect fun key value => .ok (key, value)

/-- All keys of the tree, in order. -/
def keys (tree : Tree) : StoreM (List Key) := tree.collect fun key _ => .ok key

end Tree

end RowStore
