import RowStore.Tree.Basic

/-!
# Insertion

A key goes into the leaf where it belongs. If the leaf has no room, it is cut
in two: the upper half moves to a new page, and the first key of the upper half
becomes a separator in the parent, with the new page after it. A parent that
grows too large is cut in two in the same way, except that its separator in the
middle moves up and stands in neither half. When a node without a parent is
cut, a new root is put above the halves.

Nothing is changed before it is certain that the insertion will succeed: the
value fits a page, the key is new, both halves of the leaf fit, and as many
pages are left as the cuts will take. The pages are counted along the parent
references, which the cuts follow too.

The page that a cut takes into use can be one that was read before, if the file is
so large that not all of its pages are in use. So what is cut is loaded again
after the new page was taken, and it may be gone by then.
-/

set_option autoImplicit false

namespace RowStore

open Store

namespace Tree

/-! ## Room for the cuts -/

/-- The pages that cutting a child takes at the levels above it, with a budget of branches to
visit. -/
def pagesAbove : Nat → Option PageNumber → StoreM Nat
  | _, none => return 1
  | 0, some id => throw (.corrupt id .referenceCycle)
  | budget + 1, some id => do
    let branch ← loadBranch id
    if branch.canGrow then return 0
    else return (← pagesAbove budget branch.parent) + 1

/-- The pages that cutting a leaf takes, the new leaf among them. -/
def pagesToDivide (leaf : Leaf) : StoreM Nat := do
  return (← pagesAbove (← countPages) leaf.parent) + 1

/-! ## Cuts -/

/-- Give a page another parent. -/
def reparent (id : PageNumber) (parent : Option PageNumber) : StoreM Unit :=
  update id (Node.withParent parent)

/-- Give each of the pages another parent, one after the other. -/
def reparentAll (parent : PageNumber) : List PageNumber → StoreM Unit
  | [] => return ()
  | id :: ids => do
    reparent id (some parent)
    reparentAll parent ids

/-- Cut a leaf in two. The answer is the first key of the upper half and its page. -/
def divideLeaf (id : PageNumber) : StoreM (Key × PageNumber) := do
  let leaf ← loadLeaf id
  if leaf.keys.length < 2 then
    throw (.shortage (.cells id))
  else
    let page ← allocate (.leaf {})
    let halves := (← loadLeaf id).divide page
    if halves.2.keys = [] then
      throw (.undefined page)
    else
      replace id (.leaf halves.1)
      replace page (.leaf halves.2)
      return (halves.2.keys.headD 0, page)

/-- Cut a branch in two. The answer is the separator between the halves and the page of the upper
one, which becomes the parent of the children that moved there. -/
def divideBranch (id : PageNumber) : StoreM (Key × PageNumber) := do
  let page ← allocate (.branch {})
  let branch ← loadBranch id
  if branch.separators = [] then
    throw (.undefined id)
  else
    let halves := branch.divide
    replace id (.branch halves.1)
    replace page (.branch halves.2)
    reparentAll page halves.2.children
    return (branch.median, page)

/-- Put a new root above two nodes. -/
def growRoot (lower : PageNumber) (separator : Key) (upper : PageNumber) : StoreM Tree := do
  let root ← allocate (.branch {
    rootMark := true, separators := [separator], children := [lower, upper] })
  update lower fun node => (node.withRootMark false).withParent (some root)
  reparent upper (some root)
  return { root }

/-- Enter the upper half of a node that was cut in the parent of the lower half, cutting the
parent too if it grows too large. Every cut takes a page, so the budget is the number of pages
that are left. -/
def attachWithin (tree : Tree) : Nat → PageNumber → Key → PageNumber → StoreM Tree
  | budget, lower, separator, upper => do
    match (← load lower).parent with
    | none => growRoot lower separator upper
    | some id =>
      let parent ← loadBranch id
      if parent.children[parent.position separator]? = some lower then
        let grown := parent.insert separator upper
        replace id (.branch grown)
        reparent upper (some id)
        if grown.size ≤ Page.size then
          return tree
        else
          let (median, page) ← divideBranch id
          match budget with
          | 0 => throw (.shortage (.pages (← get).limit))
          | budget + 1 => attachWithin tree budget id median page
      else
        throw (.corrupt id (.strayChild lower))

/-- The number of pages that are left. -/
def countFreePages : StoreM Nat := do
  let store ← get
  return store.limit.toNat - store.pagesInUse

/-- Enter the upper half of a node that was cut in the levels above. -/
def attach (tree : Tree) (lower : PageNumber) (separator : Key) (upper : PageNumber) :
    StoreM Tree := do
  tree.attachWithin (← countFreePages) lower separator upper

/-! ## Insertion -/

/-- Insert into a leaf that has no room, if there are pages for the cuts. The pages are added as
numbers; the sum of two words is the same below `2 ^ 32` pages. -/
def insertByDividing (tree : Tree) (id : PageNumber) (leaf : Leaf) (key : Key) (value : Bytes) :
    StoreM Tree := do
  let needed ← pagesToDivide leaf
  let store ← get
  if store.pagesInUse + needed ≤ store.limit.toNat then
    replace id (.leaf (leaf.insert key value))
    let (separator, upper) ← divideLeaf id
    tree.attach id separator upper
  else
    throw (.shortage (.split needed))

/-- Insert a value under a new key. The tree may get another root. -/
def insert (tree : Tree) (key : Key) (value : Bytes) : StoreM Tree := do
  if value.length ≤ maxValueLength then
    let id ← tree.leafFor key
    let leaf ← loadLeaf id
    if leaf.hasKey key then
      throw (.duplicateKey key)
    else if leaf.hasRoomFor value.length then
      replace id (.leaf (leaf.insert key value))
      return tree
    else if leaf.canDivideAt (leaf.position key) value.length then
      tree.insertByDividing id leaf key value
    else
      throw (.shortage (.leaf id))
  else
    throw (.shortage (.value value.length))

end Tree

end RowStore
