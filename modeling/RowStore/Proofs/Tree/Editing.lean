import RowStore.Proofs.Tree.Loading
import RowStore.Proofs.Tree.Steps

/-!
# What insertions are made of

Beside loading pages, an insertion puts nodes on pages, takes pages into use, and looks at how
many are in use and how many may be. So whatever holds of these steps, and carries over to
what is put together from them (`Editing`), holds of every insertion (`Editing.insert`),
whatever is wrong with the tree. In particular, it keeps what is kept when nodes come into memory
and when pages are taken into use (`Store.editing_preserves`), such as the file and the limit.
-/

set_option autoImplicit false

namespace RowStore

open Store

/-! ## Steps that can be taken on their own -/

namespace Tree

/-- Put a cell into a leaf, whether there is room for it or not. -/
def growLeaf (id : PageNumber) (key : Key) (value : Bytes) : StoreM Unit := do
  let leaf ← loadLeaf id
  replace id (.leaf (leaf.insert key value))

/-- Put a separator and a child into a branch, whether there is room for them or not. -/
def growBranch (id : PageNumber) (separator : Key) (child : PageNumber) : StoreM Unit := do
  let branch ← loadBranch id
  replace id (.branch (branch.insert separator child))
  reparent child (some id)

/-- Cut a branch if it is too large. -/
def divideLarge (id : PageNumber) : StoreM Unit := do
  let branch ← loadBranch id
  if branch.size ≤ Page.size then
    return ()
  else
    let _ ← divideBranch id
    return ()

end Tree

/-! ## What holds of the steps -/

/-- The property is one of the steps of an insertion and of what is put together from them, up to
a shortage of some kind or a cut of a node that is gone. -/
structure Editing (holds : (α : Type) → StoreM α → Prop) : Prop extends Loading holds where
  shortage : ∀ {α : Type} (shortage : Shortage), holds α (MonadExcept.throw (.shortage shortage))
  undefined : ∀ {α : Type} (id : PageNumber), holds α (MonadExcept.throw (.undefined id))
  replace : ∀ id node, holds Unit (replace id node)
  allocate : ∀ node, holds PageNumber (allocate node)
  look : ∀ {α : Type} (next : Nat → UInt32 → StoreM α),
    (∀ pages limit, holds α (next pages limit)) →
    holds α (get >>= fun store => next store.pagesInUse store.limit)

namespace Editing

variable {holds : (α : Type) → StoreM α → Prop} (editing : Editing holds)
include editing

theorem update (id : PageNumber) (change : Node → Node) : holds Unit (Store.update id change) :=
  editing.bind (editing.load id) fun node => editing.replace id (change node)

/-! ## Cuts -/

theorem create : holds Tree Tree.create :=
  editing.bind (editing.allocate _) fun _ => editing.pure _

theorem reparentAll (parent : PageNumber) (ids : List PageNumber) :
    holds Unit (Tree.reparentAll parent ids) := by
  induction ids with
  | nil => exact editing.pure ()
  | cons id ids ih => exact editing.bind (editing.update id _) fun _ => ih

theorem divideLeaf (id : PageNumber) : holds (Key × PageNumber) (Tree.divideLeaf id) := by
  refine editing.bind (editing.loadLeaf id) fun leaf => ?_
  split
  next => exact editing.shortage _
  next =>
    refine editing.bind (editing.allocate _) fun page => ?_
    refine editing.bind (editing.loadLeaf id) fun leaf => ?_
    dsimp only
    split
    next => exact editing.undefined page
    next =>
      refine editing.bind (editing.replace id _) fun _ => ?_
      exact editing.bind (editing.replace page _) fun _ => editing.pure _

theorem divideBranch (id : PageNumber) : holds (Key × PageNumber) (Tree.divideBranch id) := by
  refine editing.bind (editing.allocate _) fun page => ?_
  refine editing.bind (editing.loadBranch id) fun branch => ?_
  dsimp only
  split
  next => exact editing.undefined id
  next =>
    refine editing.bind (editing.replace id _) fun _ => ?_
    refine editing.bind (editing.replace page _) fun _ => ?_
    exact editing.bind (editing.reparentAll page _) fun _ => editing.pure _

theorem growRoot (lower : PageNumber) (separator : Key) (upper : PageNumber) :
    holds Tree (Tree.growRoot lower separator upper) := by
  refine editing.bind (editing.allocate _) fun _ => ?_
  refine editing.bind (editing.update lower _) fun _ => ?_
  exact editing.bind (editing.update upper _) fun _ => editing.pure _

theorem growLeaf (id : PageNumber) (key : Key) (value : Bytes) :
    holds Unit (Tree.growLeaf id key value) :=
  editing.bind (editing.loadLeaf id) fun _ => editing.replace id _

theorem growBranch (id : PageNumber) (separator : Key) (child : PageNumber) :
    holds Unit (Tree.growBranch id separator child) := by
  refine editing.bind (editing.loadBranch id) fun branch => ?_
  exact editing.bind (editing.replace id _) fun _ => editing.update child _

theorem divideLarge (id : PageNumber) : holds Unit (Tree.divideLarge id) := by
  refine editing.bind (editing.loadBranch id) fun branch => ?_
  split
  next => exact editing.pure ()
  next => exact editing.bind (editing.divideBranch id) fun _ => editing.pure ()

/-! ## Insertion -/

variable (tree : Tree)

theorem enterAbove {further : PageNumber → Key → PageNumber → StoreM Tree}
    (later : ∀ id median page, holds Tree (further id median page)) (lower : PageNumber)
    (separator : Key) (upper : PageNumber) :
    holds Tree (tree.enterAbove further lower separator upper) := by
  refine editing.bind (editing.load lower) fun node => ?_
  cases node.parent with
  | none => exact editing.growRoot lower separator upper
  | some id =>
    refine editing.bind (editing.loadBranch id) fun parent => ?_
    dsimp only
    split
    next =>
      refine editing.bind (editing.replace id _) fun _ => ?_
      refine editing.bind (editing.update upper _) fun _ => ?_
      split
      next => exact editing.pure tree
      next => exact editing.bind (editing.divideBranch id) fun cut => later id cut.1 cut.2
    next => exact editing.throw rfl

theorem attachWithin (budget : Nat) (lower : PageNumber) (separator : Key) (upper : PageNumber) :
    holds Tree (tree.attachWithin budget lower separator upper) := by
  induction budget generalizing lower separator upper with
  | zero =>
    rw [Tree.attachWithin_eq_enterAbove]
    refine editing.enterAbove tree (fun id median page => ?_) lower separator upper
    exact editing.look (fun _ limit => throw (.shortage (.pages limit))) fun _ _ =>
      editing.shortage _
  | succ budget ih =>
    rw [Tree.attachWithin_eq_enterAbove]
    exact editing.enterAbove tree ih lower separator upper

theorem attach (lower : PageNumber) (separator : Key) (upper : PageNumber) :
    holds Tree (tree.attach lower separator upper) := by
  have counts : holds Nat Tree.countFreePages :=
    editing.look (fun pages limit => pure (limit.toNat - pages)) fun _ _ => editing.pure _
  exact editing.bind counts fun budget => editing.attachWithin tree budget lower separator upper

theorem insertByDividing (id : PageNumber) (leaf : Leaf) (key : Key) (value : Bytes) :
    holds Tree (tree.insertByDividing id leaf key value) := by
  refine editing.bind (editing.pagesToDivide leaf) fun needed => ?_
  refine editing.look (fun pages limit => if pages + needed ≤ limit.toNat then do
      Store.replace id (.leaf (leaf.insert key value))
      let cut ← Tree.divideLeaf id
      tree.attach id cut.1 cut.2
    else throw (.shortage (.split needed))) fun pages limit => ?_
  split
  next =>
    refine editing.bind (editing.replace id _) fun _ => ?_
    exact editing.bind (editing.divideLeaf id) fun cut => editing.attach tree id cut.1 cut.2
  next => exact editing.shortage _

/-- **What holds of the steps of an insertion holds of all of it**, if it holds of the refusal of a
key that is there already. -/
theorem insert (key : Key) (value : Bytes) (present : holds Tree (throw (.duplicateKey key))) :
    holds Tree (tree.insert key value) := by
  rw [Tree.insert]
  split
  next =>
    refine editing.bind (editing.leafFor tree key) fun id => ?_
    refine editing.bind (editing.loadLeaf id) fun leaf => ?_
    split
    next => exact present
    next =>
      split
      next => exact editing.bind (editing.replace id _) fun _ => editing.pure tree
      next =>
        split
        next => exact editing.insertByDividing tree id leaf key value
        next => exact editing.shortage _
  next => exact editing.shortage _

end Editing

/-- An insertion keeps what is kept when nodes come into memory and pages are taken into use. -/
theorem Store.editing_preserves {invariant : Store → Prop}
    (cache : ∀ store id node, invariant store → invariant (store.cache id node))
    (push : ∀ (store : Store) node, store.pagesInUse < store.limit.toNat → invariant store →
      invariant { store with slots := store.slots.push (some node) }) :
    Editing fun _ => Preserves (fun _ => True) invariant where
  pure := .pure
  throw := fun _ => .throw trivial
  shortage := fun _ => .throw trivial
  undefined := fun _ => .throw trivial
  bind := .bind
  load := by
    intro id store holds
    unfold Ends load
    cases found : store.peek id with
    | ok node => exact cache store id node holds
    | error fault => exact ⟨holds, trivial⟩
  countPages := .get fun _ _ => .pure _
  replace := fun id node => .modify fun store holds => cache store id node holds
  allocate := by
    intro node store holds
    unfold Ends allocate
    dsimp only
    by_cases room : store.pagesInUse < store.limit.toNat
    · rw [if_pos room]
      exact push store node room holds
    · rw [if_neg room]
      exact ⟨holds, trivial⟩
  look := fun _ later => .get fun _ _ => later _ _

/-- The store does not have more pages in use, nor may it, than the number says. -/
structure Store.Bounded (most : Nat) (store : Store) : Prop where
  pages : store.pagesInUse ≤ most
  limit : store.limit.toNat ≤ most

/-- An insertion stays below the limit. -/
theorem Store.editing_bounded (most : Nat) :
    Editing fun _ => Preserves (fun _ => True) (Store.Bounded most) := by
  refine editing_preserves (fun store id node bounded => ?_) fun store node room bounded => ?_
  · exact ⟨(pagesInUse_cache store id node).symm ▸ bounded.pages,
      (limit_cache store id node).symm ▸ bounded.limit⟩
  · refine ⟨?_, bounded.limit⟩
    show (store.slots.push (some node)).size ≤ most
    rw [Array.size_push]
    exact Nat.lt_of_lt_of_le room bounded.limit

end RowStore
