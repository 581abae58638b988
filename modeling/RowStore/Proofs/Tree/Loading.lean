import RowStore.Proofs.Invariant
import RowStore.Tree.Insert

/-!
# Walks only load

A walk loads one page after the other, counts pages, and answers or gives up. So whatever holds
of loading a page and of counting pages, and carries over to what is put together from
computations of which it holds (`Loading`), holds of every walk: up, down and along the leaves,
and of counting the pages that an insertion will take.
-/

set_option autoImplicit false

namespace RowStore

open Store

/-- A reader stops at a cell with a fault of that cell. -/
theorem exists_of_mapM_eq_error {α : Type} {read : Key → Bytes → Except Fault α}
    {cells : List (Key × Bytes)} {fault : Fault}
    (refused : cells.mapM (fun cell => read cell.1 cell.2) = .error fault) :
    ∃ key value, read key value = .error fault := by
  induction cells with
  | nil => cases refused
  | cons cell cells ih =>
    rw [List.mapM_cons] at refused
    cases here : read cell.1 cell.2 with
    | error missing =>
      rw [here] at refused
      cases refused
      exact ⟨_, _, here⟩
    | ok value =>
      rw [here] at refused
      cases others : cells.mapM fun cell => read cell.1 cell.2 with
      | error missing =>
        simp only [others, bind, Except.bind] at refused
        cases refused
        exact ih others
      | ok values =>
        simp only [others, bind, Except.bind] at refused
        cases refused

/-- The property is one of loading and of what is put together from that. A walk that does not
end where it should gives up over a page. -/
structure Loading (holds : (α : Type) → StoreM α → Prop) : Prop where
  pure : ∀ {α : Type} (value : α), holds α (pure value)
  throw : ∀ {α : Type} {fault : Fault}, fault.isAboutPage = true → holds α (throw fault)
  bind : ∀ {α β : Type} {first : StoreM β} {next : β → StoreM α}, holds β first →
    (∀ value, holds α (next value)) → holds α (first >>= next)
  load : ∀ id, holds Node (load id)
  countPages : holds Nat countPages

namespace Loading

variable {holds : (α : Type) → StoreM α → Prop} (loading : Loading holds)
include loading

theorem loadLeaf (id : PageNumber) : holds Leaf (loadLeaf id) := by
  refine loading.bind (loading.load id) fun node => ?_
  cases node with
  | leaf leaf => exact loading.pure leaf
  | branch => exact loading.throw rfl

theorem loadBranch (id : PageNumber) : holds Branch (loadBranch id) := by
  refine loading.bind (loading.load id) fun node => ?_
  cases node with
  | branch branch => exact loading.pure branch
  | leaf => exact loading.throw rfl

theorem lift {α : Type} {result : Except Fault α}
    (stops : ∀ fault, result = .error fault → holds α (MonadExcept.throw fault)) :
    holds α (lift result) := by
  cases result with
  | ok value => exact loading.pure value
  | error fault => exact stops fault rfl

/-! ## Upwards -/

theorem rootWithin (budget : Nat) (id : PageNumber) :
    holds PageNumber (Tree.rootWithin budget id) := by
  induction budget generalizing id with
  | zero =>
    rw [Tree.rootWithin]
    refine loading.bind (loading.load id) fun node => ?_
    cases node.parent with
    | none => exact loading.pure id
    | some parent => exact loading.throw rfl
  | succ budget ih =>
    rw [Tree.rootWithin]
    refine loading.bind (loading.load id) fun node => ?_
    cases node.parent with
    | none => exact loading.pure id
    | some parent => exact ih parent

theorem rootAbove (id : PageNumber) : holds PageNumber (Tree.rootAbove id) :=
  loading.bind loading.countPages fun count => loading.rootWithin count id

theorem pagesAbove (budget : Nat) (id : Option PageNumber) :
    holds Nat (Tree.pagesAbove budget id) := by
  induction budget generalizing id with
  | zero =>
    cases id with
    | none => exact loading.pure 1
    | some id => exact loading.throw rfl
  | succ budget ih =>
    cases id with
    | none => exact loading.pure 1
    | some id =>
      refine loading.bind (loading.loadBranch id) fun branch => ?_
      split
      · exact loading.pure 0
      · exact loading.bind (ih branch.parent) fun _ => loading.pure _

theorem pagesToDivide (leaf : Leaf) : holds Nat (Tree.pagesToDivide leaf) :=
  loading.bind loading.countPages fun count =>
    loading.bind (loading.pagesAbove count _) fun _ => loading.pure _

/-! ## Downwards -/

theorem descendWithin (choose : Branch → Option PageNumber) (budget : Nat) (id : PageNumber) :
    holds PageNumber (Tree.descendWithin choose budget id) := by
  induction budget generalizing id with
  | zero => exact loading.throw rfl
  | succ budget ih =>
    refine loading.bind (loading.load id) fun node => ?_
    cases node with
    | leaf => exact loading.pure id
    | branch branch =>
      dsimp only
      cases choose branch with
      | none => exact loading.throw rfl
      | some child => exact ih child

theorem leafFor (tree : Tree) (key : Key) : holds PageNumber (tree.leafFor key) :=
  loading.bind loading.countPages fun count => loading.descendWithin _ count tree.root

theorem firstLeaf (tree : Tree) : holds PageNumber tree.firstLeaf :=
  loading.bind loading.countPages fun count => loading.descendWithin _ count tree.root

theorem heightWithin (budget : Nat) (id : PageNumber) :
    holds Nat (Tree.heightWithin budget id) := by
  induction budget generalizing id with
  | zero =>
    rw [Tree.heightWithin]
    refine loading.bind (loading.load id) fun node => ?_
    cases node with
    | leaf => exact loading.pure 1
    | branch => exact loading.throw rfl
  | succ budget ih =>
    rw [Tree.heightWithin]
    refine loading.bind (loading.load id) fun node => ?_
    cases node with
    | leaf => exact loading.pure 1
    | branch branch =>
      dsimp only
      cases branch.children.head? with
      | none => exact loading.throw rfl
      | some child => exact loading.bind (ih child) fun _ => loading.pure _

theorem height (tree : Tree) : holds Nat tree.height :=
  loading.bind loading.countPages fun count => loading.heightWithin count tree.root

theorem isEmpty (tree : Tree) : holds Bool tree.isEmpty := by
  refine loading.bind (loading.load tree.root) fun node => ?_
  cases node with
  | leaf leaf => exact loading.pure _
  | branch => exact loading.pure false

/-! ## Along the leaves -/

section Reader

variable {α : Type} {read : Key → Bytes → Except Fault α}
  (stops : ∀ key value fault, read key value = .error fault →
    holds (List α) (MonadExcept.throw fault))
include stops

theorem collectWithin (budget : Nat) (id : Option PageNumber) :
    holds (List α) (Tree.collectWithin read budget id) := by
  induction budget generalizing id with
  | zero =>
    cases id with
    | none => exact loading.pure []
    | some id => exact loading.throw rfl
  | succ budget ih =>
    cases id with
    | none => exact loading.pure []
    | some id =>
      refine loading.bind (loading.loadLeaf id) fun leaf => ?_
      refine loading.bind (loading.lift fun fault refused => ?_) fun here => ?_
      · obtain ⟨key, value, refused⟩ := exists_of_mapM_eq_error refused
        exact stops key value fault refused
      · exact loading.bind (ih leaf.next) fun beyond => loading.pure _

theorem collect (tree : Tree) : holds (List α) (tree.collect read) :=
  loading.bind (loading.firstLeaf tree) fun _ => loading.bind loading.countPages fun count =>
    loading.collectWithin stops count _

end Reader

theorem cells (tree : Tree) : holds (List (Key × Bytes)) tree.cells := by
  refine loading.collect ?_ tree
  intro key value fault refused
  cases refused

end Loading

end RowStore
