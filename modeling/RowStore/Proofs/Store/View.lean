import Mathlib.Logic.Function.Basic
import RowStore.Proofs.Outcome
import RowStore.Store.Basic

/-!
# What computations see of a store

A computation goes through page numbers, so which nodes are in memory does not
matter to it. The view of a store is what is left when that is forgotten: the
node that each page number stands for, the number of pages in use, the limit and
the file. Loading a node does not change the view.

`Promises view action done failed` says how a computation ends on every store
with the given view: with an answer and a view that satisfy `done`, or with a
fault and a view that satisfy `failed`. There is one lemma for each operation of
a store; proofs about trees go through these and never look at slots.

A view is closed when every page that can be loaded is in use. Stores that come
from a file of fewer than `2 ^ 32` bytes are closed, since such a file has no page
beyond those in use (`closed_view`).
-/

set_option autoImplicit false

namespace RowStore

/-- The nodes that page numbers stand for, where there is one. -/
abbrev Nodes := PageNumber → Except Fault Node

/-- What a computation can see of a store. -/
@[ext]
structure View where
  nodes : Nodes
  pagesInUse : Nat
  limit : UInt32
  disk : Array Page
  fileSize : UInt32

/-- The view of a store. -/
def Store.view (store : Store) : View where
  nodes := store.peek
  pagesInUse := store.pagesInUse
  limit := store.limit
  disk := store.disk
  fileSize := store.fileSize

namespace View

/-- The view with a node on a page. -/
def put (view : View) (id : PageNumber) (node : Node) : View :=
  { view with nodes := Function.update view.nodes id (.ok node) }

/-- The number of the page that is taken into use next. -/
def fresh (view : View) : PageNumber := UInt32.ofNat view.pagesInUse

/-- The view with one more page in use. -/
def push (view : View) (node : Node) : View :=
  { view with
    nodes := Function.update view.nodes view.fresh (.ok node)
    pagesInUse := view.pagesInUse + 1 }

/-- Every page that can be loaded is in use. -/
def Closed (view : View) : Prop :=
  ∀ id node, view.nodes id = .ok node → id.toNat < view.pagesInUse

/-- What holds of the view of every store that comes from a file of fewer than `2 ^ 32` bytes. -/
structure Regular (view : View) : Prop where
  closed : view.Closed
  numbered : view.pagesInUse < UInt32.size
  bounded : view.disk.size ≤ view.pagesInUse + 1

section Fields

variable (view : View) (id other : PageNumber) (node : Node)

@[simp] theorem nodes_put_self : (view.put id node).nodes id = .ok node :=
  Function.update_self ..

@[simp] theorem pagesInUse_put : (view.put id node).pagesInUse = view.pagesInUse := rfl

@[simp] theorem limit_put : (view.put id node).limit = view.limit := rfl

@[simp] theorem disk_put : (view.put id node).disk = view.disk := rfl

@[simp] theorem fileSize_put : (view.put id node).fileSize = view.fileSize := rfl

@[simp] theorem fresh_put : (view.put id node).fresh = view.fresh := rfl

@[simp] theorem nodes_push_fresh : (view.push node).nodes view.fresh = .ok node :=
  Function.update_self ..

@[simp] theorem pagesInUse_push : (view.push node).pagesInUse = view.pagesInUse + 1 := rfl

@[simp] theorem limit_push : (view.push node).limit = view.limit := rfl

@[simp] theorem disk_push : (view.push node).disk = view.disk := rfl

@[simp] theorem fileSize_push : (view.push node).fileSize = view.fileSize := rfl

end Fields

theorem nodes_put_of_ne {view : View} {id other : PageNumber} (node : Node)
    (apart : other ≠ id) : (view.put id node).nodes other = view.nodes other :=
  Function.update_of_ne apart ..

theorem nodes_push_of_ne {view : View} {other : PageNumber} (node : Node)
    (apart : other ≠ view.fresh) : (view.push node).nodes other = view.nodes other :=
  Function.update_of_ne apart ..

/-- Below the limit, the next page has the number of pages in use as its number. -/
theorem toNat_fresh {view : View} (room : view.pagesInUse < view.limit.toNat) :
    view.fresh.toNat = view.pagesInUse := by
  have := view.limit.toNat_lt
  rw [fresh, UInt32.toNat_ofNat']
  exact Nat.mod_eq_of_lt (by omega)

/-- A page in use is not the next one. -/
theorem ne_fresh {view : View} (room : view.pagesInUse < view.limit.toNat) {id : PageNumber}
    (inUse : id.toNat < view.pagesInUse) : id ≠ view.fresh := by
  intro same
  rw [same, toNat_fresh room] at inUse
  exact Nat.lt_irrefl _ inUse

theorem Closed.put {view : View} (closed : view.Closed) {id : PageNumber} (node : Node)
    (inUse : id.toNat < view.pagesInUse) : (view.put id node).Closed := by
  intro other found present
  by_cases same : other = id
  · exact same ▸ inUse
  · rw [nodes_put_of_ne node same] at present
    exact closed other found present

theorem Closed.push {view : View} (closed : view.Closed) (node : Node)
    (room : view.pagesInUse < view.limit.toNat) : (view.push node).Closed := by
  intro other found present
  by_cases same : other = view.fresh
  · rw [same, toNat_fresh room]
    exact Nat.lt_succ_self _
  · rw [nodes_push_of_ne node same] at present
    exact Nat.lt_succ_of_lt (closed other found present)

/-- A page that can be loaded stays what it is when another page is taken into use. -/
theorem Closed.nodes_push {view : View} (closed : view.Closed)
    (room : view.pagesInUse < view.limit.toNat) {id : PageNumber} {node : Node}
    (found : view.nodes id = .ok node) (other : Node) : (view.push other).nodes id = .ok node :=
  (nodes_push_of_ne other (ne_fresh room (closed id node found))).trans found

/-- The number of a page in use is a page number. -/
theorem Regular.toNat_ofNat {view : View} (regular : view.Regular) {index : Nat}
    (inUse : index < view.pagesInUse) : (UInt32.ofNat index).toNat = index := by
  rw [UInt32.toNat_ofNat']
  exact Nat.mod_eq_of_lt (Nat.lt_trans inUse regular.numbered)

theorem Regular.put {view : View} (regular : view.Regular) {id : PageNumber} (node : Node)
    (inUse : id.toNat < view.pagesInUse) : (view.put id node).Regular :=
  ⟨regular.closed.put node inUse, regular.numbered, regular.bounded⟩

theorem Regular.push {view : View} (regular : view.Regular) (node : Node)
    (room : view.pagesInUse < view.limit.toNat) : (view.push node).Regular := by
  refine ⟨regular.closed.push node room, ?_, Nat.le_succ_of_le regular.bounded⟩
  exact Nat.lt_of_le_of_lt room view.limit.toNat_lt_size

end View

namespace Store

/-! ## What the operations of a store do to its view -/

/-- Only reading can fail when a page is looked up. -/
theorem isAboutPage_of_peek {store : Store} {id : PageNumber} {fault : Fault}
    (missing : store.peek id = .error fault) : fault.isAboutPage = true := by
  unfold peek at missing
  split at missing
  · cases missing
  · unfold inFile at missing
    split at missing
    · cases missing
      rfl
    next page stored =>
      cases reads : Node.ofPage page <;> rw [reads] at missing <;> cases missing
      rfl

/-- A node in a slot is what its page number stands for. -/
theorem peek_of_slot {store : Store} {id : PageNumber} {node : Node}
    (present : store.slots[id.toNat]? = some (some node)) : store.peek id = .ok node :=
  peek_of_inMemory (inMemory?_of_slot present)

/-- Keeping a loaded node in memory cannot be seen. -/
theorem view_cache_of_peek {store : Store} {id : PageNumber} {node : Node}
    (found : store.peek id = .ok node) : (store.cache id node).view = store.view :=
  View.ext (funext (peek_cache found)) (pagesInUse_cache ..) (limit_cache ..) (disk_cache ..)
    (fileSize_cache ..)

theorem view_cache (store : Store) (id : PageNumber) (node : Node) :
    (store.cache id node).view = store.view.put id node := by
  refine View.ext (funext fun other => ?_) (pagesInUse_cache ..) (limit_cache ..) (disk_cache ..)
    (fileSize_cache ..)
  by_cases same : other = id
  · subst same
    rw [View.nodes_put_self]
    exact peek_cache_self store other node
  · rw [View.nodes_put_of_ne node same]
    exact peek_cache_of_ne node (Ne.symm same)

theorem view_push {store : Store} (node : Node)
    (room : store.pagesInUse < store.limit.toNat) :
    view { store with slots := store.slots.push (some node) } = store.view.push node := by
  have number : store.view.fresh.toNat = store.slots.size := View.toNat_fresh room
  refine View.ext ?_ (Array.size_push ..) rfl rfl rfl
  funext other
  by_cases same : other = store.view.fresh
  · rw [same, View.nodes_push_fresh]
    exact peek_of_slot (by rw [number]; exact Array.getElem?_push_size)
  · rw [View.nodes_push_of_ne node same]
    have apart : other.toNat ≠ store.slots.size := fun equal =>
      same (UInt32.toNat_inj.mp (equal.trans number.symm))
    simp only [view, peek, inMemory?, inFile, Array.getElem?_push, if_neg apart]

/-- A store is closed if neither its file nor its memory has a page beyond those in use. -/
theorem closed_view {store : Store} (bounded : store.disk.size ≤ store.pagesInUse + 1)
    (within : ∀ id : PageNumber, store.pagesInUse ≤ id.toNat → store.inMemory? id = none) :
    store.view.Closed := by
  intro id node found
  rw [← Nat.not_le]
  intro beyond
  have noPage : store.disk[id.toNat + 1]? = none := Array.getElem?_eq_none (by
    have : store.pagesInUse ≤ id.toNat := beyond
    omega)
  have missing : store.peek id = .error (.unreadable id .page) := by
    rw [peek_of_not_inMemory (within id beyond), inFile, noPage]
  cases missing.symm.trans found

/-- In a closed store, no node is in memory beyond the pages in use. -/
theorem inMemory?_eq_none {store : Store} (closed : store.view.Closed) {id : PageNumber}
    (beyond : store.pagesInUse ≤ id.toNat) : store.inMemory? id = none := by
  cases present : store.inMemory? id with
  | none => rfl
  | some node => exact absurd (closed id node (peek_of_inMemory present)) (Nat.not_lt.mpr beyond)

/-- Memory without strays has no node beyond the pages in use. -/
theorem inMemory?_eq_none_of_strays {store : Store} (empty : store.strays = []) {id : PageNumber}
    (beyond : store.pagesInUse ≤ id.toNat) : store.inMemory? id = none := by
  rw [inMemory?_of_beyond beyond, empty]
  rfl

/-- The view of a store of an empty file is regular. -/
theorem regular_empty (limit : UInt32) : (view { limit }).Regular :=
  ⟨closed_view (Nat.zero_le _) fun _ => inMemory?_eq_none_of_strays rfl, Nat.two_pow_pos 32,
    Nat.zero_le _⟩

end Store

/-! ## How a computation ends -/

/-- On every store with the given view, the computation ends with an answer and a view as `done`
says, or with a fault and a view as `failed` says. -/
def Promises {α : Type} (view : View) (action : StoreM α) (done : α → View → Prop)
    (failed : Fault → View → Prop) : Prop :=
  ∀ store : Store, store.view = view →
    Ends store action (fun value after => done value after.view)
      fun fault after => failed fault after.view

namespace Promises

variable {α β : Type} {view : View} {done : α → View → Prop} {failed : Fault → View → Prop}

theorem of_ok {action : StoreM α} {store after : Store} {value : α}
    (promise : Promises store.view action done failed) (run : action store = .ok value after) :
    done value after.view :=
  (promise store rfl).of_ok run

theorem of_error {action : StoreM α} {store after : Store} {fault : Fault}
    (promise : Promises store.view action done failed) (run : action store = .error fault after) :
    failed fault after.view :=
  (promise store rfl).of_error run

theorem exists_ok {action : StoreM α} {store : Store}
    (promise : Promises store.view action done fun _ _ => False) :
    ∃ value after, action store = .ok value after ∧ done value after.view :=
  (promise store rfl).exists_ok

theorem answer_eq {action : StoreM α} {store : Store} {result : Except Fault α}
    (promise : Promises store.view action (fun value _ => result = .ok value)
      (fun fault _ => result = .error fault)) : answer action store = result :=
  (promise store rfl).answer_eq

theorem pure {value : α} (holds : done value view) :
    Promises view (Pure.pure value) done failed := by
  rintro store rfl
  exact holds

theorem throw {fault : Fault} (holds : failed fault view) :
    Promises view (throw fault : StoreM α) done failed := by
  rintro store rfl
  exact holds

theorem bind {action : StoreM β} {next : β → StoreM α}
    (steps : Promises view action (fun value after => Promises after (next value) done failed)
      failed) :
    Promises view (action >>= next) done failed := by
  intro store same
  apply Ends.bind
  apply (steps store same).weaken
  · intro value after rest
    exact rest after rfl
  · intro fault after fails
    exact fails

/-- A promise may be weakened. -/
theorem weaken {action : StoreM α} {done' : α → View → Prop} {failed' : Fault → View → Prop}
    (strong : Promises view action done' failed')
    (ofDone : ∀ value after, done' value after → done value after)
    (ofFailed : ∀ fault after, failed' fault after → failed fault after) :
    Promises view action done failed := by
  intro store same
  exact (strong store same).weaken (fun _ _ => ofDone _ _) fun _ _ => ofFailed _ _

/-- A computation that cannot fail needs nothing said about failing. -/
theorem mono {action : StoreM α} {done' : α → View → Prop}
    (sure : Promises view action done' fun _ _ => False)
    (ofDone : ∀ value after, done' value after → done value after) :
    Promises view action done failed :=
  sure.weaken ofDone fun _ _ never => never.elim

/-- What a computation that leaves the view alone answers. -/
theorem answer_eq_ok {action : StoreM α} {store : Store} {value : α}
    (sure : Promises store.view action (fun found after => found = value ∧ after = store.view)
      fun _ _ => False) : answer action store = .ok value := by
  apply answer_eq
  apply sure.mono
  rintro found after ⟨rfl, -⟩
  rfl

/-- Two promises about one computation hold together. -/
theorem and {action : StoreM α} {done' : α → View → Prop} {failed' : Fault → View → Prop}
    (first : Promises view action done failed) (second : Promises view action done' failed') :
    Promises view action (fun value after => done value after ∧ done' value after)
      (fun fault after => failed fault after ∧ failed' fault after) := by
  intro store same
  exact (first store same).and (second store same)

/-- A computation that looks at the whole store sees one with the view at hand. -/
theorem get {done : Store → View → Prop}
    (holds : ∀ store : Store, store.view = view → done store view) :
    Promises view get done failed := by
  rintro store rfl
  exact holds store rfl

theorem countPages {done : Nat → View → Prop} (holds : done view.pagesInUse view) :
    Promises view Store.countPages done failed := by
  rintro store rfl
  exact holds

theorem lift {result : Except Fault α} (ofOk : ∀ value, result = .ok value → done value view)
    (ofError : ∀ fault, result = .error fault → failed fault view) :
    Promises view (Store.lift result) done failed := by
  rintro store rfl
  cases result with
  | ok value => exact ofOk value rfl
  | error fault => exact ofError fault rfl

/-! ### Loading -/

theorem load {id : PageNumber} {done : Node → View → Prop}
    (found : ∀ node, view.nodes id = .ok node → done node view)
    (missing : ∀ fault, view.nodes id = .error fault → fault.isAboutPage = true →
      failed fault view) :
    Promises view (Store.load id) done failed := by
  rintro store rfl
  unfold Ends Store.load
  dsimp only
  cases result : store.peek id with
  | ok node =>
    show done node (store.cache id node).view
    rw [Store.view_cache_of_peek result]
    exact found node result
  | error fault => exact missing fault result (Store.isAboutPage_of_peek result)

theorem loadLeaf {id : PageNumber} {done : Leaf → View → Prop}
    (found : ∀ leaf, view.nodes id = .ok (.leaf leaf) → done leaf view)
    (missing : ∀ fault, (∀ leaf, view.nodes id ≠ .ok (.leaf leaf)) →
      fault.isAboutPage = true → failed fault view) :
    Promises view (Store.loadLeaf id) done failed := by
  refine .bind (.load ?_ ?_)
  · rintro (branch | leaf) present
    · exact .throw (missing _ (by simp [present]) rfl)
    · exact .pure (found leaf present)
  · intro fault absent aboutPage
    exact missing fault (by simp [absent]) aboutPage

theorem loadBranch {id : PageNumber} {done : Branch → View → Prop}
    (found : ∀ branch, view.nodes id = .ok (.branch branch) → done branch view)
    (missing : ∀ fault, (∀ branch, view.nodes id ≠ .ok (.branch branch)) →
      fault.isAboutPage = true → failed fault view) :
    Promises view (Store.loadBranch id) done failed := by
  refine .bind (.load ?_ ?_)
  · rintro (branch | leaf) present
    · exact .pure (found branch present)
    · exact .throw (missing _ (by simp [present]) rfl)
  · intro fault absent aboutPage
    exact missing fault (by simp [absent]) aboutPage

theorem load_of {id : PageNumber} {node : Node} {done : Node → View → Prop}
    (found : view.nodes id = .ok node) (holds : done node view) :
    Promises view (Store.load id) done failed := by
  refine .load (fun other present => ?_) (by simp [found])
  rw [found] at present
  cases present
  exact holds

theorem loadLeaf_of {id : PageNumber} {leaf : Leaf} {done : Leaf → View → Prop}
    (found : view.nodes id = .ok (.leaf leaf)) (holds : done leaf view) :
    Promises view (Store.loadLeaf id) done failed :=
  .bind (.load_of found (.pure holds))

theorem loadBranch_of {id : PageNumber} {branch : Branch} {done : Branch → View → Prop}
    (found : view.nodes id = .ok (.branch branch)) (holds : done branch view) :
    Promises view (Store.loadBranch id) done failed :=
  .bind (.load_of found (.pure holds))

/-! ### Changing -/

theorem replace {id : PageNumber} {node : Node} {done : Unit → View → Prop}
    (holds : done () (view.put id node)) :
    Promises view (Store.replace id node) done failed := by
  rintro store rfl
  show done () (store.cache id node).view
  rw [Store.view_cache]
  exact holds

theorem update {id : PageNumber} {change : Node → Node} {done : Unit → View → Prop}
    (found : ∀ node, view.nodes id = .ok node → done () (view.put id (change node)))
    (missing : ∀ fault, view.nodes id = .error fault → fault.isAboutPage = true →
      failed fault view) :
    Promises view (Store.update id change) done failed :=
  .bind (.load (fun node present => .replace (found node present)) missing)

theorem update_of {id : PageNumber} {change : Node → Node} {node : Node}
    {done : Unit → View → Prop} (found : view.nodes id = .ok node)
    (holds : done () (view.put id (change node))) :
    Promises view (Store.update id change) done failed :=
  .bind (.load_of found (.replace holds))

theorem allocate {node : Node} {done : PageNumber → View → Prop}
    (room : view.pagesInUse < view.limit.toNat → done view.fresh (view.push node))
    (full : view.limit.toNat ≤ view.pagesInUse →
      failed (.shortage (.pages view.limit)) view) :
    Promises view (Store.allocate node) done failed := by
  rintro store rfl
  unfold Ends Store.allocate
  dsimp only
  by_cases below : store.pagesInUse < store.limit.toNat
  · rw [if_pos below]
    show done _ (Store.view { store with slots := store.slots.push (some node) })
    rw [Store.view_push node below]
    exact room below
  · rw [if_neg below]
    exact full (Nat.le_of_not_lt below)

end Promises

end RowStore
