import RowStore.Node.Codec

/-!
# Stores of nodes

A store holds the nodes of one file. It numbers them from zero and never gives
a number back. Nodes are read from the file when they are first asked for and
are kept in memory from then on; every change happens in memory. The number of
nodes is limited, and a store that has reached its limit gives out no further
page.

The size of the file is a word, and the pages in use are counted by it. A file of
`2 ^ 32` bytes or more has pages beyond those in use: they can be read all the
same, and a page that is taken into use later may have the number of one of them.

`Store.peek` is what a page number means: the node in memory if there is one,
and else the node that the page in the file holds. Loading a node leaves that
meaning alone (`peek_cache`), so what has been loaded never shows in an answer.

Operations that can fail keep what they did before they failed, so they are
written over a state with faults (`StoreM`).
-/

set_option autoImplicit false

namespace RowStore

/-- The nodes of a file, partly in memory. The pages of the file are on `disk`, header first. There
is a slot for every page in use, by its number, and the slot is empty until the page is loaded;
nodes that were found beyond the pages in use are `strays`. As many pages as the limit says may be
in use.

The number of bytes in the file is kept as it was when the file was last opened, saved or cleared
(`fileSize`). It is a word, so of a file of `2 ^ 32` bytes or more it is the remainder. -/
structure Store where
  disk : Array Page := #[]
  slots : Array (Option Node) := #[]
  strays : List (PageNumber × Node) := []
  limit : UInt32
  fileSize : UInt32 := 0
  deriving DecidableEq

/-- A computation on a store that may fail half way. -/
abbrev StoreM := EStateM Fault Store

namespace Store

/-- The number of pages that a store may use unless told otherwise. -/
def defaultLimit : UInt32 := 100

/-- The number of pages in use, not counting the header. -/
def pagesInUse (store : Store) : Nat := store.slots.size

/-- The bytes of the file. -/
def contents (store : Store) : Bytes := store.disk.toList.flatMap Page.bytes

/-- The node in memory on a page, if there is one. -/
def inMemory? (store : Store) (id : PageNumber) : Option Node :=
  match store.slots[id.toNat]? with
  | some slot => slot
  | none => store.strays.lookup id

/-- The node in the file on a page. -/
def inFile (store : Store) (id : PageNumber) : Except Fault Node :=
  match store.disk[id.toNat + 1]? with
  | none => .error (.unreadable id .page)
  | some page => (Node.ofPage page).mapError (Fault.corrupt id)

/-- The node that a page number stands for. -/
def peek (store : Store) (id : PageNumber) : Except Fault Node :=
  match store.inMemory? id with
  | some node => .ok node
  | none => store.inFile id

/-- The store with a node in memory. -/
def cache (store : Store) (id : PageNumber) (node : Node) : Store :=
  if id.toNat < store.slots.size then
    { store with slots := store.slots.setIfInBounds id.toNat (some node) }
  else
    { store with strays := (id, node) :: store.strays.filter (·.1 ≠ id) }

/-! ## Computations on a store -/

/-- What does not depend on the store. -/
def lift {α : Type} (result : Except Fault α) : StoreM α := fun store =>
  match result with
  | .ok value => .ok value store
  | .error fault => .error fault store

/-- The node on a page. From now on it is in memory. -/
def load (id : PageNumber) : StoreM Node := fun store =>
  match store.peek id with
  | .ok node => .ok node (store.cache id node)
  | .error fault => .error fault store

/-- The leaf on a page. -/
def loadLeaf (id : PageNumber) : StoreM Leaf := do
  match ← load id with
  | .leaf leaf => return leaf
  | .branch _ => throw (.corrupt id .notLeaf)

/-- The branch on a page. -/
def loadBranch (id : PageNumber) : StoreM Branch := do
  match ← load id with
  | .branch branch => return branch
  | .leaf _ => throw (.corrupt id .notBranch)

/-- Put a node on a page, in place of the one that is there. -/
def replace (id : PageNumber) (node : Node) : StoreM Unit := modify (·.cache id node)

/-- Change the node on a page. -/
def update (id : PageNumber) (change : Node → Node) : StoreM Unit := do
  let node ← load id
  replace id (change node)

/-- The number of pages in use. -/
def countPages : StoreM Nat := return (← get).pagesInUse

/-- Take a new page into use for a node. What the file has on that page is not seen any more. -/
def allocate (node : Node) : StoreM PageNumber := fun store =>
  if store.pagesInUse < store.limit.toNat then
    .ok (UInt32.ofNat store.pagesInUse) { store with slots := store.slots.push (some node) }
  else
    .error (.shortage (.pages store.limit)) store

/-! ## What the operations do to the meaning of page numbers -/

/-- A node in memory is what its page number stands for. -/
theorem peek_of_inMemory {store : Store} {id : PageNumber} {node : Node}
    (present : store.inMemory? id = some node) : store.peek id = .ok node := by
  simp only [peek, present]

/-- What is not in memory is looked up in the file. -/
theorem peek_of_not_inMemory {store : Store} {id : PageNumber}
    (absent : store.inMemory? id = none) : store.peek id = store.inFile id := by
  simp only [peek, absent]

/-- The node in memory on a page in use. -/
theorem inMemory?_of_slot {store : Store} {id : PageNumber} {slot : Option Node}
    (present : store.slots[id.toNat]? = some slot) : store.inMemory? id = slot := by
  simp only [inMemory?, present]

/-- Beyond the pages in use, memory is a list. -/
theorem inMemory?_of_beyond {store : Store} {id : PageNumber}
    (beyond : store.pagesInUse ≤ id.toNat) : store.inMemory? id = store.strays.lookup id := by
  simp only [inMemory?, Array.getElem?_eq_none beyond]

private theorem lookup_filter_ne (strays : List (PageNumber × Node)) {id other : PageNumber}
    (apart : other ≠ id) : (strays.filter (·.1 ≠ id)).lookup other = strays.lookup other := by
  induction strays with
  | nil => rfl
  | cons stray strays ih =>
    obtain ⟨first, node⟩ := stray
    by_cases same : first = id
    · subst same
      have differs : (other == first) = false := beq_false_of_ne apart
      rw [List.filter_cons_of_neg (by simp), ih, List.lookup_cons, differs]
    · rw [List.filter_cons_of_pos (by simpa using same), List.lookup_cons, List.lookup_cons, ih]

/-- A page in use has a slot for its node. -/
theorem cache_of_inUse {store : Store} {id : PageNumber} (node : Node)
    (inUse : id.toNat < store.pagesInUse) :
    store.cache id node = { store with slots := store.slots.setIfInBounds id.toNat (some node) } :=
  if_pos inUse

section Cache

variable (store : Store) (id : PageNumber) (node : Node)

/-- Keeping a node in memory does not take pages into use. -/
@[simp] theorem pagesInUse_cache : (store.cache id node).pagesInUse = store.pagesInUse := by
  unfold cache
  split
  · exact Array.size_setIfInBounds
  · rfl

@[simp] theorem disk_cache : (store.cache id node).disk = store.disk := by
  unfold cache
  split <;> rfl

@[simp] theorem limit_cache : (store.cache id node).limit = store.limit := by
  unfold cache
  split <;> rfl

@[simp] theorem fileSize_cache : (store.cache id node).fileSize = store.fileSize := by
  unfold cache
  split <;> rfl

end Cache

/-- Keeping a node in memory changes what is there on one page. -/
theorem inMemory?_cache (store : Store) (id other : PageNumber) (node : Node) :
    (store.cache id node).inMemory? other =
      if other = id then some node else store.inMemory? other := by
  have numbers : other.toNat = id.toNat ↔ other = id := UInt32.toNat_inj
  unfold cache inMemory?
  by_cases inside : id.toNat < store.slots.size
  · simp only [inside, if_true, Array.getElem?_setIfInBounds]
    by_cases same : other = id
    · simp only [same, if_true]
    · have apart : id.toNat ≠ other.toNat := fun equal => same (numbers.mp equal.symm)
      simp only [same, if_false, apart]
  · simp only [inside, if_false]
    by_cases same : other = id
    · have beyond : store.slots[id.toNat]? = none :=
        Array.getElem?_eq_none (Nat.le_of_not_lt inside)
      simp only [same, if_true, beyond, List.lookup_cons, beq_self_eq_true]
    · have differs : (other == id) = false := by simp [same]
      simp only [same, if_false, List.lookup_cons, differs, lookup_filter_ne store.strays same]

/-- A page stands for the node that was last put there. -/
theorem peek_cache_self (store : Store) (id : PageNumber) (node : Node) :
    (store.cache id node).peek id = .ok node :=
  peek_of_inMemory (by rw [inMemory?_cache, if_pos rfl])

/-- Other pages stand for what they stood for. -/
theorem peek_cache_of_ne {store : Store} {id other : PageNumber} (node : Node)
    (apart : id ≠ other) : (store.cache id node).peek other = store.peek other := by
  unfold peek inFile
  rw [inMemory?_cache, if_neg (Ne.symm apart), disk_cache]

/-- Keeping the node that a page number stands for leaves the meaning of every page number
alone. -/
theorem peek_cache {store : Store} {id : PageNumber} {node : Node}
    (found : store.peek id = .ok node) (other : PageNumber) :
    (store.cache id node).peek other = store.peek other := by
  by_cases same : id = other
  · subst same
    rw [peek_cache_self, found]
  · exact peek_cache_of_ne node same

end Store

end RowStore
