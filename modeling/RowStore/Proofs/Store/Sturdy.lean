import RowStore.Proofs.Invariant
import RowStore.Proofs.Node.Grammar

/-!
# Stores of sturdy nodes

A node is sturdy if its lists match and its keys do not descend (`Node.Sturdy`). That is all
that can be said of a node whose references may be wrong.

In a sturdy store every node is sturdy, whether it is in memory or still in the file
(`View.Sturdy`). Opening a file gives such a store if the keys on its pages do not descend,
because a page whose lists do not match is not read. Writing keeps a store sturdy also where
it stops half way (`Store.preserves_flush`): each page of the file is then what it was, or the
page of a sturdy node, or blank.
-/

set_option autoImplicit false

namespace RowStore

/-! ## Sturdy nodes -/

namespace Node

/-- The keys of the node do not descend. -/
def InOrder : Node → Prop
  | branch node => node.separators.Pairwise (· ≤ ·)
  | leaf node => node.keys.Pairwise (· ≤ ·)

/-- The lists of the node match and its keys do not descend. -/
structure Sturdy (node : Node) : Prop where
  shaped : node.WellShaped
  ordered : node.InOrder

/-- A node that was read needs only its keys to be in order. -/
theorem sturdy_of_ofPage {page : Page} {node : Node} (found : ofPage page = .ok node)
    (ordered : node.InOrder) : node.Sturdy :=
  ⟨(ofPage_eq_ok_iff.mp found).1.shaped, ordered⟩

theorem inOrder_restored {node : Node} : node.restored.InOrder ↔ node.InOrder := by
  cases node <;> rfl

end Node

namespace Page

/-- The page is the one that the file has under the number. -/
def StandsIn (page : Page) (contents : Bytes) (id : PageNumber) : Prop :=
  page.bytes = (contents.drop (offset id)).take size

/-- The bytes at the place of a page in a file of pages are that page. -/
theorem bytes_eq_iff {pages : List Page} {page : Page} {index : Nat} :
    page.bytes = ((pages.flatMap bytes).drop (index * size)).take size ↔
      pages[index]? = some page := by
  induction pages generalizing index with
  | nil =>
    rw [List.flatMap_nil, List.drop_nil, List.take_nil, ← List.length_eq_zero_iff,
      page.length_bytes]
    exact ⟨nofun, nofun⟩
  | cons first pages ih =>
    have front : first.bytes.length = size := first.length_bytes
    cases index with
    | zero =>
      rw [Nat.zero_mul, List.drop_zero, List.flatMap_cons, ← front, List.take_left,
        List.getElem?_cons_zero, Option.some.injEq]
      exact ⟨fun same => (ext_bytes same).symm, fun same => same ▸ rfl⟩
    | succ index =>
      rw [List.flatMap_cons, Nat.succ_mul, Nat.add_comm, ← List.drop_drop, ← front, List.drop_left,
        front, List.getElem?_cons_succ]
      exact ih

theorem standsIn_flatMap_iff {pages : List Page} {page : Page} {id : PageNumber} :
    page.StandsIn (pages.flatMap bytes) id ↔ pages[id.toNat + 1]? = some page :=
  bytes_eq_iff

/-- A node that is read from the page is sturdy. -/
def Sturdy (page : Page) : Prop := ∀ node, Node.ofPage page = .ok node → node.Sturdy

/-- No node is read from a page of zeros. -/
theorem sturdy_blank : blank.Sturdy := by
  intro node found
  have refused : Node.ofPage blank = .error .childCountMismatch := rfl
  rw [refused] at found
  cases found

/-- The page that a sturdy node is written to is sturdy. -/
theorem sturdy_of_toPage {node : Node} {page : Page} (sturdy : node.Sturdy)
    (written : node.toPage = .ok page) : page.Sturdy := by
  unfold Node.toPage at written
  split at written
  next small =>
    cases written
    intro other found
    have begins : (ofBytes node.toBytes).BeginsWith node := by
      refine ⟨sturdy.shaped, small, markToByte node.rootMark,
        List.replicate (size - node.toBytes.length) 0, ?_, ?_⟩
      · cases node.rootMark <;> rfl
      · rw [bytes_ofBytes_of_le _ (Node.length_toBytes sturdy.shaped ▸ small), Node.set_toBytes]
    cases begins.ofPage.symm.trans found
    exact Node.sturdy_of_ofPage found (Node.inOrder_restored.mpr sturdy.ordered)
  next => cases written

end Page

/-! ## Sturdy stores -/

/-- Every page of the file is sturdy. The header is not asked, since no node is read from it. -/
def SturdyFile (disk : Array Page) : Prop :=
  ∀ (id : PageNumber) (page : Page), disk[id.toNat + 1]? = some page → page.Sturdy

/-- After a page was written, the file has that page at its place, pages that it had before, and
blank pages in between. -/
theorem Store.writeAt_cases {disk : Array Page} {place other : Nat} {page found : Page}
    (present : (writeAt disk place page)[other]? = some found) :
    (other = place ∧ found = page) ∨ disk[other]? = some found ∨ found = Page.blank := by
  unfold writeAt at present
  split at present
  · rw [Array.getElem?_setIfInBounds] at present
    split at present
    next same =>
      cases present
      exact .inl ⟨same.symm, rfl⟩
    next => exact .inr (.inl present)
  · have size : (disk ++ Array.replicate (place - disk.size) Page.blank).size = place := by
      rw [Array.size_append, Array.size_replicate]
      omega
    rw [Array.getElem?_push, size] at present
    split at present
    next same =>
      cases present
      exact .inl ⟨same, rfl⟩
    next =>
      rw [Array.getElem?_append, Array.getElem?_replicate] at present
      split at present
      · exact .inr (.inl present)
      · split at present
        · cases present
          exact .inr (.inr rfl)
        · cases present

theorem SturdyFile.writeAt {disk : Array Page} {place : Nat} {page : Page}
    (file : SturdyFile disk) (here : ∀ id : PageNumber, id.toNat + 1 = place → page.Sturdy) :
    SturdyFile (Store.writeAt disk place page) := by
  intro id found present
  rcases Store.writeAt_cases present with ⟨same, rfl⟩ | before | rfl
  · exact here id same
  · exact file id found before
  · exact Page.sturdy_blank

/-- Every node is sturdy, in memory or in the file. -/
structure View.Sturdy (view : View) : Prop where
  closed : view.Closed
  bounded : view.disk.size ≤ view.pagesInUse + 1
  nodes : ∀ id node, view.nodes id = .ok node → node.Sturdy
  file : SturdyFile view.disk

namespace View

variable {view : View} {id : PageNumber} {node : Node}

theorem Sturdy.put (sturdy : view.Sturdy) (found : node.Sturdy)
    (inUse : id.toNat < view.pagesInUse) : (view.put id node).Sturdy := by
  refine ⟨sturdy.closed.put node inUse, sturdy.bounded, fun other node' present => ?_,
    sturdy.file⟩
  by_cases same : other = id
  · rw [same, nodes_put_self] at present
    cases present
    exact found
  · rw [nodes_put_of_ne node same] at present
    exact sturdy.nodes other node' present

theorem Sturdy.push (sturdy : view.Sturdy) (found : node.Sturdy)
    (room : view.pagesInUse < view.limit.toNat) : (view.push node).Sturdy := by
  refine ⟨sturdy.closed.push node room, Nat.le_succ_of_le sturdy.bounded,
    fun other node' present => ?_, sturdy.file⟩
  by_cases same : other = view.fresh
  · rw [same, nodes_push_fresh] at present
    cases present
    exact found
  · rw [nodes_push_of_ne node same] at present
    exact sturdy.nodes other node' present

end View

namespace Store

/-- A store is sturdy if its nodes in memory and its file are. -/
theorem sturdy_view {store : Store} (bounded : store.disk.size ≤ store.pagesInUse + 1)
    (within : ∀ id : PageNumber, store.pagesInUse ≤ id.toNat → store.inMemory? id = none)
    (memory : ∀ (id : PageNumber) (node : Node), store.inMemory? id = some node → node.Sturdy)
    (file : SturdyFile store.disk) : store.view.Sturdy := by
  refine ⟨closed_view bounded within, bounded, fun id node found => ?_, file⟩
  cases present : store.inMemory? id with
  | some node' =>
    cases (peek_of_inMemory present).symm.trans found
    exact memory id node present
  | none =>
    have reads : store.inFile id = .ok node := (peek_of_not_inMemory present).symm.trans found
    unfold inFile at reads
    split at reads
    · cases reads
    next page stored =>
      cases held : Node.ofPage page with
      | error defect =>
        rw [held] at reads
        cases reads
      | ok node' =>
        rw [held] at reads
        cases reads
        exact file id page stored node held

/-! ## Files -/

theorem sturdy_of_ofContents {contents : Bytes} {limit : UInt32} {store : Store}
    (opens : ofContents contents limit = .ok store) (small : contents.length < UInt32.size)
    (file : contents.length % Page.size = 0 → SturdyFile (Page.allOf contents).toArray) :
    store.view.Sturdy := by
  obtain ⟨whole, rfl⟩ := whole_of_ofContents opens
  have few := size_allOf_le whole small
  have regular := regular_ofPages few limit
  refine sturdy_view regular.bounded (fun _ => inMemory?_eq_none regular.closed) ?_ (file whole)
  intro id node present
  rw [inMemory?_ofPages] at present
  cases present

/-- Every store that is opened on the file is sturdy. -/
def OpensSturdy (contents : Bytes) : Prop :=
  ∀ (limit : UInt32) (store : Store), ofContents contents limit = .ok store → store.view.Sturdy

/-- A file of fewer than `2 ^ 32` bytes opens sturdy if the keys on each of its pages do not
descend. -/
theorem opensSturdy_of_inOrder {contents : Bytes} (small : contents.length < UInt32.size)
    (ordered : ∀ (id : PageNumber) (page : Page) (node : Node), page.StandsIn contents id →
      Node.ofPage page = .ok node → node.InOrder) : OpensSturdy contents := by
  intro limit store opens
  refine sturdy_of_ofContents opens small fun whole id page present node found => ?_
  rw [List.getElem?_toArray, ← Page.standsIn_flatMap_iff, Page.flatMap_allOf whole] at present
  exact Node.sturdy_of_ofPage found (ordered id page node present found)

/-- The file of a sturdy store opens sturdy. -/
theorem opensSturdy_of_sturdy {store : Store} (sturdy : store.view.Sturdy)
    (small : store.contents.length < UInt32.size) : OpensSturdy store.contents := by
  intro limit opened opens
  refine sturdy_of_ofContents opens small fun _ => ?_
  rw [contents, Page.allOf_flatMap]
  exact sturdy.file

/-! ## Writing -/

/-- Wherever writing slots stops, only pages of nodes in the slots were written. -/
theorem writeSlots_sturdy (slots : List (Option Node)) (place : Nat) (store : Store)
    (file : SturdyFile store.disk)
    (written : ∀ (id : PageNumber) (index : Nat) (node : Node), id.toNat + 1 = place + index →
      slots[index]? = some (some node) → node.Sturdy) :
    Ends store (writeSlots place slots)
      (fun _ after => after.inMemory? = store.inMemory? ∧ SturdyFile after.disk)
      (fun fault after => (after.inMemory? = store.inMemory? ∧ SturdyFile after.disk) ∧
        fault.isDeclared = true) := by
  induction slots generalizing place store with
  | nil => exact ⟨rfl, file⟩
  | cons slot slots ih =>
    have later : ∀ (id : PageNumber) (index : Nat) (node : Node), id.toNat + 1 = place + 1 + index →
        slots[index]? = some (some node) → node.Sturdy := by
      intro id index node here present
      exact written id (index + 1) node (by omega) present
    cases slot with
    | none => exact ih (place + 1) store file later
    | some node =>
      cases fits : node.toPage with
      | error shortage =>
        rw [Ends, writeSlots_stopped fits]
        exact ⟨⟨rfl, file⟩, rfl⟩
      | ok page =>
        rw [Ends, writeSlots_some fits]
        refine ih (place + 1) { store with disk := writeAt store.disk place page } ?_ later
        exact file.writeAt fun id here =>
          Page.sturdy_of_toPage (written id 0 node here rfl) fits

/-- A flush keeps a store sturdy, and also where it stops half way. -/
theorem preserves_flush (header : Page) :
    Preserves (·.isDeclared) (fun store => store.view.Sturdy) (flush header) := by
  intro store sturdy
  have memory : ∀ (id : PageNumber) (node : Node), store.inMemory? id = some node →
      node.Sturdy := by
    intro id node present
    exact sturdy.nodes id node (peek_of_inMemory present)
  have file : SturdyFile (writeAt store.disk 0 header) :=
    sturdy.file.writeAt fun id here => absurd here (Nat.succ_ne_zero _)
  have writes := writeSlots_sturdy store.slots.toList 1
    { store with disk := writeAt store.disk 0 header } file
  have written : ∀ (id : PageNumber) (index : Nat) (node : Node), id.toNat + 1 = 1 + index →
      store.slots.toList[index]? = some (some node) → node.Sturdy := by
    intro id index node here present
    have index : index = id.toNat := by omega
    rw [index, Array.getElem?_toList] at present
    exact memory id node (inMemory?_of_slot present)
  have flushes : Ends store (flush header)
      (fun _ after => after.inMemory? = store.inMemory? ∧ SturdyFile after.disk)
      (fun fault after => (after.inMemory? = store.inMemory? ∧ SturdyFile after.disk) ∧
        fault.isDeclared = true) := by
    rw [Ends, flush_eq header sturdy.closed]
    exact Ends.bind (writes written)
  have enough : ∀ after : Store, after.inMemory? = store.inMemory? → SturdyFile after.disk →
      (after.pagesInUse = store.pagesInUse ∧ after.disk.size ≤ after.pagesInUse + 1) →
      after.view.Sturdy := by
    rintro after same file ⟨pages, bounded⟩
    refine sturdy_view bounded (fun id beyond => ?_) (same ▸ memory) file
    rw [same]
    exact inMemory?_eq_none sturdy.closed (pages ▸ beyond)
  refine (flushes.and (flush_bounded sturdy.closed sturdy.bounded header)).weaken ?_ ?_
  · rintro _ after ⟨⟨same, file⟩, bounded⟩
    exact enough after same file bounded
  · rintro fault after ⟨⟨⟨same, file⟩, inside⟩, bounded⟩
    exact ⟨enough after same file bounded, inside⟩

theorem preserves_clear : Preserves (·.isDeclared) (fun store => store.view.Sturdy) clear := by
  refine .modify fun store sturdy => sturdy_view (Nat.zero_le _) ?_ ?_ ?_
  · exact fun _ => inMemory?_eq_none_of_strays rfl
  · intro id node present
    cases present
  · intro id page present
    cases present

end Store

/-! ## Computations -/

/-- Started on a store with the view, the computation leaves a sturdy store wherever it ends. -/
def View.Safe {α : Type} (view : View) (action : StoreM α) : Prop :=
  Promises view action (fun _ after => after.Sturdy)
    fun fault after => after.Sturdy ∧ fault.isDeclared = true

namespace View

variable {α β : Type} {view : View} (sturdy : view.Sturdy)

/-- A computation that is safe on every sturdy view keeps stores sturdy. -/
theorem preserves_of_safe {action : StoreM α}
    (safe : ∀ view : View, view.Sturdy → view.Safe action) :
    Preserves (·.isDeclared) (fun store => store.view.Sturdy) action :=
  fun store sturdy => safe store.view sturdy store rfl

/-- A computation goes on from a sturdy store if its first part was safe. -/
theorem Safe.bind {first : StoreM β} {next : β → StoreM α} (safe : view.Safe first)
    (later : ∀ value after, after.Sturdy → View.Safe after (next value)) :
    view.Safe (first >>= next) :=
  Promises.bind (Promises.weaken safe later fun _ _ stops => stops)

include sturdy

theorem Sturdy.pure (value : α) : view.Safe (pure value : StoreM α) := .pure sturdy

theorem Sturdy.throw {fault : Fault} (inside : fault.isDeclared = true) :
    view.Safe (throw fault : StoreM α) :=
  .throw ⟨sturdy, inside⟩

/-- A first part that leaves the view alone does not matter. -/
theorem Sturdy.still {first : StoreM β} {next : β → StoreM α} (still : Still Store.view first)
    (later : ∀ value, view.Safe (next value)) : view.Safe (first >>= next) := by
  intro store same
  apply Ends.bind
  refine (still view store same).weaken (fun value after same' => later value after same') ?_
  rintro fault after ⟨rfl, inside⟩
  exact ⟨sturdy, inside⟩

theorem Sturdy.load {id : PageNumber} {next : Node → StoreM α}
    (found : ∀ node, view.nodes id = .ok node → view.Safe (next node)) :
    view.Safe (Store.load id >>= next) :=
  Promises.bind (.load found fun _ _ aboutPage =>
    ⟨sturdy, Fault.isDeclared_of_aboutPage aboutPage⟩)

theorem Sturdy.loadLeaf {id : PageNumber} {next : Leaf → StoreM α}
    (found : ∀ leaf, view.nodes id = .ok (.leaf leaf) → view.Safe (next leaf)) :
    view.Safe (Store.loadLeaf id >>= next) :=
  Promises.bind (.loadLeaf found fun _ _ aboutPage =>
    ⟨sturdy, Fault.isDeclared_of_aboutPage aboutPage⟩)

theorem Sturdy.loadBranch {id : PageNumber} {next : Branch → StoreM α}
    (found : ∀ branch, view.nodes id = .ok (.branch branch) → view.Safe (next branch)) :
    view.Safe (Store.loadBranch id >>= next) :=
  Promises.bind (.loadBranch found fun _ _ aboutPage =>
    ⟨sturdy, Fault.isDeclared_of_aboutPage aboutPage⟩)

theorem Sturdy.replace {id : PageNumber} {old node : Node} (found : view.nodes id = .ok old)
    (new : node.Sturdy) : view.Safe (Store.replace id node) :=
  .replace (sturdy.put new (sturdy.closed id old found))

theorem Sturdy.update {id : PageNumber} {change : Node → Node}
    (keeps : ∀ node : Node, node.Sturdy → (change node).Sturdy) :
    view.Safe (Store.update id change) :=
  .update
    (fun node found => sturdy.put (keeps node (sturdy.nodes id node found))
      (sturdy.closed id node found))
    fun _ _ aboutPage => ⟨sturdy, Fault.isDeclared_of_aboutPage aboutPage⟩

theorem Sturdy.allocate {node : Node} (new : node.Sturdy) : view.Safe (Store.allocate node) :=
  .allocate (fun room => sturdy.push new room) fun _ => ⟨sturdy, rfl⟩

end View

end RowStore
