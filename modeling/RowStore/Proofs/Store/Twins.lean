import RowStore.Proofs.Lockstep
import RowStore.Proofs.Store.Reopen

/-!
# Stores with the same nodes

Two stores are twins if every page number stands for the same node in both, whichever of
these are in memory and whatever their files hold otherwise (`Store.Twins`). No computation
that goes through page numbers can tell twins apart: the operations of a store go in
lockstep on them, so everything that is built from these does (`Store.Blind`).

A flush makes the files of twins the same (`Store.Twins.flush`). It writes only what is in
memory, so this needs that a page which is not in memory is in the file exactly as a
flush would write it (`Store.Faithful`). Pages get there by a flush only, and what is
in memory is never dropped.
-/

set_option autoImplicit false

namespace RowStore

/-- The page is as a flush would write it. -/
def Page.Canonical (page : Page) : Prop :=
  ∃ node, Node.ofPage page = .ok node ∧ node.toPage = .ok page

namespace Store

/-- Every page of the file that is not in memory is as a flush would write it. -/
def Faithful (store : Store) : Prop :=
  ∀ (index : Nat) (page : Page), store.slots[index]? = some none →
    store.disk[index + 1]? = some page → page.Canonical

/-- The stores have the same nodes on the same pages, and may use as many as the limit says. -/
structure Twins (limit : UInt32) (store other : Store) : Prop where
  nodes : other.peek = store.peek
  pages : other.pagesInUse = store.pagesInUse
  limited : store.limit = limit
  limited' : other.limit = limit
  faithful : store.Faithful
  faithful' : other.Faithful

/-- The computation answers the same on twins, and leaves twins behind. -/
def Blind {α : Type} (limit : UInt32) (action : StoreM α) : Prop :=
  Lockstep (Twins limit) action action

/-! ## What a change of memory does to a store -/

/-- A page stands for the node that is put there, and other pages for what they stood for. -/
theorem peek_cache_eq (store : Store) (id : PageNumber) (node : Node) (other : PageNumber) :
    (store.cache id node).peek other = if other = id then .ok node else store.peek other := by
  by_cases same : other = id
  · subst same
    rw [if_pos rfl, peek_cache_self]
  · rw [if_neg same, peek_cache_of_ne node (Ne.symm same)]

theorem peek_push_eq {store : Store} (node : Node) (room : store.pagesInUse < store.limit.toNat)
    (other : PageNumber) :
    peek { store with slots := store.slots.push (some node) } other =
      if other = UInt32.ofNat store.pagesInUse then .ok node else store.peek other := by
  have view := congrArg (fun view : View => view.nodes other) (view_push node room)
  refine view.trans ?_
  by_cases fresh : other = UInt32.ofNat store.pagesInUse
  · rw [if_pos fresh, fresh]
    exact View.nodes_push_fresh ..
  · rw [if_neg fresh]
    exact View.nodes_push_of_ne node fresh

theorem Faithful.cache {store : Store} (faithful : store.Faithful) (id : PageNumber) (node : Node) :
    (store.cache id node).Faithful := by
  intro index page unloaded stored
  rw [disk_cache] at stored
  refine faithful index page ?_ stored
  unfold Store.cache at unloaded
  split at unloaded
  next =>
    rw [Array.getElem?_setIfInBounds] at unloaded
    split at unloaded
    next => cases unloaded
    next => exact unloaded
  next => exact unloaded

theorem Faithful.push {store : Store} (faithful : store.Faithful) (node : Node) :
    Faithful { store with slots := store.slots.push (some node) } := by
  intro index page unloaded stored
  refine faithful index page ?_ stored
  rw [Array.getElem?_push] at unloaded
  split at unloaded
  next => cases unloaded
  next => exact unloaded

namespace Twins

variable {limit : UInt32} {store other : Store}

theorem sameLimit (twins : store.Twins limit other) : other.limit = store.limit :=
  twins.limited'.trans twins.limited.symm

theorem cache (twins : store.Twins limit other) (id : PageNumber) (node : Node) :
    (store.cache id node).Twins limit (other.cache id node) := by
  refine ⟨?_, ?_, (limit_cache ..).trans twins.limited, (limit_cache ..).trans twins.limited',
    twins.faithful.cache id node, twins.faithful'.cache id node⟩
  · funext number
    rw [peek_cache_eq, peek_cache_eq, twins.nodes]
  · rw [pagesInUse_cache, pagesInUse_cache, twins.pages]

theorem push (twins : store.Twins limit other) (node : Node)
    (room : store.pagesInUse < store.limit.toNat) :
    Twins limit { store with slots := store.slots.push (some node) }
      { other with slots := other.slots.push (some node) } := by
  have room' : other.pagesInUse < other.limit.toNat := by
    rwa [twins.pages, twins.sameLimit]
  refine ⟨?_, ?_, twins.limited, twins.limited', twins.faithful.push node,
    twins.faithful'.push node⟩
  · funext number
    rw [peek_push_eq node room, peek_push_eq node room', twins.pages, twins.nodes]
  · show (other.slots.push (some node)).size = (store.slots.push (some node)).size
    rw [Array.size_push, Array.size_push]
    exact congrArg Nat.succ twins.pages

end Twins

/-! ## Computations on twins -/

namespace Blind

variable {α β : Type} {limit : UInt32}

theorem pure (value : α) : Blind limit (Pure.pure value) := Lockstep.pure value

theorem throw (fault : Fault) : Blind limit (throw fault : StoreM α) := Lockstep.throw fault

theorem bind {action : StoreM β} {next : β → StoreM α} (first : Blind limit action)
    (later : ∀ value, Blind limit (next value)) : Blind limit (action >>= next) :=
  Lockstep.bind first later

theorem load (id : PageNumber) : Blind limit (Store.load id) := by
  intro store other twins
  have same := congrFun twins.nodes id
  cases found : store.peek id with
  | ok node =>
    rw [found] at same
    refine Lockstep.of_ok node ?_ ?_ (twins.cache id node)
    · simp only [Store.load, found]
    · simp only [Store.load, same]
  | error fault =>
    rw [found] at same
    refine Lockstep.of_error fault ?_ ?_ twins
    · simp only [Store.load, found]
    · simp only [Store.load, same]

theorem replace (id : PageNumber) (node : Node) : Blind limit (Store.replace id node) :=
  fun _ _ twins => Lockstep.of_ok () rfl rfl (twins.cache id node)

theorem allocate (node : Node) : Blind limit (Store.allocate node) := by
  intro store other twins
  have pages := twins.pages
  have sameLimit := twins.sameLimit
  by_cases room : store.pagesInUse < store.limit.toNat
  · refine Lockstep.of_ok (UInt32.ofNat store.pagesInUse) ?_ ?_ (twins.push node room)
    · simp only [Store.allocate, room, if_true]
    · simp only [Store.allocate, pages, sameLimit, room, if_true]
  · refine Lockstep.of_error (.shortage (.pages store.limit)) ?_ ?_ twins
    · simp only [Store.allocate, room, if_false]
    · simp only [Store.allocate, pages, sameLimit, room, if_false]

theorem get {next : Store → StoreM α}
    (later : ∀ store other, Twins limit store other →
      Lockstep (Twins limit) (next store) (next other)) :
    Blind limit (get >>= next) :=
  Lockstep.get later

theorem countPages : Blind limit Store.countPages := by
  intro store other twins
  refine Lockstep.of_ok store.pagesInUse rfl ?_ twins
  rw [← twins.pages]
  rfl

theorem update (id : PageNumber) (change : Node → Node) : Blind limit (Store.update id change) :=
  .bind (load id) fun node => replace id (change node)

end Blind

/-! ## Files of twins -/

/-- Every page of the file after the header is as a flush would write it. -/
def CanonicalFile (disk : Array Page) : Prop :=
  ∀ (index : Nat) (page : Page), disk[index + 1]? = some page → page.Canonical

theorem CanonicalFile.faithful {store : Store} (canonical : CanonicalFile store.disk) :
    store.Faithful :=
  fun index page _ stored => canonical index page stored

/-- After a flush, all pages are as it wrote them or would have written them. -/
theorem Written.canonicalFile {store : Store} {header : Page} {disk : Array Page}
    (written : Written 1 store.slots.toList (writeAt store.disk 0 header) disk)
    (writable : store.view.Writable) (regular : store.view.Regular) (faithful : store.Faithful) :
    CanonicalFile disk := by
  have first := getElem?_writeAt header (Nat.zero_le store.disk.size)
  have count : store.slots.toList.length = store.slots.size := Array.length_toList
  intro index page stored
  have inside := (Array.getElem?_eq_some_iff.mp stored).1
  have bounded : store.disk.size ≤ store.slots.size + 1 := regular.bounded
  rw [written.size, count, size_writeAt] at inside
  have inUse : index < store.slots.size := by omega
  have present := Array.getElem?_eq_getElem inUse
  generalize store.slots[index] = slot at present
  have listed : store.slots.toList[index]? = some slot := Array.getElem?_toList.trans present
  rw [Nat.add_comm] at stored
  cases slot with
  | some node =>
    obtain ⟨page', fits, there⟩ := written.loaded index node listed
    cases there.symm.trans stored
    have number := regular.toNat_ofNat inUse
    rw [← number] at present
    obtain ⟨again, fits', reads⟩ := exists_page_of_loaded writable present
    cases fits.symm.trans fits'
    exact ⟨node, reads, fits⟩
  | none =>
    rw [written.unloaded index listed, first, if_neg (by omega), Nat.add_comm] at stored
    exact faithful index page present stored

/-- A file that holds the nodes as a flush writes them is determined by them. -/
theorem Saved.disk_eq {store other : Store} {header : Page} {disk disk' : Array Page}
    (saved : Saved store header disk) (saved' : Saved other header disk')
    (canonical : CanonicalFile disk) (canonical' : CanonicalFile disk')
    (nodes : other.peek = store.peek) (pages : other.pagesInUse = store.pagesInUse)
    (numbered : store.pagesInUse < UInt32.size) : disk' = disk := by
  have size : disk'.size = disk.size := by
    rw [saved.size, saved'.size, pages]
  apply Array.ext_getElem?
  rintro (_ | index)
  · rw [saved.header, saved'.header]
  · by_cases inUse : index < store.pagesInUse
    · have number : (UInt32.ofNat index).toNat = index := by
        rw [UInt32.toNat_ofNat']
        exact Nat.mod_eq_of_lt (Nat.lt_trans inUse numbered)
      obtain ⟨page, node, stored, reads, found⟩ :=
        saved.nodes (UInt32.ofNat index) (by rwa [number])
      obtain ⟨page', node', stored', reads', found'⟩ :=
        saved'.nodes (UInt32.ofNat index) (by rwa [number, pages])
      rw [number] at stored stored'
      rw [nodes, found] at found'
      cases found'
      obtain ⟨_, again, fits⟩ := canonical index page stored
      obtain ⟨_, again', fits'⟩ := canonical' index page' stored'
      cases reads.symm.trans again
      cases reads'.symm.trans again'
      cases fits.symm.trans fits'
      rw [stored, stored']
    · have outside := saved.size
      rw [Array.getElem?_eq_none (by omega), Array.getElem?_eq_none (by omega)]

/-- What a flush leaves behind: the same nodes, in a file where every page is as a flush would write
it. -/
structure Settled (store : Store) (header : Page) (after : Store) : Prop where
  same : store.SameNodes after
  limit : after.limit = store.limit
  regular : after.view.Regular
  saved : Saved store header after.disk
  canonical : CanonicalFile after.disk

theorem exists_settled {store : Store} (writable : store.view.Writable)
    (regular : store.view.Regular) (faithful : store.Faithful) (header : Page) :
    ∃ after, Store.flush header store = .ok () after ∧ Settled store header after := by
  obtain ⟨disk, run, written⟩ := flush_written writable regular header
  have saved := written.saved writable regular.bounded
  obtain ⟨same, regular'⟩ := saved.flushed regular
    (max store.fileSize (sizeOfPages (store.pagesInUse + 1)))
  exact ⟨_, run, same, rfl, regular', saved, written.canonicalFile writable regular faithful⟩

/-- **Stores with the same nodes are written to the same file**, whatever was in memory of them
and whatever their limits are. -/
theorem Settled.disk_eq {store other after after' : Store} {header : Page}
    (settled : Settled store header after) (settled' : Settled other header after')
    (same : store.SameNodes other) (regular : store.view.Regular) : after'.disk = after.disk :=
  settled.saved.disk_eq settled'.saved settled.canonical settled'.canonical same.nodes same.pages
    regular.numbered

/-- **A flush makes the files of twins the same**, and leaves twins behind. -/
theorem Twins.flush {limit : UInt32} {store other : Store} (twins : store.Twins limit other)
    (writable : store.view.Writable) (regular : store.view.Regular)
    (writable' : other.view.Writable) (regular' : other.view.Regular) (header : Page) :
    ∃ after after', Store.flush header store = .ok () after ∧
      Store.flush header other = .ok () after' ∧ after.Twins limit after' ∧
      after'.disk = after.disk ∧ CanonicalFile after.disk := by
  obtain ⟨after, run, settled⟩ := exists_settled writable regular twins.faithful header
  obtain ⟨after', run', settled'⟩ := exists_settled writable' regular' twins.faithful' header
  refine ⟨after, after', run, run', ⟨?_, ?_, settled.limit.trans twins.limited,
    settled'.limit.trans twins.limited', settled.canonical.faithful, settled'.canonical.faithful⟩,
    settled.disk_eq settled' ⟨twins.nodes, twins.pages⟩ regular, settled.canonical⟩
  · exact settled'.same.nodes.trans (twins.nodes.trans settled.same.nodes.symm)
  · exact settled'.same.pages.trans (twins.pages.trans settled.same.pages.symm)

end Store

end RowStore
