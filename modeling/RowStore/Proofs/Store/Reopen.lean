import RowStore.Proofs.Invariant
import RowStore.Proofs.Node.RoundTrip
import RowStore.Proofs.Store.View
import RowStore.Store.File

/-!
# Flushing a store and opening it again

A flush writes only what is in memory. Still the file holds every node afterwards,
because a page that is not in memory has never changed since it was read from the
file (`Store.flush_of_writable`). So a store that is opened on the file has the same
nodes under the same numbers (`Store.Saved.reopen`), if the size of the file fits a
word: with at most `largestLimit` pages in use it does.
-/

set_option autoImplicit false

namespace RowStore

/-! ## Files as pages -/

namespace Page

theorem ofBytes_bytes (page : Page) : ofBytes page.bytes = page := by
  have same := bytes_ofBytes page.bytes page.length_bytes
  cases page
  cases whole : ofBytes _
  rw [whole] at same
  cases same
  rfl

theorem firstOf_flatMap (pages : List Page) :
    firstOf pages.length (pages.flatMap bytes) = pages := by
  induction pages with
  | nil => rfl
  | cons page pages ih =>
    have whole : size ≤ page.bytes.length := Nat.le_of_eq page.length_bytes.symm
    have front : page.bytes.length = size := page.length_bytes
    rw [List.length_cons, List.flatMap_cons, firstOf, List.take_append_of_le_length whole,
      List.take_of_length_le (Nat.le_of_eq front), ofBytes_bytes,
      List.drop_append_of_le_length whole, List.drop_of_length_le (Nat.le_of_eq front),
      List.nil_append, ih]

theorem length_flatMap_bytes (pages : List Page) :
    (pages.flatMap bytes).length = size * pages.length := by
  induction pages with
  | nil => rfl
  | cons page pages ih =>
    rw [List.flatMap_cons, List.length_append, ih, page.length_bytes, List.length_cons, size]
    omega

/-- The pages of a file that was put together from pages are these pages. -/
theorem allOf_flatMap (pages : List Page) : allOf (pages.flatMap bytes) = pages := by
  have count : (size * pages.length + (size - 1)) / size = pages.length := by
    rw [size]
    omega
  rw [allOf, length_flatMap_bytes, count, firstOf_flatMap]

theorem flatMap_firstOf {count : Nat} {contents : Bytes}
    (whole : contents.length = size * count) :
    (firstOf count contents).flatMap bytes = contents := by
  induction count generalizing contents with
  | zero => exact (List.eq_nil_of_length_eq_zero whole).symm
  | succ count ih =>
    have enough : size ≤ contents.length := by
      rw [whole, Nat.mul_succ]
      exact Nat.le_add_left ..
    have front : (contents.take size).length = size := List.length_take_of_le enough
    have back : (contents.drop size).length = size * count := by
      rw [List.length_drop, whole, Nat.mul_succ, Nat.add_sub_cancel]
    rw [firstOf, List.flatMap_cons, bytes_ofBytes _ front, ih back, List.take_append_drop]

/-- A file of whole pages is these pages put together. -/
theorem flatMap_allOf {contents : Bytes} (whole : contents.length % size = 0) :
    (allOf contents).flatMap bytes = contents := by
  have count : (contents.length + (size - 1)) / size = contents.length / size := by
    rw [size] at whole ⊢
    omega
  rw [allOf, count]
  exact flatMap_firstOf (Nat.mul_div_cancel' (Nat.dvd_of_mod_eq_zero whole)).symm

end Page

namespace Store

/-! ## Writing -/

theorem size_writeAt (disk : Array Page) (place : Nat) (page : Page) :
    (writeAt disk place page).size = max disk.size (place + 1) := by
  unfold writeAt
  split
  · rw [Array.size_setIfInBounds]
    omega
  · rw [Array.size_push, Array.size_append, Array.size_replicate]
    omega

section WriteAt

variable {disk : Array Page} {place : Nat} (page : Page) (near : place ≤ disk.size)
include near

theorem getElem?_writeAt (other : Nat) :
    (writeAt disk place page)[other]? = if other = place then some page else disk[other]? := by
  unfold writeAt
  split
  next inside =>
    rw [Array.getElem?_setIfInBounds]
    split
    next same => rw [if_pos same.symm]
    next apart => rw [if_neg (Ne.symm apart)]
  next outside =>
    have atEnd : place = disk.size := Nat.le_antisymm near (Nat.le_of_not_lt outside)
    rw [atEnd, Nat.sub_self, Array.replicate_zero, Array.append_empty, Array.getElem?_push]

end WriteAt

/-- What a flush leaves of the pages from a place on. -/
structure Written (place : Nat) (slots : List (Option Node)) (before after : Array Page) :
    Prop where
  size : after.size = max before.size (place + slots.length)
  elsewhere : ∀ other, other < place ∨ place + slots.length ≤ other → after[other]? = before[other]?
  loaded : ∀ (index : Nat) (node : Node), slots[index]? = some (some node) →
    ∃ page, node.toPage = .ok page ∧ after[place + index]? = some page
  unloaded : ∀ index : Nat, slots[index]? = some none →
    after[place + index]? = before[place + index]?

section Written

variable {place : Nat} {slots : List (Option Node)} {node : Node} {page : Page}
  {before after : Array Page}

theorem writeSlots_some (fits : node.toPage = .ok page) (store : Store) :
    writeSlots place (some node :: slots) store =
      writeSlots (place + 1) slots { store with disk := writeAt store.disk place page } := by
  rw [writeSlots, writeNode, fits]
  rfl

theorem writeSlots_stopped {shortage : Shortage} (large : node.toPage = .error shortage)
    (store : Store) :
    writeSlots place (some node :: slots) store = .error (.shortage shortage) store := by
  rw [writeSlots, writeNode, large]
  rfl

/-- A page that is not in memory is left as it is. -/
theorem Written.skip (written : Written (place + 1) slots before after) :
    Written place (none :: slots) before after := by
  refine ⟨?_, fun other outside => written.elsewhere other ?_, ?_, ?_⟩
  · rw [written.size, List.length_cons]
    omega
  · rw [List.length_cons] at outside
    omega
  · rintro (_ | index) node present
    · cases present
    · rw [Nat.add_comm index, ← Nat.add_assoc]
      exact written.loaded index node present
  · rintro (_ | index) skipped
    · exact written.elsewhere place (.inl (Nat.lt_succ_self _))
    · rw [Nat.add_comm index, ← Nat.add_assoc]
      exact written.unloaded index skipped

/-- A page that is in memory is written, and then not written again. -/
theorem Written.write (written : Written (place + 1) slots (writeAt before place page) after)
    (near : place ≤ before.size) (fits : node.toPage = .ok page) :
    Written place (some node :: slots) before after := by
  have stored := getElem?_writeAt page near
  refine ⟨?_, fun other outside => ?_, ?_, ?_⟩
  · rw [written.size, size_writeAt, List.length_cons]
    omega
  · rw [List.length_cons] at outside
    rw [written.elsewhere other (by omega), stored, if_neg (by omega)]
  · rintro (_ | index) other present
    · cases present
      refine ⟨page, fits, ?_⟩
      rw [Nat.add_zero, written.elsewhere place (.inl (Nat.lt_succ_self _)), stored, if_pos rfl]
    · rw [Nat.add_comm index, ← Nat.add_assoc]
      exact written.loaded index other present
  · rintro (_ | index) skipped
    · cases skipped
    · rw [Nat.add_comm index, ← Nat.add_assoc, written.unloaded index skipped, stored,
        if_neg (by omega)]

end Written

/-- Nodes that fit their pages are all written, if the pages in between are in the file. -/
theorem writeSlots_of_writable (slots : List (Option Node)) (place : Nat) (store : Store)
    (near : place ≤ store.disk.size)
    (stored : ∀ index : Nat, slots[index]? = some none → place + index < store.disk.size)
    (writable : ∀ node, some node ∈ slots → ∃ page, node.toPage = .ok page) :
    ∃ disk, writeSlots place slots store = .ok () { store with disk } ∧
      Written place slots store.disk disk := by
  induction slots generalizing place store with
  | nil => exact ⟨store.disk, rfl, by simp [near], fun _ _ => rfl, by simp, by simp⟩
  | cons slot slots ih =>
    have writable' := fun node member => writable node (List.mem_cons_of_mem slot member)
    have later : ∀ index : Nat, slots[index]? = some none →
        place + 1 + index < store.disk.size := by
      intro index skipped
      have inside := stored (index + 1) skipped
      omega
    cases slot with
    | none =>
      have here : place < store.disk.size := stored 0 rfl
      obtain ⟨disk, run, written⟩ := ih (place + 1) store here later writable'
      exact ⟨disk, run, written.skip⟩
    | some node =>
      obtain ⟨page, fits⟩ := writable node List.mem_cons_self
      have size := size_writeAt store.disk place page
      obtain ⟨disk, run, written⟩ := ih (place + 1)
        { store with disk := writeAt store.disk place page }
        (by rw [size]; omega) (fun index skipped => by
          have inside := later index skipped
          rw [size]
          omega) writable'
      exact ⟨disk, (writeSlots_some fits store).trans run, written.write near fits⟩

/-! ## Saving and opening -/

/-- How many pages a store may use, `2 ^ 20 - 2`, so that its file stays below the largest size. -/
def largestLimit : Nat := 1048574

/-- The size of a file is not cut off below `2 ^ 32` bytes. -/
theorem toNat_sizeOfPages {count : Nat} (small : count ≤ largestLimit + 1) :
    (sizeOfPages count).toNat = count * Page.size := by
  rw [largestLimit] at small
  rw [sizeOfPages, UInt32.toNat_ofNat', Page.size]
  omega

theorem sizeOfPages_zero : sizeOfPages 0 = 0 := congrArg UInt32.ofNat (Nat.zero_mul _)

theorem max_sizeOfPages {count other : Nat} (le : count ≤ other)
    (small : other ≤ largestLimit + 1) :
    max (sizeOfPages count) (sizeOfPages other) = sizeOfPages other := by
  apply if_pos
  rw [UInt32.le_iff_toNat_le, toNat_sizeOfPages (Nat.le_trans le small), toNat_sizeOfPages small]
  exact Nat.mul_le_mul_right _ le

/-- In a closed store nothing in memory lies beyond the pages in use. -/
theorem straysBeyond_eq_nil {store : Store} (closed : store.view.Closed) :
    store.straysBeyond = [] := by
  rw [straysBeyond, List.filter_eq_nil_iff]
  rintro ⟨id, node⟩ member beyond
  have beyond : store.pagesInUse ≤ id.toNat := of_decide_eq_true beyond
  have absent := inMemory?_eq_none closed beyond
  rw [inMemory?_of_beyond beyond, List.lookup_eq_none_iff] at absent
  have apart := absent _ member
  simp at apart

theorem flush_eq (header : Page) {store : Store} (closed : store.view.Closed) :
    flush header store = EStateM.bind (writeSlots 1 store.slots.toList)
      (fun _ => modify fun after => { after with
        fileSize := max after.fileSize (sizeOfPages (after.pagesInUse + 1)) })
      { store with disk := writeAt store.disk 0 header } := by
  have none : store.straysBeyond = [] := straysBeyond_eq_nil closed
  show EStateM.bind (writeStrays store.straysBeyond) _
    { store with disk := writeAt store.disk 0 header } = _
  rw [none]
  rfl

/-- A flush writes every node in memory, if these fit their pages and all others are in the
file. -/
theorem flush_of_fitting {store : Store} (closed : store.view.Closed) (header : Page)
    (stored : ∀ index : Nat, store.slots[index]? = some none → index + 1 < store.disk.size)
    (fits : ∀ (index : Nat) (node : Node), store.slots[index]? = some (some node) →
      ∃ page, node.toPage = .ok page) :
    ∃ disk, flush header store = .ok () { store with
        disk, fileSize := max store.fileSize (sizeOfPages (store.pagesInUse + 1)) } ∧
      Written 1 store.slots.toList (writeAt store.disk 0 header) disk := by
  have size := size_writeAt store.disk 0 header
  have near : 1 ≤ (writeAt store.disk 0 header).size := by
    rw [size]
    omega
  have stored' : ∀ index : Nat, store.slots.toList[index]? = some none →
      1 + index < (writeAt store.disk 0 header).size := by
    intro index skipped
    rw [Array.getElem?_toList] at skipped
    have inside := stored index skipped
    rw [size]
    omega
  have fits' : ∀ node, some node ∈ store.slots.toList → ∃ page, node.toPage = .ok page := by
    intro node member
    obtain ⟨index, present⟩ := List.mem_iff_getElem?.mp member
    rw [Array.getElem?_toList] at present
    exact fits index node present
  obtain ⟨disk, run, written⟩ := writeSlots_of_writable store.slots.toList 1
    { store with disk := writeAt store.disk 0 header } near stored' fits'
  refine ⟨disk, ?_, written⟩
  rw [flush_eq header closed, EStateM.bind, run]
  rfl

theorem ofContents_of_whole {contents : Bytes} (whole : contents.length % Page.size = 0)
    (limit : UInt32) :
    ofContents contents limit = .ok (ofPages (Page.allOf contents).toArray limit) := by
  have passes : (UInt32.ofNat contents.length).toNat % Page.size = 0 := by
    rw [UInt32.toNat_ofNat', ← whole, Page.size]
    omega
  exact if_pos passes

/-- Only files of whole pages are opened, as stores of these pages. -/
theorem whole_of_ofContents {contents : Bytes} {limit : UInt32} {store : Store}
    (opens : ofContents contents limit = .ok store) :
    contents.length % Page.size = 0 ∧ store = ofPages (Page.allOf contents).toArray limit := by
  unfold ofContents at opens
  dsimp only at opens
  split at opens
  next passes =>
    cases opens
    refine ⟨?_, rfl⟩
    rw [UInt32.toNat_ofNat', Page.size] at passes
    rw [Page.size]
    omega
  next => cases opens

/-- A file of fewer than `2 ^ 32` bytes has fewer than `2 ^ 20` pages. -/
theorem size_allOf_le {contents : Bytes} (whole : contents.length % Page.size = 0)
    (small : contents.length < UInt32.size) :
    (Page.allOf contents).toArray.size ≤ largestLimit + 1 := by
  have length := Page.length_flatMap_bytes (Page.allOf contents)
  rw [Page.flatMap_allOf whole] at length
  rw [length, Page.size, UInt32.size] at small
  rw [List.size_toArray, largestLimit]
  omega

/-- A store on a file of whole pages has these pages, and no node in memory. -/
theorem ofContents_pages (disk : Array Page) (limit : UInt32) :
    ofContents (disk.toList.flatMap Page.bytes) limit = .ok (ofPages disk limit) := by
  have whole : (disk.toList.flatMap Page.bytes).length % Page.size = 0 := by
    rw [Page.length_flatMap_bytes]
    exact Nat.mul_mod_right ..
  rw [ofContents_of_whole whole, Page.allOf_flatMap]

theorem length_contents (store : Store) :
    store.contents.length = Page.size * store.disk.size :=
  (Page.length_flatMap_bytes _).trans (by rw [Array.length_toList])

/-- The size of a file fits a word if it has at most `2 ^ 20 - 1` pages, the header among them. -/
theorem length_contents_lt_iff {store : Store} :
    store.contents.length < UInt32.size ↔ store.disk.size ≤ largestLimit + 1 := by
  rw [length_contents, Page.size, UInt32.size, largestLimit]
  omega

/-- The file of a store with at most `largestLimit` pages in use is small enough. -/
theorem length_contents_lt {store : Store} (regular : store.view.Regular)
    (small : store.pagesInUse ≤ largestLimit) : store.contents.length < UInt32.size :=
  length_contents_lt_iff.mpr (Nat.le_trans regular.bounded (Nat.succ_le_succ small))

section OfPages

variable {disk : Array Page} (small : disk.size ≤ largestLimit + 1) (limit : UInt32)
include small

/-- All pages of a file of fewer than `2 ^ 32` bytes are in use, but for the header. -/
theorem pagesInUse_ofPages : (ofPages disk limit).pagesInUse = disk.size - 1 := by
  have count : (ofPages disk limit).pagesInUse =
      (sizeOfPages disk.size).toNat / Page.size - 1 := Array.size_replicate
  rw [count, toNat_sizeOfPages small, Nat.mul_div_cancel _ (by decide)]

/-- The store of a file of fewer than `2 ^ 32` bytes has no page beyond those in use. -/
theorem regular_ofPages : (ofPages disk limit).view.Regular := by
  have pages := pagesInUse_ofPages small limit
  have bounded : disk.size ≤ (ofPages disk limit).pagesInUse + 1 := by
    rw [pages]
    omega
  refine ⟨closed_view bounded fun _ => inMemory?_eq_none_of_strays rfl, ?_, bounded⟩
  show (ofPages disk limit).pagesInUse < 4294967296
  rw [largestLimit] at small
  omega

end OfPages

theorem inMemory?_ofPages (disk : Array Page) (limit : UInt32) (id : PageNumber) :
    (ofPages disk limit).inMemory? id = none := by
  unfold inMemory? ofPages
  dsimp only
  rw [Array.getElem?_replicate]
  split
  next slot present =>
    split at present <;> cases present
    rfl
  next => rfl

end Store

/-- Every page in use holds a node that can be written and read back. -/
def View.Writable (view : View) : Prop :=
  ∀ id : PageNumber, id.toNat < view.pagesInUse → ∃ node, view.nodes id = .ok node ∧
    node.WellShaped ∧ node.Ordinary ∧ node.size ≤ Page.size

namespace Store

/-- The file holds the nodes of the store. -/
structure Saved (store : Store) (header : Page) (disk : Array Page) : Prop where
  size : disk.size = store.pagesInUse + 1
  header : disk[0]? = some header
  nodes : ∀ id : PageNumber, id.toNat < store.pagesInUse → ∃ page node,
    disk[id.toNat + 1]? = some page ∧ Node.ofPage page = .ok node ∧ store.peek id = .ok node

/-- On such a file, page numbers stand for the same nodes, whatever is in memory of them. -/
theorem Saved.peek_eq {store other : Store} {header : Page} {disk : Array Page}
    (saved : Saved store header disk) (closed : store.view.Closed)
    (bounded : store.disk.size ≤ store.pagesInUse + 1) (inFile : other.disk = disk)
    (loaded : ∀ (id : PageNumber) (node : Node), other.inMemory? id = some node →
      store.inMemory? id = some node) (id : PageNumber) :
    other.peek id = store.peek id := by
  by_cases inUse : id.toNat < store.pagesInUse
  · obtain ⟨page, node, stored, reads, found⟩ := saved.nodes id inUse
    cases present : other.inMemory? id with
    | some node' =>
      rw [peek_of_inMemory present, peek_of_inMemory (loaded id node' present)]
    | none =>
      rw [found, peek_of_not_inMemory present, Store.inFile, inFile, stored]
      show (Node.ofPage page).mapError _ = .ok node
      rw [reads]
      rfl
  · have beyond : store.pagesInUse ≤ id.toNat := Nat.le_of_not_lt inUse
    have missing : ∀ any : Store, any.disk.size ≤ store.pagesInUse + 1 →
        any.inMemory? id = none → any.peek id = .error (.unreadable id .page) := by
      intro any small absent
      have noPage : any.disk[id.toNat + 1]? = none := Array.getElem?_eq_none (by omega)
      rw [peek_of_not_inMemory absent, Store.inFile, noPage]
    have absent := inMemory?_eq_none closed beyond
    have absent' : other.inMemory? id = none := by
      cases present : other.inMemory? id with
      | none => rfl
      | some node => cases absent.symm.trans (loaded id node present)
    rw [missing other (Nat.le_of_eq (by rw [inFile, saved.size])) absent',
      missing store bounded absent]

section Flush

variable {store : Store} (writable : store.view.Writable)
include writable

theorem exists_page_of_loaded {id : PageNumber} {node : Node}
    (present : store.slots[id.toNat]? = some (some node)) :
    ∃ page, node.toPage = .ok page ∧ Node.ofPage page = .ok node := by
  obtain ⟨other, found, shaped, ordinary, small⟩ :=
    writable id (Array.getElem?_eq_some_iff.mp present).1
  cases (peek_of_slot present).symm.trans found
  exact Node.exists_page shaped ordinary small

/-- A page that is not in memory is in the file, as it was read or would be read. -/
theorem exists_page_of_unloaded {id : PageNumber} (skipped : store.slots[id.toNat]? = some none) :
    ∃ page node, store.disk[id.toNat + 1]? = some page ∧ Node.ofPage page = .ok node ∧
      store.peek id = .ok node := by
  obtain ⟨node, found, -⟩ := writable id (Array.getElem?_eq_some_iff.mp skipped).1
  have reads : store.inFile id = .ok node := by
    rw [← peek_of_not_inMemory (inMemory?_of_slot skipped)]
    exact found
  rw [inFile] at reads
  split at reads
  next => cases reads
  next page stored =>
    cases held : Node.ofPage page <;> rw [held] at reads <;> cases reads
    exact ⟨page, node, stored, held, found⟩

/-- A file with the header and the nodes that were in memory written to it has every node. -/
theorem Written.saved {header : Page} {disk : Array Page}
    (bounded : store.disk.size ≤ store.pagesInUse + 1)
    (written : Written 1 store.slots.toList (writeAt store.disk 0 header) disk) :
    Saved store header disk := by
  have first := getElem?_writeAt header (Nat.zero_le store.disk.size)
  have count : store.slots.toList.length = store.pagesInUse := Array.length_toList
  refine ⟨?_, ?_, fun id inUse => ?_⟩
  · rw [written.size, count, size_writeAt]
    omega
  · rw [written.elsewhere 0 (.inl Nat.one_pos), first, if_pos rfl]
  · have present : store.slots[id.toNat]? = some store.slots[id.toNat] :=
      Array.getElem?_eq_getElem inUse
    generalize store.slots[id.toNat] = slot at present
    have listed : store.slots.toList[id.toNat]? = some slot := Array.getElem?_toList.trans present
    cases slot with
    | some node =>
      obtain ⟨page, fits, reads⟩ := exists_page_of_loaded writable present
      obtain ⟨page', fits', stored⟩ := written.loaded id.toNat node listed
      cases fits.symm.trans fits'
      exact ⟨page, node, (Nat.add_comm 1 _) ▸ stored, reads, peek_of_slot present⟩
    | none =>
      obtain ⟨page, node, stored, reads, found⟩ := exists_page_of_unloaded writable present
      refine ⟨page, node, ?_, reads, found⟩
      have kept := written.unloaded id.toNat listed
      rw [Nat.add_comm 1] at kept
      rw [kept, first, if_neg (Nat.succ_ne_zero _), stored]

/-- A flush of a store whose nodes can all be written writes those in memory. -/
theorem flush_written (regular : store.view.Regular) (header : Page) :
    ∃ disk, flush header store = .ok () { store with
        disk, fileSize := max store.fileSize (sizeOfPages (store.pagesInUse + 1)) } ∧
      Written 1 store.slots.toList (writeAt store.disk 0 header) disk := by
  have stored : ∀ index : Nat, store.slots[index]? = some none →
      index + 1 < store.disk.size := by
    intro index skipped
    have inUse := (Array.getElem?_eq_some_iff.mp skipped).1
    rw [← regular.toNat_ofNat inUse] at skipped ⊢
    obtain ⟨page, node, stored, -⟩ := exists_page_of_unloaded writable skipped
    exact (Array.getElem?_eq_some_iff.mp stored).1
  have fits : ∀ (index : Nat) (node : Node), store.slots[index]? = some (some node) →
      ∃ page, node.toPage = .ok page := by
    intro index node present
    have inUse := (Array.getElem?_eq_some_iff.mp present).1
    rw [← regular.toNat_ofNat inUse] at present
    obtain ⟨page, fits, -⟩ := exists_page_of_loaded writable present
    exact ⟨page, fits⟩
  exact flush_of_fitting regular.closed header stored fits

/-- **A flush saves every node of the store**, whether it is in memory or not. -/
theorem flush_of_writable (regular : store.view.Regular) (header : Page) :
    ∃ disk, flush header store = .ok () { store with
        disk, fileSize := max store.fileSize (sizeOfPages (store.pagesInUse + 1)) } ∧
      Saved store header disk := by
  obtain ⟨disk, run, written⟩ := flush_written writable regular header
  exact ⟨disk, run, written.saved writable regular.bounded⟩

end Flush

/-- The other store has the same nodes on the same pages. -/
structure SameNodes (store other : Store) : Prop where
  nodes : other.peek = store.peek
  pages : other.pagesInUse = store.pagesInUse

/-- A store goes on with the same nodes after it has been saved. -/
theorem Saved.flushed {store : Store} {header : Page} {disk : Array Page}
    (saved : Saved store header disk) (regular : store.view.Regular) (fileSize : UInt32) :
    store.SameNodes { store with disk, fileSize } ∧
      (view { store with disk, fileSize }).Regular := by
  have bounded : disk.size ≤ store.pagesInUse + 1 := Nat.le_of_eq saved.size
  have within : ∀ id : PageNumber, store.pagesInUse ≤ id.toNat →
      inMemory? { store with disk, fileSize } id = none := fun id beyond =>
    inMemory?_eq_none regular.closed beyond
  refine ⟨⟨funext (saved.peek_eq regular.closed regular.bounded rfl fun _ _ present => present),
    rfl⟩, ?_, ?_, ?_⟩
  · exact closed_view bounded within
  · exact regular.numbered
  · exact bounded

/-- **A store that is opened on a saved file has the saved nodes**, whatever its limit is. -/
theorem Saved.reopen {store : Store} {header : Page} {disk : Array Page}
    (saved : Saved store header disk) (regular : store.view.Regular)
    (small : store.pagesInUse ≤ largestLimit) (limit : UInt32) :
    ofContents (disk.toList.flatMap Page.bytes) limit = .ok (ofPages disk limit) ∧
      store.SameNodes (ofPages disk limit) ∧ (ofPages disk limit).view.Regular ∧
      (ofPages disk limit).fileSize ≠ 0 := by
  have size := saved.size
  have small' : disk.size ≤ largestLimit + 1 := by omega
  have pages : (ofPages disk limit).pagesInUse = store.pagesInUse := by
    rw [pagesInUse_ofPages small', size, Nat.add_sub_cancel]
  refine ⟨ofContents_pages disk limit,
    ⟨funext (saved.peek_eq regular.closed regular.bounded rfl fun id node present => ?_), pages⟩,
    regular_ofPages small' limit, fun zero => ?_⟩
  · rw [inMemory?_ofPages] at present
    cases present
  · have bytes := toNat_sizeOfPages small'
    rw [show sizeOfPages disk.size = 0 from zero, size, Page.size] at bytes
    simp at bytes

/-! ## Flushes that stop half way -/

section Preserves

variable {allowed : Fault → Prop} {invariant : Store → Prop}
  (shortage : ∀ cause, allowed (.shortage cause))
  (written : ∀ (store : Store) disk fileSize, invariant store →
    invariant { store with disk, fileSize })
include shortage written

theorem writeNode_preserves (place : Nat) (node : Node) :
    Preserves allowed invariant (writeNode place node) := by
  unfold writeNode
  cases node.toPage with
  | error cause => exact .throw (shortage cause)
  | ok page => exact .modify fun store holds => written store _ store.fileSize holds

theorem writeSlots_preserves (place : Nat) (slots : List (Option Node)) :
    Preserves allowed invariant (writeSlots place slots) := by
  induction slots generalizing place with
  | nil => exact .pure ()
  | cons slot slots ih =>
    cases slot with
    | none => exact ih (place + 1)
    | some node =>
      exact .bind (writeNode_preserves shortage written place node) fun _ => ih (place + 1)

theorem writeStrays_preserves (strays : List (PageNumber × Node)) :
    Preserves allowed invariant (writeStrays strays) := by
  induction strays with
  | nil => exact .pure ()
  | cons stray strays ih =>
    exact .bind (writeNode_preserves shortage written _ stray.2) fun _ => ih

/-- A flush keeps, wherever it stops, what does not depend on the file. -/
theorem flush_preserves (header : Page) : Preserves allowed invariant (flush header) := by
  refine .bind (.modify fun store holds => written store _ store.fileSize holds) fun _ =>
    .get fun store _ => ?_
  refine .bind (writeStrays_preserves shortage written _) fun _ => .get fun store _ => ?_
  refine .bind (writeSlots_preserves shortage written 1 store.slots.toList) fun _ => ?_
  exact .modify fun store holds => written store store.disk _ holds

end Preserves

/-- Wherever writing slots stops, the file is no longer than its pages in use. -/
theorem writeSlots_bounded {pages : Nat} {slots : List (Option Node)} (place : Nat)
    (store : Store) (near : place + slots.length ≤ pages) (bounded : store.disk.size ≤ pages) :
    Ends store (writeSlots place slots)
      (fun _ after => after.slots = store.slots ∧ after.disk.size ≤ pages)
      (fun _ after => after.slots = store.slots ∧ after.disk.size ≤ pages) := by
  induction slots generalizing place store with
  | nil => exact ⟨rfl, bounded⟩
  | cons slot slots ih =>
    rw [List.length_cons] at near
    cases slot with
    | none => exact ih (place + 1) store (by omega) bounded
    | some node =>
      cases fits : node.toPage with
      | error shortage =>
        rw [Ends, writeSlots_stopped fits]
        exact ⟨rfl, bounded⟩
      | ok page =>
        rw [Ends, writeSlots_some fits]
        refine ih (place + 1) { store with disk := writeAt store.disk place page } (by omega) ?_
        rw [size_writeAt]
        omega

theorem flush_bounded {store : Store} (closed : store.view.Closed)
    (bounded : store.disk.size ≤ store.pagesInUse + 1) (header : Page) :
    Ends store (flush header)
      (fun _ after => after.pagesInUse = store.pagesInUse ∧ after.disk.size ≤ after.pagesInUse + 1)
      (fun _ after => after.pagesInUse = store.pagesInUse ∧
        after.disk.size ≤ after.pagesInUse + 1) := by
  have count : 1 + store.slots.toList.length ≤ store.pagesInUse + 1 := by
    show 1 + store.slots.toList.length ≤ store.slots.size + 1
    rw [Array.length_toList]
    omega
  have writes := writeSlots_bounded 1 { store with disk := writeAt store.disk 0 header } count (by
    rw [size_writeAt]
    omega)
  have enough : ∀ after : Store, after.slots = store.slots ∧
      after.disk.size ≤ store.pagesInUse + 1 → after.pagesInUse = store.pagesInUse ∧
        after.disk.size ≤ after.pagesInUse + 1 := by
    rintro after ⟨slots, small⟩
    have pages : after.pagesInUse = store.pagesInUse := congrArg Array.size slots
    exact ⟨pages, pages ▸ small⟩
  rw [Ends, flush_eq header closed]
  apply Ends.bind
  apply writes.weaken
  · intro _ after done
    exact enough after done
  · intro _ after stopped
    exact enough after stopped

end Store

end RowStore
