import RowStore.Proofs.Table.Evolution
import RowStore.Proofs.Table.Sturdy

/-!
# Files whose size does not fit a word

The size of a file is taken as a word, so a file of `2 ^ 32` bytes passes for an empty one,
and a new table is begun in it (`Table.ofContents_of_wrapped`). A table that has come to have
`2 ^ 20 - 1` pages is saved to such a file without a fault, and nobody finds it there again
(`Table.Evolved.lost`).

In a larger file, references lead to pages that are not in use. A page that is taken into
use can be one of these, and even the one that is being cut, which then has no entry where
one is used (`Table.undefined_beyond`). That is why files of fewer than `2 ^ 32` bytes are
asked for where tables are opened again.
-/

set_option autoImplicit false

namespace RowStore

open Store

/-! ## Files that pass for empty ones -/

theorem Store.ofContents_of_wrapped {contents : Bytes} (wraps : contents.length = UInt32.size)
    (limit : UInt32) :
    Store.ofContents contents limit = .ok { disk := (Page.allOf contents).toArray, limit } := by
  have pages : (Page.allOf contents).length = 2 ^ 20 := by
    rw [Page.allOf, Page.length_firstOf, wraps]
    decide
  have bytes : sizeOfPages (Page.allOf contents).toArray.size = 0 := by
    rw [List.size_toArray, pages]
    decide
  unfold Store.ofContents
  rw [wraps, ofPages, bytes]
  rfl

namespace Table

/-- **A file of `2 ^ 32` bytes is opened as a new table**, whatever it holds. -/
theorem ofContents_of_wrapped {contents : Bytes} (wraps : contents.length = UInt32.size)
    {limit : UInt32} (positive : limit ≠ 0) :
    ∃ disk, ofContents contents limit = .ok {
      table := { fresh limit with store := { (fresh limit).store with disk } }
      unmarkedRoot := none } := by
  have room : 0 < limit.toNat := by
    have := mt UInt32.toNat_inj.mp positive
    rw [UInt32.toNat_zero] at this
    omega
  refine ⟨(Page.allOf contents).toArray, ?_⟩
  generalize opens : (Page.allOf contents).toArray = disk
  have created : Tree.create { disk, limit } =
      .ok { root := 0 } { (fresh limit).store with disk } := by
    simp [Tree.create, allocate, fresh, pagesInUse, room, bind, EStateM.bind, pure, EStateM.pure]
  have tree : storedTree { disk, limit } =
      .ok ({ root := 0 }, none) { (fresh limit).store with disk } := by
    show EStateM.bind Tree.create _ { disk, limit } = _
    rw [EStateM.bind, created]
    rfl
  have schema : storedSchema { disk, limit } = .ok Schema.empty := rfl
  simp only [ofContents, ofStore, Store.ofContents_of_wrapped wraps, opens, schema, tree, bind,
    Except.bind]
  rfl

/-- **A table that is saved with `2 ^ 20 - 1` pages is lost**: its file is opened as a new table. -/
theorem Evolved.lost {table saved : Table} (evolved : Evolved table)
    (saves : save table = .ok () saved) (pages : table.store.pagesInUse = largestLimit + 1)
    {limit : UInt32} (positive : limit ≠ 0) :
    ∃ opened, ofContents saved.store.contents limit = .ok opened ∧
      opened.table.schema = Schema.empty ∧ opened.table.store.pagesInUse = 1 ∧
      answer rows opened.table = .error .schemaUndefined := by
  have sound := evolved.sound
  have size := (sound.standing.resettled sound.faithful saves).store.saved.size
  have wraps : saved.store.contents.length = UInt32.size := by
    rw [Store.length_contents, size, pages]
    decide
  obtain ⟨disk, opens⟩ := ofContents_of_wrapped wraps positive
  exact ⟨_, opens, rfl, rfl, rfl⟩

/-! ## Pages that are not in use -/

/-- The leaf that a tree in such a file begins with. -/
def lowLeaf : Leaf := { parent := some 1 }

/-- Its parent, which is a leaf with a cell that fills it. -/
def fullLeaf : Leaf where
  rootMark := true
  keys := [1]
  values := [List.replicate maxValueLength 0]

/-- The header of a file without a column, and the two leaves. -/
def beyondFront : Array Page := #[Page.blank, Page.ofBytes (Node.leaf lowLeaf).toBytes,
  Page.ofBytes (Node.leaf fullLeaf).toBytes]

/-- The pages of a file that begins so, of which only the first leaf is in use. -/
def beyondPages : Array Page := beyondFront ++ Array.replicate (1048575) Page.blank

/-- The store of a file with one page in use, with the first leaf in memory and another one on the
page that comes next. -/
def beyondStore (disk : Array Page) (leaf : Leaf) : Store where
  disk
  slots := #[some (.leaf lowLeaf)]
  strays := [(1, .leaf leaf)]
  limit := 9
  fileSize := 8192

theorem size_beyondFront : beyondFront.size = 3 := by
  simp [beyondFront]

theorem size_beyondPages : beyondPages.size = 1048578 := by
  rw [beyondPages, Array.size_append, Array.size_replicate, size_beyondFront]

theorem getElem?_beyondFront {place : Nat} (front : place < 3) :
    beyondPages[place]? = beyondFront[place]? := by
  rw [beyondPages, Array.getElem?_append, size_beyondFront, if_pos front]

theorem sturdy_beyondPages {page : Page} (member : page ∈ beyondPages) : page.Sturdy := by
  have low : (Node.leaf lowLeaf).Sturdy := ⟨rfl, List.Pairwise.nil⟩
  have full : (Node.leaf fullLeaf).Sturdy := ⟨rfl, List.pairwise_singleton ..⟩
  rcases Array.mem_append.mp member with front | back
  · rw [beyondFront, List.mem_toArray, List.mem_cons, List.mem_cons, List.mem_singleton] at front
    rcases front with rfl | rfl | rfl
    · exact Page.sturdy_blank
    · exact Page.sturdy_of_toPage low (if_pos (by decide))
    · exact Page.sturdy_of_toPage full (if_pos (by decide +kernel))
  · rw [(Array.mem_replicate.mp back).2]
    exact Page.sturdy_blank

section Cut

variable (disk : Array Page)

/-- The page that the cut takes into use is the one that it cuts. -/
theorem divideLeaf_beyond {leaf : Leaf} (many : ¬leaf.keys.length < 2) :
    Tree.divideLeaf 1 (beyondStore disk leaf) =
      .error (.undefined 1) { beyondStore disk leaf with
        slots := #[some (.leaf lowLeaf), some (.leaf {})] } := by
  have loads : loadLeaf 1 (beyondStore disk leaf) = .ok leaf (beyondStore disk leaf) := rfl
  rw [Tree.divideLeaf]
  show EStateM.bind (loadLeaf 1) _ _ = _
  rw [EStateM.bind, loads]
  dsimp only
  rw [if_neg many]
  rfl

theorem insertByDividing_beyond :
    Tree.insertByDividing { root := 1 } 1 fullLeaf 2 [] (beyondStore disk fullLeaf) =
      .error (.undefined 1) { beyondStore disk (fullLeaf.insert 2 []) with
        slots := #[some (.leaf lowLeaf), some (.leaf {})] } := by
  have counted : Tree.pagesToDivide fullLeaf (beyondStore disk fullLeaf) =
      .ok 2 (beyondStore disk fullLeaf) := rfl
  have room : (beyondStore disk fullLeaf).pagesInUse + 2 ≤
      (beyondStore disk fullLeaf).limit.toNat := Nat.le_of_ble_eq_true rfl
  have grown : replace 1 (.leaf (fullLeaf.insert 2 [])) (beyondStore disk fullLeaf) =
      .ok () (beyondStore disk (fullLeaf.insert 2 [])) := rfl
  have many : ¬(fullLeaf.insert 2 []).keys.length < 2 := by decide +kernel
  rw [Tree.insertByDividing]
  show EStateM.bind (Tree.pagesToDivide fullLeaf) _ _ = _
  rw [EStateM.bind, counted]
  dsimp only [bind, EStateM.bind, get, getThe, MonadStateOf.get, EStateM.get]
  rw [if_pos room]
  show EStateM.bind (replace 1 _) _ _ = _
  rw [EStateM.bind, grown]
  show EStateM.bind (Tree.divideLeaf 1) _ _ = _
  rw [EStateM.bind, divideLeaf_beyond disk many]

theorem insert_beyond :
    Tree.insert { root := 1 } 2 [] (beyondStore disk fullLeaf) =
      .error (.undefined 1) { beyondStore disk (fullLeaf.insert 2 []) with
        slots := #[some (.leaf lowLeaf), some (.leaf {})] } := by
  have new : fullLeaf.hasKey 2 = false := by decide +kernel
  have full : fullLeaf.hasRoomFor 0 = false := by decide +kernel
  have divides : fullLeaf.canDivideAt (fullLeaf.position 2) 0 = true := by decide +kernel
  have search : Tree.leafFor { root := 1 } 2 (beyondStore disk fullLeaf) =
      .ok 1 (beyondStore disk fullLeaf) := rfl
  have loads : loadLeaf 1 (beyondStore disk fullLeaf) =
      .ok fullLeaf (beyondStore disk fullLeaf) := rfl
  rw [Tree.insert, if_pos (by decide)]
  show EStateM.bind (Tree.leafFor { root := 1 } 2) _ _ = _
  rw [EStateM.bind, search]
  show EStateM.bind (loadLeaf 1) _ _ = _
  rw [EStateM.bind, loads]
  simp only [new, full, divides, List.length_nil, if_true, if_false, Bool.false_eq_true]
  exact insertByDividing_beyond disk

theorem perform_beyond :
    ∃ after, (Call.insertCell 2 []).perform {
      schema := Schema.empty, store := beyondStore disk fullLeaf, tree := { root := 1 } } =
        .error (.undefined 1) after := by
  apply Exists.intro
  dsimp only [Call.perform, Table.insertCell, bind, EStateM.bind, get, getThe, MonadStateOf.get,
    EStateM.get, onStore]
  rw [insert_beyond]

end Cut

section Opened

variable {disk : Array Page} (low : disk[1]? = some (Page.ofBytes (Node.leaf lowLeaf).toBytes))
  (full : disk[2]? = some (Page.ofBytes (Node.leaf fullLeaf).toBytes))
include low full

theorem rootWithin_beyond :
    Tree.rootWithin 1 0 { disk, slots := #[none], limit := 9, fileSize := 8192 } =
      .ok 1 (beyondStore disk fullLeaf) := by
  have lowRead : Node.ofPage (Page.ofBytes (Node.leaf lowLeaf).toBytes) = .ok (.leaf lowLeaf) := by
    decide +kernel
  have fullRead : Node.ofPage (Page.ofBytes (Node.leaf fullLeaf).toBytes) =
      .ok (.leaf fullLeaf) := by
    decide +kernel
  have first : load 0 { disk, slots := #[none], limit := 9, fileSize := 8192 } =
      .ok (.leaf lowLeaf)
        { disk, slots := #[some (.leaf lowLeaf)], limit := 9, fileSize := 8192 } := by
    simp [load, peek, inMemory?, inFile, low, lowRead, Except.mapError, Store.cache]
  have second : load 1 { disk, slots := #[some (.leaf lowLeaf)], limit := 9, fileSize := 8192 } =
      .ok (.leaf fullLeaf) (beyondStore disk fullLeaf) := by
    simp [load, peek, inMemory?, inFile, full, fullRead, Except.mapError, Store.cache, beyondStore]
  rw [Tree.rootWithin]
  show EStateM.bind (load 0) _ _ = _
  rw [EStateM.bind, first]
  show Tree.rootWithin 0 1 _ = _
  rw [Tree.rootWithin]
  show EStateM.bind (load 1) _ _ = _
  rw [EStateM.bind, second]
  rfl

theorem storedTree_beyond :
    storedTree { disk, slots := #[none], limit := 9, fileSize := 8192 } =
      .ok ({ root := 1 }, none) (beyondStore disk fullLeaf) := by
  show EStateM.bind (Tree.rootWithin 1 0) _ _ = _
  rw [EStateM.bind, rootWithin_beyond low full]
  rfl

/-- Opening such a file follows the reference to the page that is not in use. -/
theorem opens_beyond (header : disk[0]? = some Page.blank) (size : disk.size = 1048578) :
    ofContents (disk.toList.flatMap Page.bytes) 9 = .ok {
      table := { schema := Schema.empty, store := beyondStore disk fullLeaf, tree := { root := 1 } }
      unmarkedRoot := none } := by
  have store : ofPages disk 9 = { disk, slots := #[none], limit := 9, fileSize := 8192 } := by
    have bytes : sizeOfPages disk.size = 8192 := by
      rw [size]
      decide
    rw [ofPages, bytes]
    rfl
  have empty : Schema.ofBytes Page.blank.bytes = .ok Schema.empty := by decide +kernel
  have schema : storedSchema (ofPages disk 9) = .ok Schema.empty := by
    rw [store]
    simp [storedSchema, Store.header, header, empty, Except.mapError]
  have tree := storedTree_beyond low full
  rw [← store] at tree
  simp only [ofContents, ofStore, ofContents_pages, schema, tree, bind, Except.bind]
  rfl

end Opened

/-- No page of the file has descending keys, and the table in it stops at an insertion where an
entry is used that is not there. -/
theorem undefined_beyond :
    (∀ (id : PageNumber) (page : Page) (node : Node),
      page.StandsIn (beyondPages.toList.flatMap Page.bytes) id → Node.ofPage page = .ok node →
      node.InOrder) ∧
    ∃ opened after, ofContents (beyondPages.toList.flatMap Page.bytes) 9 = .ok opened ∧
      (Call.insertCell 2 []).perform opened.table = .error (.undefined 1) after := by
  refine ⟨fun id page node stands found => ?_, ?_⟩
  · rw [Page.standsIn_flatMap_iff, Array.getElem?_toList] at stands
    exact (sturdy_beyondPages (Array.mem_of_getElem? stands) node found).ordered
  · have opens := opens_beyond (getElem?_beyondFront (by decide)) (getElem?_beyondFront (by decide))
      (getElem?_beyondFront (by decide)) size_beyondPages
    obtain ⟨after, stops⟩ := perform_beyond beyondPages
    exact ⟨_, after, opens, stops⟩

end Table

end RowStore
