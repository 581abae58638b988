import RowStore.Proofs.Lockstep
import RowStore.Proofs.Node.Grammar

/-!
# Stores as arrays of nodes

A store keeps some nodes in memory and finds the others in its file when they are asked
for. Seen from outside it is an array: an entry for each page in use, which is a node or
what is wrong with the page, and next to it the entries that the file has
(`NodeArray`). Nothing is loaded or written in an array; every operation is what its
name says.

The store and its array go in lockstep (`Store.refines_array`). What carries this is
that every page in use that is not in memory is in the file, and that no page of the
file lies beyond the pages in use (`Mirrors`).
-/

set_option autoImplicit false

namespace RowStore

/-! ## Nodes that can be stored -/

/-- The node is in order and fits a page. -/
structure Node.Storable (node : Node) : Prop where
  shaped : node.WellShaped
  ordinary : node.Ordinary
  small : node.size ≤ Page.size

theorem Node.Storable.exists_page {node : Node} (storable : node.Storable) :
    ∃ page, node.toPage = .ok page ∧ Node.ofPage page = .ok node :=
  Node.exists_page storable.shaped storable.ordinary storable.small

/-- What is read from a page can be stored again. -/
theorem Node.storable_of_ofPage {page : Page} {node : Node} (found : ofPage page = .ok node) :
    node.Storable := by
  obtain ⟨begins, ordinary⟩ := ofPage_eq_ok_iff.mp found
  exact ⟨begins.shaped, ordinary, begins.small⟩

/-! ## Arrays -/

/-- The node on a page, or what is wrong with the page. -/
abbrev Entry := Except PageDefect Node

/-- Nodes by their numbers, next to what the file has of them. The file has a header unless it is
empty, and there may be as many entries as the limit says. -/
structure NodeArray where
  entries : List Entry
  saved : List Entry
  header : Option Page
  limit : UInt32

namespace NodeArray

/-- The array of a file of pages, header first. -/
def ofPages (pages : List Page) (limit : UInt32) : NodeArray where
  entries := pages.tail.map Node.ofPage
  saved := pages.tail.map Node.ofPage
  header := pages.head?
  limit

/-- The node with a number. -/
def get (array : NodeArray) (id : PageNumber) : Except Fault Node :=
  match array.entries[id.toNat]? with
  | none => .error (.unreadable id .page)
  | some (.error defect) => .error (.corrupt id defect)
  | some (.ok node) => .ok node

/-- The array with another node in place of an entry. -/
def set (array : NodeArray) (id : PageNumber) (node : Node) : NodeArray :=
  { array with entries := array.entries.set id.toNat (.ok node) }

theorem entries_of_get {array : NodeArray} {id : PageNumber} {node : Node}
    (found : array.get id = .ok node) : array.entries[id.toNat]? = some (.ok node) := by
  unfold get at found
  split at found
  next => cases found
  next => cases found
  next present =>
    cases found
    exact present

/-- An entry that is there already changes nothing. -/
theorem set_of_get {array : NodeArray} {id : PageNumber} {node : Node}
    (found : array.get id = .ok node) : array.set id node = array := by
  have present := entries_of_get found
  have inside := (List.getElem?_eq_some_iff.mp present).1
  have same : array.entries.set id.toNat (.ok node) = array.entries := by
    apply List.ext_getElem?
    intro index
    rw [List.getElem?_set]
    split
    next here =>
      subst here
      exact present.symm
    next => rfl
  rw [set, same]

end NodeArray

/-! ## Requests -/

namespace Store

/-- Open the file again, with another limit and nothing in memory. -/
def reopen (limit : UInt32) : StoreM Unit := fun store =>
  match ofContents store.contents limit with
  | .ok opened => .ok () opened
  | .error fault => .error fault store

/-- What can be asked of a store, and of an array. -/
inductive Request where
  | get (id : PageNumber)
  | assign (id : PageNumber) (node : Node)
  | allocate (node : Node)
  | flush (header : Page)
  | reopen (limit : UInt32)
  | clear

/-- What is answered. -/
inductive Reply where
  | node (node : Node)
  | number (id : PageNumber)
  | done

namespace Request

/-- Nodes can be stored, and limits are not too large. -/
def Proper : Request → Prop
  | assign _ node => node.Storable
  | allocate node => node.Storable
  | reopen limit => limit.toNat ≤ largestLimit
  | _ => True

/-- What a store does. -/
def onStore : Request → StoreM Reply
  | get id => return .node (← load id)
  | assign id node => do
    update id fun _ => node
    return .done
  | allocate node => return .number (← Store.allocate node)
  | flush header => do
    Store.flush header
    return .done
  | reopen limit => do
    Store.reopen limit
    return .done
  | clear => do
    Store.clear
    return .done

/-- What an array does. -/
def onArray : Request → EStateM Fault NodeArray Reply
  | get id => fun array =>
    match array.get id with
    | .ok node => .ok (.node node) array
    | .error fault => .error fault array
  | assign id node => fun array =>
    match array.get id with
    | .ok _ => .ok .done (array.set id node)
    | .error fault => .error fault array
  | allocate node => fun array =>
    if array.entries.length < array.limit.toNat then
      .ok (.number (UInt32.ofNat array.entries.length))
        { array with entries := array.entries ++ [.ok node] }
    else
      .error (.shortage (.pages array.limit)) array
  | flush header => fun array =>
    .ok .done { array with saved := array.entries, header := some header }
  | reopen limit => fun array => .ok .done { array with entries := array.saved, limit }
  | clear => fun array => .ok .done { array with entries := [], saved := [], header := none }

end Request

/-! ## The array of a store -/

/-- The entry for a page: the node in memory, or else what the page in the file holds. -/
def entryAt (store : Store) (index : Nat) : Option Entry :=
  match store.slots[index]? with
  | none => none
  | some (some node) => some (.ok node)
  | some none => store.disk[index + 1]?.map Node.ofPage

/-- The array has what memory and file have together. What is not in memory is in the file
(`stored`), and what is in the file is in use (`bounded`). -/
structure Mirrors (store : Store) (array : NodeArray) : Prop where
  entries : ∀ index, array.entries[index]? = store.entryAt index
  saved : ∀ index, array.saved[index]? = store.disk[index + 1]?.map Node.ofPage
  header : array.header = store.disk[0]?
  limit : array.limit = store.limit
  stored : ∀ index : Nat, store.slots[index]? = some none → index + 1 < store.disk.size
  bounded : store.disk.size ≤ store.pagesInUse + 1
  storable : ∀ (index : Nat) (node : Node), store.slots[index]? = some (some node) → node.Storable
  strays : store.strays = []
  fileSize : store.fileSize = sizeOfPages store.disk.size
  small : store.pagesInUse ≤ largestLimit
  limited : store.limit.toNat ≤ largestLimit

namespace Mirrors

variable {store : Store} {array : NodeArray} {id : PageNumber} {node : Node}

theorem entryAt_eq_none_iff (mirrors : store.Mirrors array) {index : Nat} :
    store.entryAt index = none ↔ store.pagesInUse ≤ index := by
  rw [pagesInUse, ← Array.getElem?_eq_none_iff, entryAt]
  cases slot : store.slots[index]? with
  | none => simp only
  | some found =>
    cases found with
    | some node => simp only [reduceCtorEq]
    | none =>
      have stored := Array.getElem?_eq_getElem (mirrors.stored index slot)
      simp only [stored, Option.map_some, reduceCtorEq]

theorem length (mirrors : store.Mirrors array) : array.entries.length = store.pagesInUse := by
  have same : ∀ index, array.entries.length ≤ index ↔ store.pagesInUse ≤ index := by
    intro index
    rw [← mirrors.entryAt_eq_none_iff, ← mirrors.entries, List.getElem?_eq_none_iff]
  exact Nat.le_antisymm ((same _).mpr (Nat.le_refl _)) ((same _).mp (Nat.le_refl _))

theorem closed (mirrors : store.Mirrors array) : store.view.Closed :=
  closed_view mirrors.bounded fun _ => inMemory?_eq_none_of_strays mirrors.strays

/-- Numbers stand for the same nodes. -/
theorem peek (mirrors : store.Mirrors array) (id : PageNumber) : store.peek id = array.get id := by
  have entry := mirrors.entries id.toNat
  unfold entryAt at entry
  unfold NodeArray.get
  rw [entry]
  cases slot : store.slots[id.toNat]? with
  | none =>
    have outside : store.slots.size ≤ id.toNat := Array.getElem?_eq_none_iff.mp slot
    have beyond : store.disk.size ≤ id.toNat + 1 :=
      Nat.le_trans mirrors.bounded (Nat.succ_le_succ outside)
    have missing : store.disk[id.toNat + 1]? = none := Array.getElem?_eq_none_iff.mpr beyond
    rw [peek_of_not_inMemory (inMemory?_eq_none_of_strays mirrors.strays outside), inFile, missing]
  | some found =>
    cases found with
    | some node => exact peek_of_slot slot
    | none =>
      have stored := Array.getElem?_eq_getElem (mirrors.stored id.toNat slot)
      rw [peek_of_not_inMemory (inMemory?_of_slot slot), inFile]
      simp only [stored, Option.map_some]
      cases Node.ofPage _ <;> rfl

/-- What is in memory or is read from the file can be stored. -/
theorem storable_of_peek (mirrors : store.Mirrors array) (found : store.peek id = .ok node) :
    node.Storable := by
  rw [mirrors.peek] at found
  have entry := mirrors.entries id.toNat
  rw [NodeArray.entries_of_get found, entryAt] at entry
  split at entry
  next => cases entry
  next present =>
    cases entry
    exact mirrors.storable _ _ present
  next =>
    obtain ⟨page, -, reads⟩ := Option.map_eq_some_iff.mp entry.symm
    exact Node.storable_of_ofPage reads

theorem inUse (mirrors : store.Mirrors array) (found : store.peek id = .ok node) :
    id.toNat < store.pagesInUse :=
  mirrors.closed id node found

/-- A node is put in memory at one place, for a page that is in use already or for the next one. -/
theorem place (mirrors : store.Mirrors array) (place : Nat) {slots : Array (Option Node)}
    {entries : List Entry} (storable : node.Storable)
    (slotsOf : ∀ index, slots[index]? =
      if index = place then some (some node) else store.slots[index]?)
    (entriesOf : ∀ index, entries[index]? =
      if index = place then some (.ok node) else array.entries[index]?)
    (grown : store.pagesInUse ≤ slots.size) (small : slots.size ≤ largestLimit) :
    Mirrors { store with slots } { array with entries } := by
  refine ⟨?_, mirrors.saved, mirrors.header, mirrors.limit, ?_, ?_, ?_, mirrors.strays,
    mirrors.fileSize, small, mirrors.limited⟩
  · intro index
    rw [entriesOf, entryAt]
    dsimp only
    rw [slotsOf]
    by_cases here : index = place
    · simp only [here, if_true]
    · simp only [here, if_false]
      exact mirrors.entries index
  · intro index unloaded
    rw [slotsOf] at unloaded
    split at unloaded
    next => cases unloaded
    next => exact mirrors.stored index unloaded
  · exact Nat.le_trans mirrors.bounded (Nat.succ_le_succ grown)
  · intro index other present
    rw [slotsOf] at present
    split at present
    next =>
      cases present
      exact storable
    next => exact mirrors.storable index other present

theorem cache (mirrors : store.Mirrors array) (inUse : id.toNat < store.pagesInUse)
    (storable : node.Storable) : (store.cache id node).Mirrors (array.set id node) := by
  have size : (store.slots.setIfInBounds id.toNat (some node)).size = store.pagesInUse :=
    Array.size_setIfInBounds
  have inArray : id.toNat < array.entries.length := by
    rw [mirrors.length]
    exact inUse
  rw [cache_of_inUse node inUse]
  refine mirrors.place id.toNat storable ?_ ?_ (Nat.le_of_eq size.symm)
    (size ▸ mirrors.small)
  · intro index
    by_cases here : index = id.toNat
    · rw [if_pos here, here, Array.getElem?_setIfInBounds_self_of_lt inUse]
    · rw [if_neg here, Array.getElem?_setIfInBounds_ne (Ne.symm here)]
  · intro index
    by_cases here : index = id.toNat
    · rw [if_pos here, here, List.getElem?_set_self inArray]
    · rw [if_neg here, List.getElem?_set_ne (Ne.symm here)]

theorem push (mirrors : store.Mirrors array) (room : store.pagesInUse < store.limit.toNat)
    (storable : node.Storable) :
    Mirrors { store with slots := store.slots.push (some node) }
      { array with entries := array.entries ++ [.ok node] } := by
  have size : (store.slots.push (some node)).size = store.pagesInUse + 1 := Array.size_push ..
  refine mirrors.place store.pagesInUse storable (fun index => Array.getElem?_push) ?_
    (size ▸ Nat.le_succ _) (size ▸ Nat.le_trans room mirrors.limited)
  intro index
  rw [← mirrors.length]
  by_cases here : index = array.entries.length
  · rw [if_pos here, here, List.getElem?_concat_length]
  · rw [if_neg here, List.getElem?_append]
    split
    next => rfl
    next outside =>
      have beyond : array.entries.length ≤ index := Nat.le_of_not_lt outside
      have apart : index - array.entries.length ≠ 0 := by omega
      rw [List.getElem?_eq_none beyond, List.getElem?_singleton, if_neg apart]

/-- **A flush writes what is in memory, and the file has all entries then.** -/
theorem flush (mirrors : store.Mirrors array) (header : Page) :
    ∃ after, Store.flush header store = .ok () after ∧
      after.Mirrors { array with saved := array.entries, header := some header } := by
  have fits : ∀ (index : Nat) (node : Node), store.slots[index]? = some (some node) →
      ∃ page, node.toPage = .ok page := by
    intro index node present
    obtain ⟨page, fits, -⟩ := (mirrors.storable index node present).exists_page
    exact ⟨page, fits⟩
  obtain ⟨disk, run, written⟩ := flush_of_fitting mirrors.closed header mirrors.stored fits
  have first := getElem?_writeAt header (Nat.zero_le store.disk.size)
  have count : store.slots.toList.length = store.pagesInUse := Array.length_toList
  have bounded := mirrors.bounded
  have size : disk.size = store.pagesInUse + 1 := by
    rw [written.size, count, size_writeAt]
    omega
  -- Every slot has an entry in the new file, which is the one that it had before.
  have entries : ∀ index, disk[index + 1]?.map Node.ofPage = store.entryAt index := by
    intro index
    unfold entryAt
    cases slot : store.slots[index]? with
    | none =>
      have outside : store.pagesInUse ≤ index := Array.getElem?_eq_none_iff.mp slot
      rw [Array.getElem?_eq_none (by omega)]
      rfl
    | some found =>
      have listed : store.slots.toList[index]? = some found := Array.getElem?_toList.trans slot
      rw [Nat.add_comm]
      cases found with
      | some node =>
        obtain ⟨page, stored, inFile⟩ := written.loaded index node listed
        obtain ⟨page', stored', reads⟩ := (mirrors.storable index node slot).exists_page
        cases stored.symm.trans stored'
        rw [inFile, Option.map_some, reads]
      | none =>
        rw [written.unloaded index listed, first, if_neg (by omega), Nat.add_comm]
  refine ⟨_, run, ?_, ?_, ?_, mirrors.limit, ?_, ?_, mirrors.storable, mirrors.strays, ?_,
    mirrors.small, mirrors.limited⟩
  · intro index
    rw [mirrors.entries]
    cases slot : store.slots[index]? with
    | none => simp only [entryAt, slot]
    | some found =>
      cases found with
      | some node => simp only [entryAt, slot]
      | none =>
        rw [← entries]
        simp only [entryAt, slot]
  · intro index
    rw [mirrors.entries, entries]
  · show some header = disk[0]?
    rw [written.elsewhere 0 (.inl Nat.one_pos), first, if_pos rfl]
  · intro index unloaded
    have inside := (Array.getElem?_eq_some_iff.mp unloaded).1
    show index + 1 < disk.size
    rw [size]
    exact Nat.succ_lt_succ inside
  · exact Nat.le_of_eq size
  · show max store.fileSize (sizeOfPages (store.pagesInUse + 1)) = sizeOfPages disk.size
    rw [mirrors.fileSize, size]
    exact max_sizeOfPages bounded (Nat.succ_le_succ mirrors.small)

/-- A store that is opened has what the file has, and nothing in memory. -/
theorem opened {disk : Array Page} {limit : UInt32} {entries : List Entry}
    (entriesOf : ∀ index, entries[index]? = disk[index + 1]?.map Node.ofPage)
    (small : disk.size ≤ largestLimit + 1) (limited : limit.toNat ≤ largestLimit) :
    (ofPages disk limit).Mirrors { entries, saved := entries, header := disk[0]?, limit } := by
  have count : (ofPages disk limit).slots.size = disk.size - 1 := pagesInUse_ofPages small limit
  have slots : ∀ index, (ofPages disk limit).slots[index]? =
      if index < disk.size - 1 then some none else none := by
    intro index
    rw [← count]
    exact Array.getElem?_replicate.trans (by rw [ofPages, Array.size_replicate])
  refine ⟨?_, entriesOf, rfl, rfl, ?_, ?_, ?_, rfl, rfl, ?_, limited⟩
  · intro index
    rw [entriesOf, entryAt, slots]
    split
    next unloaded =>
      split at unloaded
      next => cases unloaded
      next outside =>
        rw [Array.getElem?_eq_none (by omega)]
        rfl
    next present =>
      split at present <;> cases present
    next => rfl
  · intro index unloaded
    rw [slots] at unloaded
    split at unloaded
    next inside =>
      show index + 1 < disk.size
      omega
    next => cases unloaded
  · show disk.size ≤ (ofPages disk limit).slots.size + 1
    rw [count]
    omega
  · intro index node present
    rw [slots] at present
    split at present <;> cases present
  · show (ofPages disk limit).slots.size ≤ largestLimit
    rw [count]
    omega

theorem reopen (mirrors : store.Mirrors array) {limit : UInt32}
    (limited : limit.toNat ≤ largestLimit) :
    ∃ after, Store.reopen limit store = .ok () after ∧
      after.Mirrors { array with entries := array.saved, limit } := by
  have small : store.disk.size ≤ largestLimit + 1 :=
    Nat.le_trans mirrors.bounded (Nat.succ_le_succ mirrors.small)
  have again := opened mirrors.saved small limited
  rw [← mirrors.header] at again
  refine ⟨_, ?_, again⟩
  rw [Store.reopen, contents, ofContents_pages]

theorem clear (mirrors : store.Mirrors array) :
    Mirrors { limit := store.limit }
      { array with entries := [], saved := [], header := none } := by
  refine ⟨fun index => ?_, fun index => ?_, rfl, mirrors.limit, ?_, ?_, ?_, rfl,
    sizeOfPages_zero.symm, ?_, mirrors.limited⟩
  · rfl
  · rfl
  · intro index unloaded
    cases unloaded
  · exact Nat.zero_le _
  · intro index node present
    cases present
  · exact Nat.zero_le _

end Mirrors

namespace Request

variable {store : Store} {array : NodeArray} {id : PageNumber}

/-- A number that stands for nothing is refused by both, and nothing changes. -/
theorem refused (mirrors : store.Mirrors array) {fault : Fault}
    (missing : store.peek id = .error fault) :
    load id store = .error fault store ∧ array.get id = .error fault := by
  refine ⟨?_, mirrors.peek id ▸ missing⟩
  simp only [load, missing]

/-- A number that stands for a node stands for it in both, and loading it changes nothing. -/
theorem found (mirrors : store.Mirrors array) {node : Node} (present : store.peek id = .ok node) :
    load id store = .ok node (store.cache id node) ∧ array.get id = .ok node ∧
      (store.cache id node).Mirrors array := by
  have same : array.get id = .ok node := mirrors.peek id ▸ present
  have kept := mirrors.cache (mirrors.inUse present) (mirrors.storable_of_peek present)
  rw [NodeArray.set_of_get same] at kept
  refine ⟨?_, same, kept⟩
  simp only [load, present]

theorem lockstep_get : Lockstep Mirrors (get id).onStore (get id).onArray := by
  intro store array mirrors
  cases looked : store.peek id with
  | ok node =>
    obtain ⟨run, same, kept⟩ := found mirrors looked
    refine Lockstep.of_ok (Reply.node node) ?_ ?_ kept
    · simp only [onStore, bind, EStateM.bind, run, pure, EStateM.pure]
    · simp only [onArray, same]
  | error fault =>
    obtain ⟨stop, same⟩ := refused mirrors looked
    refine Lockstep.of_error fault ?_ ?_ mirrors
    · simp only [onStore, bind, EStateM.bind, stop]
    · simp only [onArray, same]

theorem lockstep_assign {node : Node} (storable : node.Storable) :
    Lockstep Mirrors (assign id node).onStore (assign id node).onArray := by
  intro store array mirrors
  cases looked : store.peek id with
  | ok old =>
    obtain ⟨run, same, kept⟩ := found mirrors looked
    have inUse : id.toNat < (store.cache id old).pagesInUse := by
      rw [pagesInUse_cache]
      exact mirrors.inUse looked
    refine Lockstep.of_ok Reply.done ?_ ?_ (kept.cache inUse storable)
    · simp only [onStore, bind, EStateM.bind, update, run]
      rfl
    · simp only [onArray, same]
  | error fault =>
    obtain ⟨stop, same⟩ := refused mirrors looked
    refine Lockstep.of_error fault ?_ ?_ mirrors
    · simp only [onStore, bind, EStateM.bind, update, stop]
    · simp only [onArray, same]

theorem lockstep_allocate {node : Node} (storable : node.Storable) :
    Lockstep Mirrors (allocate node).onStore (allocate node).onArray := by
  intro store array mirrors
  have length := mirrors.length
  have limit := mirrors.limit
  by_cases room : store.pagesInUse < store.limit.toNat
  · refine Lockstep.of_ok (Reply.number (UInt32.ofNat store.pagesInUse)) ?_ ?_
      (mirrors.push room storable)
    · simp only [onStore, bind, EStateM.bind, Store.allocate, room, if_true, pure, EStateM.pure]
    · simp only [onArray, length, limit, room, if_true]
  · refine Lockstep.of_error (.shortage (.pages store.limit)) ?_ ?_ mirrors
    · simp only [onStore, bind, EStateM.bind, Store.allocate, room, if_false]
    · simp only [onArray, length, limit, room, if_false]

/-- **A store and its array go in lockstep**, request by request. -/
theorem lockstep {request : Request} (proper : request.Proper) :
    Lockstep Mirrors request.onStore request.onArray := by
  cases request with
  | get id => exact lockstep_get
  | assign id node => exact lockstep_assign proper
  | allocate node => exact lockstep_allocate proper
  | flush header =>
    intro store array mirrors
    obtain ⟨after, run, written⟩ := mirrors.flush header
    refine Lockstep.of_ok Reply.done ?_ rfl written
    simp only [onStore, bind, EStateM.bind, run, pure, EStateM.pure]
  | reopen limit =>
    intro store array mirrors
    obtain ⟨after, run, again⟩ := mirrors.reopen proper
    refine Lockstep.of_ok Reply.done ?_ rfl again
    simp only [onStore, bind, EStateM.bind, run, pure, EStateM.pure]
  | clear => exact fun store array mirrors => Lockstep.of_ok Reply.done rfl rfl mirrors.clear

end Request

/-! ## Files of whole pages -/

theorem exists_opened {contents : Bytes} {limit : UInt32}
    (whole : contents.length % Page.size = 0) (small : contents.length < UInt32.size)
    (limited : limit.toNat ≤ largestLimit) :
    ∃ store, ofContents contents limit = .ok store ∧
      store.Mirrors (NodeArray.ofPages (Page.allOf contents) limit) := by
  have pages := Page.flatMap_allOf whole
  generalize Page.allOf contents = disk at pages ⊢
  subst pages
  have few : disk.toArray.size ≤ largestLimit + 1 := by
    have few := size_allOf_le whole small
    rwa [Page.allOf_flatMap] at few
  have entries : ∀ index, (disk.tail.map Node.ofPage)[index]? =
      disk.toArray[index + 1]?.map Node.ofPage := by
    intro index
    rw [List.getElem?_map, List.getElem?_tail, List.getElem?_toArray]
  refine ⟨_, ofContents_pages disk.toArray limit, ?_⟩
  have mirrors := Mirrors.opened entries few limited
  rw [List.getElem?_toArray, ← List.head?_eq_getElem?] at mirrors
  exact mirrors

/-! ## What can be seen -/

/-- Everything that can be seen of the store is as the array has it. The pages in use are the
entries, every number stands for its entry, and only what is not in use cannot be read. What cannot
be loaded leaves no trace. The next number is the number of pages in use, unless these are as many
as there may be; then an allocation fails and changes nothing. The header is there unless the file
is empty. -/
structure Agrees (store : Store) (array : NodeArray) : Prop where
  pages : store.pagesInUse = array.entries.length
  loads : ∀ id, answer (load id) store = array.get id
  unreadable : ∀ id, (∃ failure, answer (load id) store = .error (.unreadable id failure)) ↔
    store.pagesInUse ≤ id.toNat
  failed : ∀ id fault, answer (load id) store = .error fault → leftBy (load id) store = store
  limit : store.limit = array.limit
  allocates : ∀ node, answer (allocate node) store =
    if store.pagesInUse < store.limit.toNat then .ok (UInt32.ofNat store.pagesInUse)
    else .error (.shortage (.pages store.limit))
  numbered : (UInt32.ofNat store.pagesInUse).toNat = store.pagesInUse
  full : ∀ node, store.limit.toNat ≤ store.pagesInUse → leftBy (allocate node) store = store
  header : store.header = array.header.elim (.error (.unreadable 0 .header)) .ok
  fileSize : store.fileSize.toNat = store.contents.length
  small : store.contents.length < UInt32.size

namespace Mirrors

variable {store : Store} {array : NodeArray}

theorem isUnreadable_iff (mirrors : store.Mirrors array) (id : PageNumber) :
    (∃ failure, array.get id = .error (.unreadable id failure)) ↔
      store.pagesInUse ≤ id.toNat := by
  rw [← mirrors.entryAt_eq_none_iff, ← mirrors.entries]
  unfold NodeArray.get
  constructor
  · rintro ⟨failure, missing⟩
    split at missing
    next none => exact none
    next => cases missing
    next => cases missing
  · intro none
    rw [none]
    exact ⟨.page, rfl⟩

/-- **A store that has the nodes of an array cannot be told from it.** -/
theorem agrees (mirrors : store.Mirrors array) : store.Agrees array := by
  have loads : ∀ id, answer (load id) store = array.get id := by
    intro id
    rw [← mirrors.peek id, answer, load]
    cases store.peek id <;> rfl
  refine ⟨mirrors.length.symm, loads, ?_, ?_, mirrors.limit.symm, ?_, ?_, ?_, ?_, ?_, ?_⟩
  · intro id
    simp only [loads]
    exact mirrors.isUnreadable_iff id
  · intro id fault missing
    unfold answer load at missing
    unfold leftBy load
    cases looked : store.peek id with
    | ok node =>
      simp only [looked] at missing
      cases missing
    | error fault => rfl
  · intro node
    unfold answer allocate
    by_cases room : store.pagesInUse < store.limit.toNat <;> simp only [room, if_true, if_false]
  · have few := mirrors.small
    rw [UInt32.toNat_ofNat']
    rw [largestLimit] at few
    exact Nat.mod_eq_of_lt (by omega)
  · intro node full
    unfold leftBy allocate
    rw [if_neg (Nat.not_lt.mpr full)]
  · rw [mirrors.header, Store.header]
    cases store.disk[0]? <;> rfl
  · have few := mirrors.small
    have bounded := mirrors.bounded
    rw [mirrors.fileSize, toNat_sizeOfPages (by omega), contents, Page.length_flatMap_bytes,
      Array.length_toList, Nat.mul_comm]
  · have few := mirrors.small
    have bounded := mirrors.bounded
    rw [contents, Page.length_flatMap_bytes, Array.length_toList, Page.size, UInt32.size]
    rw [largestLimit] at few
    omega

end Mirrors

/-- **A store is an array of nodes.** On any file of whole pages, whatever is asked for in whatever
order, the store answers as its array does, and can be seen to have the same entries at any time.
The bounds on the file and on the limits keep the length of the file within a word. -/
theorem refines_array (contents : Bytes) (limit : UInt32)
    (whole : contents.length % Page.size = 0) (small : contents.length < UInt32.size)
    (limited : limit.toNat ≤ largestLimit) (requests : List Request)
    (proper : ∀ request ∈ requests, request.Proper) :
    ∃ store, ofContents contents limit = .ok store ∧
      answersTo Request.onStore requests store =
        answersTo Request.onArray requests (.ofPages (Page.allOf contents) limit) ∧
      (leftByAll Request.onStore requests store).Agrees
        (leftByAll Request.onArray requests (.ofPages (Page.allOf contents) limit)) := by
  obtain ⟨store, opens, mirrors⟩ := exists_opened whole small limited
  obtain ⟨answers, last⟩ := Lockstep.requests
    (fun request member => Request.lockstep (proper request member)) mirrors
  exact ⟨store, opens, answers, last.agrees⟩

/-- For an empty file with a limit of one page: a page that is not there, the first one, one too
many, and the first one again after the file was written and opened. -/
def singlePage : List Request :=
  [.get 0, .allocate (.leaf { keys := [3], values := [[7]] }), .allocate (.leaf {}),
    .flush Page.blank, .reopen 1, .get 0]

theorem refines_array_singlePage :
    ∃ store, ofContents [] 1 = .ok store ∧ answersTo Request.onStore singlePage store =
      [.error (.unreadable 0 .page), .ok (.number 0), .error (.shortage (.pages 1)), .ok .done,
        .ok .done, .ok (.node (.leaf { keys := [3], values := [[7]] }))] := by
  have single : Node.Storable (.leaf { keys := [3], values := [[7]] }) :=
    ⟨by decide, ⟨nofun, nofun⟩, by decide⟩
  have empty : Node.Storable (.leaf {}) := ⟨by decide, ⟨nofun, nofun⟩, by decide⟩
  have limited : (1 : UInt32).toNat ≤ largestLimit := by decide
  have proper : ∀ request ∈ singlePage, request.Proper := by
    simp only [singlePage, List.forall_mem_cons]
    exact ⟨trivial, single, empty, trivial, limited, trivial, nofun⟩
  obtain ⟨store, opens, answers, -⟩ :=
    refines_array [] 1 rfl (by decide) limited singlePage proper
  exact ⟨store, opens, answers⟩

end Store

end RowStore
