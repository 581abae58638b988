import RowStore.Store.Basic

/-!
# Stores and their files

A store is opened on the bytes of a file, which must be whole pages; a file
without a byte is a store without a page. Flushing writes the header and every
node in memory to its page; pages that were never loaded keep their bytes.
Clearing empties the file and forgets every node, and keeps the limit.

The size of the file is taken as a word, so a file of `2 ^ 32` bytes passes for
an empty one, and of a larger file only what is above a multiple of `2 ^ 32` is
in use. Whether a file is whole pages does not depend on that, since a page
divides `2 ^ 32`.

A node that is too large for a page stops a flush where it stands: the header
and the pages before it are written by then.
-/

set_option autoImplicit false

namespace RowStore

namespace Store

/-- The size of a file of the given number of pages, the header among them, as a word. -/
def sizeOfPages (count : Nat) : UInt32 := UInt32.ofNat (count * Page.size)

/-- The store of a file of whole pages. -/
def ofPages (disk : Array Page) (limit : UInt32) : Store where
  disk
  slots := Array.replicate ((sizeOfPages disk.size).toNat / Page.size - 1) none
  limit
  fileSize := sizeOfPages disk.size

/-- Open a store on the bytes of a file. -/
def ofContents (contents : Bytes) (limit : UInt32) : Except Fault Store :=
  let fileSize := UInt32.ofNat contents.length
  if fileSize.toNat % Page.size = 0 then
    .ok (ofPages (Page.allOf contents).toArray limit)
  else
    .error (.corrupt (UInt32.ofNat (fileSize.toNat / Page.size)) .fileSize)

/-- The header of the file, as it stands there. -/
def header (store : Store) : Except Fault Page :=
  match store.disk[0]? with
  | some page => .ok page
  | none => .error (.unreadable 0 .header)

/-- The file with a page written at a place, counted with the header. Places that are skipped
hold zeros. -/
def writeAt (disk : Array Page) (place : Nat) (page : Page) : Array Page :=
  if place < disk.size then disk.setIfInBounds place page
  else (disk ++ Array.replicate (place - disk.size) Page.blank).push page

/-- Write a node to its place of the file. -/
def writeNode (place : Nat) (node : Node) : StoreM Unit :=
  match node.toPage with
  | .error shortage => throw (.shortage shortage)
  | .ok page => modify fun store => { store with disk := writeAt store.disk place page }

/-- Write the nodes of consecutive slots, the first one at the given place of the file. -/
def writeSlots : Nat → List (Option Node) → StoreM Unit
  | _, [] => pure ()
  | place, none :: slots => writeSlots (place + 1) slots
  | place, some node :: slots => do
    writeNode place node
    writeSlots (place + 1) slots

/-- Write the nodes of a list to their pages. -/
def writeStrays : List (PageNumber × Node) → StoreM Unit
  | [] => pure ()
  | (id, node) :: strays => do
    writeNode (id.toNat + 1) node
    writeStrays strays

/-- The nodes in memory beyond the pages in use. -/
def straysBeyond (store : Store) : List (PageNumber × Node) :=
  store.strays.filter (store.pagesInUse ≤ ·.1.toNat)

/-- Write the header and all nodes in memory to the file. -/
def flush (header : Page) : StoreM Unit := do
  modify fun store => { store with disk := writeAt store.disk 0 header }
  writeStrays (← get).straysBeyond
  writeSlots 1 (← get).slots.toList
  modify fun store => { store with
    fileSize := max store.fileSize (sizeOfPages (store.pagesInUse + 1)) }

/-- Empty the file and forget all nodes. -/
def clear : StoreM Unit := modify fun store => { limit := store.limit }

/-- A new file is an empty store. -/
theorem ofContents_nil (limit : UInt32) : ofContents [] limit = .ok { limit } := rfl

end Store

end RowStore
