import RowStore.Schema.Codec
import RowStore.Schema.Row
import RowStore.Store.File
import RowStore.Tree.Insert

/-!
# Tables

A table is a schema and a tree of rows in the store of one file. The header of
the file holds the schema, and each row is a value of the tree, under the
integer in its first column. Rows fix the schema: columns are only added while
the tree is empty.

The first page of a store is the first leaf of its tree, whatever the root is
by then, so a table is found again by going up from page zero. A page at the top
that is not marked as root is marked, and the opening says so.
-/

set_option autoImplicit false

namespace RowStore

open Store

/-- A schema with the tree of its rows, in the store of a file. -/
structure Table where
  schema : Schema
  store : Store
  tree : Tree
  deriving DecidableEq

/-- A computation on a table that may fail half way. -/
abbrev TableM := EStateM Fault Table

namespace Table

/-! ## Opening -/

/-- What opening a file gives: the table, and the number of its root, if that was not marked as root
in the file. -/
structure Opened where
  table : Table
  unmarkedRoot : Option PageNumber

/-- The line which reports that a root was not marked. -/
def unmarkedRootNotice (root : PageNumber) : Bytes :=
  text "Page " ++ Decimal.ofNat root.toNat ++
    text " has no parent but is not marked as root, marking it"

/-- The schema in the header of a store, which is empty if the file is. -/
def storedSchema (store : Store) : Except Fault Schema :=
  if store.fileSize = 0 then
    .ok Schema.empty
  else
    match store.header with
    | .error fault => .error fault
    | .ok header => (Schema.ofBytes header.bytes).mapError Fault.schema

/-- The tree above the first page, or a new tree in a store without a page. -/
def storedTree : StoreM (Tree × Option PageNumber) := do
  if (← countPages) = 0 then
    let tree ← Tree.create
    return (tree, none)
  else
    let root ← Tree.rootAbove 0
    let node ← load root
    if node.rootMark then
      return ({ root }, none)
    else
      replace root (node.withRootMark true)
      return ({ root }, some root)

/-- The table in a store that was just opened. -/
def ofStore (store : Store) : Except Fault Opened := do
  let schema ← storedSchema store
  match storedTree store with
  | .error fault _ => .error fault
  | .ok (tree, unmarkedRoot) store => return { table := { schema, store, tree }, unmarkedRoot }

/-- The table in the bytes of a file. -/
def ofContents (contents : Bytes) (limit : UInt32) : Except Fault Opened := do
  ofStore (← Store.ofContents contents limit)

/-! ## Operations -/

/-- A computation on the store of the table. -/
def onStore {α : Type} (action : StoreM α) : TableM α := fun table =>
  match action table.store with
  | .ok value store => .ok value { table with store }
  | .error fault store => .error fault { table with store }

/-- What does not change the table. -/
def lift {α : Type} (result : Except Fault α) : TableM α := fun table =>
  match result with
  | .ok value => .ok value table
  | .error fault => .error fault table

/-- Add columns at the end, all of them or none. -/
def extendSchema (columns : List Column) : TableM Unit := do
  let table ← get
  if ← onStore table.tree.isEmpty then
    let schema ← lift ((table.schema.pushAll columns).mapError Fault.schema)
    modify fun table => { table with schema }
  else
    throw (.schema .rowsStored)

/-- The key of a row, which is the integer in its first column. -/
def keyOf : Row → Except Fault Key
  | .integer key :: _ => .ok key
  | _ => .error .keyNotInteger

/-- Insert the row that a list of words describes. -/
def insert (words : List Bytes) : TableM Unit := do
  let table ← get
  if table.schema.hasColumns then
    let row ← lift ((table.schema.rowOfWords words).mapError Fault.row)
    let key ← lift (keyOf row)
    let bytes ← lift ((table.schema.rowToBytes row).mapError Fault.row)
    let tree ← onStore (table.tree.insert key bytes)
    modify fun table => { table with tree }
  else
    throw .schemaUndefined

/-- All rows, in the order of their keys. -/
def rows : TableM (List Row) := do
  let table ← get
  if table.schema.hasColumns then
    onStore (table.tree.collect fun _ bytes =>
      (table.schema.rowOfBytes bytes).mapError Fault.row)
  else
    throw .schemaUndefined

/-- Write the schema and the nodes in memory to the file. -/
def save : TableM Unit := do
  let bytes := (← get).schema.toBytes
  if bytes.length ≤ Page.size then
    onStore (flush (Page.ofBytes bytes))
  else
    throw (.shortage (.header bytes.length))

/-- Empty the file and start again without a column. -/
def clear : TableM Unit := do
  modify fun table => { table with schema := Schema.empty }
  onStore Store.clear
  let tree ← onStore Tree.create
  modify fun table => { table with tree }

end Table

end RowStore
