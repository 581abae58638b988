import RowStore.Proofs.Table.Calls
import RowStore.Proofs.Table.Reopen

/-!
# Durability

A run begins with a table on an empty file. It makes any requests, which succeed or
fail, and at any time drops the table and opens the file again, with any limit up to
`largestLimit` (`Table.Reached`). Next to the table, a state of a run has the table as
it was right after the last request that wrote to the file.

Whenever the file is opened in such a state, that table is found again, with the same
schema, root, nodes and rows, and nothing has to be repaired. No other request changes
the file, and neither does one that fails (`Table.durable`).

One request on a table in order leaves a table in order (`Table.Holds.perform`), on no
more pages than the limits allow, and the file holds the last table written as long as
nothing else is written. All of this carries over to runs by induction.
-/

set_option autoImplicit false

namespace RowStore

open Store

namespace Table

/-! ## Requests -/

/-- What can be asked of a table. -/
inductive Request where
  | extendSchema (columns : List Column)
  | insert (words : List Bytes)
  | rows
  | save
  | clear

namespace Request

/-- Columns of integers are as wide as integers. -/
def Ordinary : Request → Prop
  | extendSchema columns => ∀ column ∈ columns, column.Ordinary
  | _ => True

/-- The operation that is asked for. -/
def perform : Request → TableM Unit
  | extendSchema columns => Table.extendSchema columns
  | insert words => Table.insert words
  | rows => do let _ ← Table.rows
  | save => Table.save
  | clear => Table.clear

/-- A request is one of the calls that a table takes. -/
def toCall : Request → Call
  | extendSchema columns => .extendSchema columns
  | insert words => .insert words
  | rows => .rows
  | save => .save
  | clear => .clear

theorem perform_toCall (request : Request) : request.toCall.perform = request.perform := by
  cases request <;> rfl

/-- The requests that are made to change the file. -/
def writes : Request → Bool
  | save => true
  | clear => true
  | _ => false

end Request

/-- **A request leaves a table in order.** If it fails, nothing has changed. The file is only
changed by requests that write, and holds the table then. -/
theorem Holds.perform {table : Table} {cells : List (Key × Bytes)} (holds : table.Holds cells)
    {request : Request} (ordinary : request.Ordinary) :
    Ends table request.perform
      (fun _ after => ∃ cells', after.Holds cells' ∧
        (request.writes = true → Stored after.store.contents after cells') ∧
        (request.writes = false → after.store.contents = table.store.contents))
      (fun _ after => table.Unchanged after) := by
  cases request with
  | extendSchema columns =>
    refine (holds.extendSchema ordinary).weaken ?_ fun _ _ failed => failed.1
    rintro _ after ⟨-, -, holds', same⟩
    exact ⟨cells, holds', fun writes => (by cases writes), fun _ => same⟩
  | insert words =>
    refine (holds.insert words).weaken ?_ fun _ _ failed => failed.1
    rintro _ after ⟨row, key, bytes, -, -, -, -, holds', same⟩
    exact ⟨(key, bytes) :: cells, holds', fun writes => (by cases writes), fun _ => same⟩
  | rows =>
    obtain ⟨ordered, -, -, -, ends⟩ := holds.keeps.rows
    refine .bind (ends.weaken ?_ fun _ _ failed => failed.1)
    rintro found after ⟨unchanged, -⟩
    exact ⟨cells, unchanged.holds holds, fun writes => (by cases writes),
      fun _ => unchanged.contents⟩
  | save =>
    refine holds.save.weaken ?_ ?_
    · intro _ after saved
      exact ⟨cells, saved.holds, fun _ => saved.stored, fun silent => by cases silent⟩
    · rintro fault after ⟨rfl, -⟩
      exact .refl after
  | clear =>
    have run := clear_eq holds.limited
    show Ends table Table.clear _ _
    rw [Ends, run]
    exact ⟨[], holds_fresh holds.limited, fun _ => stored_fresh _,
      fun silent => by cases silent⟩

/-! ## Runs -/

/-- A table in a state that a run reaches from an empty file, with the table as it was right after
the last save or clear that succeeded, or at the beginning if there was none. -/
inductive Reached : Table → Table → Prop where
  | created {limit : UInt32} {opened : Opened} :
      limit ≠ 0 → limit.toNat ≤ largestLimit → ofContents [] limit = .ok opened →
      Reached opened.table opened.table
  | answered {table written after : Table} {request : Request} :
      Reached table written → request.Ordinary → request.writes = false →
      request.perform table = .ok () after → Reached after written
  | written {table written after : Table} {request : Request} :
      Reached table written → request.Ordinary → request.writes = true →
      request.perform table = .ok () after → Reached after after
  | refused {table written after : Table} {request : Request} {fault : Fault} :
      Reached table written → request.Ordinary → request.perform table = .error fault after →
      Reached after written
  | reopened {table written : Table} {limit : UInt32} {opened : Opened} :
      Reached table written → limit ≠ 0 → limit.toNat ≤ largestLimit →
      ofContents table.store.contents limit = .ok opened → Reached opened.table written

/-- The table is in order on no more pages than a file can have, and so is the table that the file
holds. -/
structure HeldWith (table : Table) (cells : List (Key × Bytes)) (written : Table)
    (kept : List (Key × Bytes)) : Prop where
  holds : table.Holds cells
  bounded : table.store.Bounded largestLimit
  pages : written.store.pagesInUse ≤ largestLimit
  keeps : written.Holds kept
  stored : Stored table.store.contents written kept

theorem HeldWith.small {table written : Table} {cells kept : List (Key × Bytes)}
    (held : HeldWith table cells written kept) :
    table.store.contents.length < UInt32.size :=
  length_contents_lt held.holds.tree.regular held.bounded.pages

/-- **In every state of a run, the table is in order and the file holds the table that was
written last.** -/
theorem Reached.held {table written : Table} (reached : Reached table written) :
    ∃ cells kept, HeldWith table cells written kept := by
  have keeps : ∀ request : Request,
      Preserves (fun _ => True) (Within (Store.Bounded largestLimit)) request.perform :=
    fun request => request.perform_toCall ▸ bounded_perform largestLimit request.toCall
  induction reached with
  | created positive within opens =>
    cases (ofContents_empty positive).symm.trans opens
    have holds := holds_fresh positive
    have one : 1 ≤ largestLimit := by decide
    exact ⟨[], [], holds, ⟨one, within⟩, one, holds, stored_fresh _⟩
  | answered reached ordinary silent run ih =>
    obtain ⟨cells, kept, held⟩ := ih
    obtain ⟨cells', holds', -, same⟩ := (held.holds.perform ordinary).of_ok run
    exact ⟨cells', kept, holds', (keeps _ _ held.bounded).of_ok run, held.pages, held.keeps,
      (same silent).symm ▸ held.stored⟩
  | written reached ordinary writes run ih =>
    obtain ⟨cells, kept, held⟩ := ih
    obtain ⟨cells', holds', stored, -⟩ := (held.holds.perform ordinary).of_ok run
    have bounded := (keeps _ _ held.bounded).of_ok run
    exact ⟨cells', cells', holds', bounded, bounded.pages, holds', stored writes⟩
  | refused reached ordinary fails ih =>
    obtain ⟨cells, kept, held⟩ := ih
    have unchanged := (held.holds.perform ordinary).of_error fails
    exact ⟨cells, kept, unchanged.holds held.holds, ((keeps _ _ held.bounded).of_error fails).1,
      held.pages, held.keeps, unchanged.contents.symm ▸ held.stored⟩
  | reopened reached positive within opens ih =>
    obtain ⟨cells, kept, held⟩ := ih
    obtain ⟨opened, run, -, same, holds', contents⟩ := held.stored held.small _ positive
    have isLimit := (same_of_ofContents opens).2
    cases run.symm.trans opens
    have bounded := Store.Bounded.mk (same.nodes.pages.symm ▸ held.pages) (isLimit.symm ▸ within)
    exact ⟨kept, kept, holds', bounded, held.pages, held.keeps, contents.symm ▸ held.stored⟩

/-- A table with one column and one row, which are saved. -/
def savedTable : Table where
  schema := { columns := [Column.integers [105, 100]] }
  store := {
    disk := #[Page.ofBytes ([1, 0, 0, 0] ++ (Column.integers [105, 100]).toBytes),
      Page.ofBytes (Leaf.toBytes { rootMark := true, keys := [5], values := [[5, 0, 0, 0]] })]
    slots := #[some (.leaf { rootMark := true, keys := [5], values := [[5, 0, 0, 0]] })]
    limit := 1
    fileSize := 8192 }
  tree := { root := 0 }

/-- The same with one more row, which is not saved. -/
def longerTable : Table where
  schema := savedTable.schema
  store := { savedTable.store with
    slots := #[some (.leaf { rootMark := true, keys := [5, 6],
                             values := [[5, 0, 0, 0], [6, 0, 0, 0]] })] }
  tree := savedTable.tree

theorem ordinary_insert (words : List Bytes) : (Request.insert words).Ordinary := trivial

theorem reached_saved : Reached savedTable savedTable := by
  have ordinary : (Request.extendSchema [Column.integers [105, 100]]).Ordinary := by
    intro column member
    rw [List.mem_singleton.mp member]
    exact fun _ => rfl
  have saves : Request.save.Ordinary := trivial
  have created : Reached (fresh 1) (fresh 1) :=
    .created (by decide) (by decide)
      (rfl : ofContents [] 1 = .ok { table := fresh 1, unmarkedRoot := none })
  have defined := created.answered ordinary rfl rfl
  have inserted := defined.answered (ordinary_insert [[53]]) rfl rfl
  exact inserted.written saves rfl rfl

theorem reached_longer : Reached longerTable savedTable :=
  reached_saved.answered (ordinary_insert [[54]]) rfl rfl

/-- The file gives the table back that was written last, and only what is made to write changes the
file.

Opening the file finds the schema, the root, the pages, the nodes and the rows, and there are rows
to find as soon as there is a column. A request that is not made to write keeps the file as it is,
and so does every request that fails. -/
structure IsDurable (table written : Table) : Prop where
  reopens : ∀ limit : UInt32, limit ≠ 0 → ∃ opened,
    ofContents table.store.contents limit = .ok opened ∧ opened.unmarkedRoot = none ∧
    written.Matches opened.table ∧ answer rows opened.table = answer rows written ∧
    opened.table.store.contents = table.store.contents
  answers : written.schema.hasColumns = true → ∃ found, answer rows written = .ok found
  keeps : ∀ (request : Request) (after : Table), request.Ordinary → request.writes = false →
    request.perform table = .ok () after → after.store.contents = table.store.contents
  refuses : ∀ (request : Request) (fault : Fault) (after : Table), request.Ordinary →
    request.perform table = .error fault after → after.store.contents = table.store.contents

/-- **Whenever the file of a table is opened, the table is there as it was saved or cleared
last.** A run begins with a table without a column, whose only page is a leaf without a cell. -/
theorem durable :
    (∀ limit : UInt32, limit ≠ 0 →
      ofContents [] limit = .ok { table := fresh limit, unmarkedRoot := none }) ∧
    ∀ table written : Table, Reached table written → IsDurable table written := by
  refine ⟨fun limit positive => ofContents_empty positive, fun table written reached => ?_⟩
  obtain ⟨cells, kept, held⟩ := reached.held
  refine ⟨?_, ?_, ?_, ?_⟩
  · intro limit positive
    obtain ⟨opened, opens, marked, same, holds', contents⟩ :=
      held.stored held.small limit positive
    exact ⟨opened, opens, marked, same, answer_rows_congr held.keeps holds' same.schema, contents⟩
  · intro defined
    obtain ⟨ordered, -, -, ⟨found, reads⟩, answers⟩ := held.keeps.answer_rows
    refine ⟨found, ?_⟩
    rw [answers, if_pos defined, reads]
  · intro request after ordinary silent run
    obtain ⟨-, -, -, same⟩ := (held.holds.perform ordinary).of_ok run
    exact same silent
  · intro request fault after ordinary fails
    exact ((held.holds.perform ordinary).of_error fails).contents

theorem durable_unsaved_row : IsDurable longerTable savedTable ∧
    answer rows savedTable = .ok [[.integer 5]] ∧
    answer rows longerTable = .ok [[.integer 5], [.integer 6]] :=
  ⟨durable.2 longerTable savedTable reached_longer, rfl, rfl⟩

end Table

end RowStore
