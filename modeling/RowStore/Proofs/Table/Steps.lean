import RowStore.Proofs.Schema.RoundTrip
import RowStore.Proofs.Tree.Runs
import RowStore.Table

/-!
# What the operations do to a table

`Table.Keeps table cells` says that a table is in order: its tree stands in its store
and holds the given cells, each cell is a row of its schema under the key of that row,
and the schema can be written and read back. There is one lemma for each operation
that says how it ends on such a table. `Table.Holds` asks in addition that the table may
use a page, without which it could not be cleared.

An operation that fails leaves the table as it was, except for nodes that came into
memory (`Table.Unchanged`), and its fault tells why (`Table.ColumnsRefused`,
`Table.RowRefused`). None of the operations here writes to the file.
-/

set_option autoImplicit false

namespace RowStore

open Store

namespace Table

/-! ## How an operation ends -/

section Ends

variable {α : Type} {table : Table} {done : α → Table → Prop} {failed : Fault → Table → Prop}

theorem ends_lift {result : Except Fault α} (ofOk : ∀ value, result = .ok value → done value table)
    (ofError : ∀ fault, result = .error fault → failed fault table) :
    Ends table (Table.lift result) done failed := by
  cases result with
  | ok value => exact ofOk value rfl
  | error fault => exact ofError fault rfl

theorem ends_onStore {action : StoreM α} {found : α → View → Prop} {missing : Fault → View → Prop}
    (promise : Promises table.store.view action found missing)
    (ofDone : ∀ value store, found value store.view → done value { table with store })
    (ofFailed : ∀ fault store, missing fault store.view → failed fault { table with store }) :
    Ends table (Table.onStore action) done failed := by
  have ends := promise table.store rfl
  apply Ends.intro
  · intro value after run
    unfold Table.onStore at run
    split at run
    next found store result =>
      cases run
      exact ofDone value store (ends.of_ok result)
    next => cases run
  · intro fault after run
    unfold Table.onStore at run
    split at run
    next => cases run
    next missing store result =>
      cases run
      exact ofFailed fault store (ends.of_error result)

end Ends

/-! ## Keys -/

/-- The key of a row does not depend on padding. -/
theorem keyOf_unpadded {row : Row} {key : Key} (keyed : keyOf row = .ok key) :
    keyOf (row.map Value.unpadded) = .ok key := by
  unfold keyOf at keyed
  split at keyed
  · exact keyed
  · cases keyed

theorem eq_keyNotInteger_of_keyOf {row : Row} {fault : Fault} (refused : keyOf row = .error fault) :
    fault = .keyNotInteger := by
  unfold keyOf at refused
  split at refused
  · cases refused
  · cases refused
    rfl

/-! ## Tables in order -/

/-- The table is in order and its rows are the given cells. -/
structure Holds (table : Table) (cells : List (Key × Bytes)) : Prop where
  ordinary : table.schema.Ordinary
  limited : table.store.limit ≠ 0
  tree : table.tree.Holds table.store.view cells
  readable : ∀ cell ∈ cells, ∃ row,
    table.schema.rowOfBytes cell.2 = .ok row ∧ keyOf row = .ok cell.1

/-- The table is in order and its rows are the given cells, whatever its limit is. -/
structure Keeps (table : Table) (cells : List (Key × Bytes)) : Prop where
  ordinary : table.schema.Ordinary
  tree : table.tree.Holds table.store.view cells
  readable : ∀ cell ∈ cells, ∃ row,
    table.schema.rowOfBytes cell.2 = .ok row ∧ keyOf row = .ok cell.1

theorem Holds.keeps {table : Table} {cells : List (Key × Bytes)} (holds : table.Holds cells) :
    table.Keeps cells :=
  ⟨holds.ordinary, holds.tree, holds.readable⟩

theorem Keeps.holds {table : Table} {cells : List (Key × Bytes)} (keeps : table.Keeps cells)
    (limited : table.store.limit ≠ 0) : table.Holds cells :=
  ⟨keeps.ordinary, limited, keeps.tree, keeps.readable⟩

/-- The other table differs at most in what is in memory. -/
structure Unchanged (table other : Table) : Prop where
  schema : other.schema = table.schema
  tree : other.tree = table.tree
  view : other.store.view = table.store.view

theorem contents_congr {table other : Table} (disk : other.store.disk = table.store.disk) :
    other.store.contents = table.store.contents := by
  rw [Store.contents, disk, ← Store.contents]

namespace Unchanged

variable {table other : Table} {cells : List (Key × Bytes)}

theorem refl (table : Table) : table.Unchanged table := ⟨rfl, rfl, rfl⟩

theorem trans {third : Table} (first : table.Unchanged other)
    (second : other.Unchanged third) : table.Unchanged third :=
  ⟨second.schema.trans first.schema, second.tree.trans first.tree,
    second.view.trans first.view⟩

theorem contents (same : table.Unchanged other) :
    other.store.contents = table.store.contents :=
  contents_congr (congrArg View.disk same.view)

theorem limit (same : table.Unchanged other) : other.store.limit = table.store.limit :=
  congrArg View.limit same.view

theorem keeps (same : table.Unchanged other) (keeps : table.Keeps cells) : other.Keeps cells := by
  refine ⟨?_, ?_, ?_⟩
  · rw [same.schema]
    exact keeps.ordinary
  · rw [same.tree, same.view]
    exact keeps.tree
  · rw [same.schema]
    exact keeps.readable

theorem holds (same : table.Unchanged other) (holds : table.Holds cells) : other.Holds cells :=
  (same.keeps holds.keeps).holds (same.limit ▸ holds.limited)

end Unchanged

/-! ## Asking -/

/-- A reader that takes every cell takes all of them. -/
theorem exists_mapM_of_forall {fault α β : Type} {read : α → Except fault β} {values : List α}
    (readable : ∀ value ∈ values, ∃ result, read value = .ok result) :
    ∃ results, values.mapM read = .ok results := by
  induction values with
  | nil => exact ⟨[], rfl⟩
  | cons value values ih =>
    obtain ⟨result, first⟩ := readable value List.mem_cons_self
    obtain ⟨results, others⟩ := ih fun other member =>
      readable other (List.mem_cons_of_mem _ member)
    refine ⟨result :: results, ?_⟩
    rw [List.mapM_cons, first, others]
    rfl

/-- The rows of cells under a schema. -/
def rowsOf (schema : Schema) (cells : List (Key × Bytes)) : Except Fault (List Row) :=
  cells.mapM fun cell => (schema.rowOfBytes cell.2).mapError Fault.row

theorem eq_ok_of_mapError {fault fault' α : Type} {convert : fault → fault'}
    {result : Except fault α} {value : α} (converted : result.mapError convert = .ok value) :
    result = .ok value := by
  cases result with
  | error fault => cases converted
  | ok other =>
    cases converted
    rfl

theorem exists_of_mapError {fault fault' α : Type} {convert : fault → fault'}
    {result : Except fault α} {refused : fault'} (converted : result.mapError convert =
    .error refused) : ∃ cause, result = .error cause ∧ convert cause = refused := by
  cases result with
  | error cause =>
    cases converted
    exact ⟨cause, rfl, rfl⟩
  | ok value => cases converted

/-! ## Why an operation fails -/

/-- A fault with which columns are refused. -/
inductive ColumnsRefused (schema : Schema) (cells : List (Key × Bytes)) (columns : List Column) :
    Fault → Prop where
  | rowsStored : cells ≠ [] → ColumnsRefused schema cells columns (.schema .rowsStored)
  | tooWide {defect : SchemaDefect} : schema.pushAll columns = .error defect →
      ColumnsRefused schema cells columns (.schema defect)

/-- A fault with which a row is refused. -/
inductive RowRefused (schema : Schema) (words : List Bytes) : Fault → Prop where
  | undefined : schema.hasColumns = false → RowRefused schema words .schemaUndefined
  | words {defect : RowDefect} : schema.rowOfWords words = .error defect →
      RowRefused schema words (.row defect)
  | key {row : Row} : schema.rowOfWords words = .ok row → keyOf row = .error .keyNotInteger →
      RowRefused schema words .keyNotInteger
  | values {row : Row} {defect : RowDefect} : schema.rowOfWords words = .ok row →
      schema.rowToBytes row = .error defect → RowRefused schema words (.row defect)
  | tree {row : Row} {key : Key} {fault : Fault} : schema.rowOfWords words = .ok row →
      keyOf row = .ok key → Refusal key fault → RowRefused schema words fault

section Operations

variable {table : Table} {cells : List (Key × Bytes)} (keeps : table.Keeps cells)
include keeps

/-- **Asking for the rows gives the rows of all cells in the order of their keys**, as soon as
there is a column. -/
theorem Keeps.rows : ∃ ordered : List (Key × Bytes), ordered.Perm cells ∧
    ordered.Pairwise (fun first second => first.1 < second.1) ∧
    (∃ rows, rowsOf table.schema ordered = .ok rows) ∧
    Ends table Table.rows
      (fun found after => table.Unchanged after ∧ table.schema.hasColumns = true ∧
        rowsOf table.schema ordered = .ok found)
      (fun fault after => table.Unchanged after ∧ table.schema.hasColumns = false ∧
        fault = .schemaUndefined) := by
  obtain ⟨ordered, same, ascending, collect⟩ := keeps.tree.collect
  have readable : ∃ rows, rowsOf table.schema ordered = .ok rows := by
    apply exists_mapM_of_forall
    intro cell member
    obtain ⟨row, reads, -⟩ := keeps.readable cell (same.mem_iff.mp member)
    exact ⟨row, by rw [reads]; rfl⟩
  refine ⟨ordered, same, ascending, readable, ?_⟩
  apply Ends.bind
  show Ends table (if table.schema.hasColumns = true then _ else _) _ _
  split
  next defined =>
    apply ends_onStore (collect Row fun _ bytes => (table.schema.rowOfBytes bytes).mapError _)
    · intro found store read
      exact ⟨⟨rfl, rfl, read.1⟩, defined, read.2⟩
    · intro fault store refused
      obtain ⟨rows, reads⟩ := readable
      cases reads.symm.trans refused.2
  next undefined =>
    exact ⟨.refl table, Bool.eq_false_iff.mpr undefined, rfl⟩

/-- What asking for the rows answers. -/
theorem Keeps.answer_rows : ∃ ordered : List (Key × Bytes), ordered.Perm cells ∧
    ordered.Pairwise (fun first second => first.1 < second.1) ∧
    (∃ rows, rowsOf table.schema ordered = .ok rows) ∧
    answer Table.rows table =
      if table.schema.hasColumns then rowsOf table.schema ordered else .error .schemaUndefined := by
  obtain ⟨ordered, same, ascending, readable, ends⟩ := keeps.rows
  refine ⟨ordered, same, ascending, readable, (ends.weaken ?_ ?_).answer_eq⟩
  · rintro found after ⟨-, defined, reads⟩
    rw [if_pos defined, reads]
  · rintro fault after ⟨-, undefined, rfl⟩
    rw [if_neg (Bool.eq_false_iff.mp undefined)]

/-! ## Adding -/

/-- Columns are added while there is no row, whatever they are. -/
theorem Keeps.extendSchema_cases (columns : List Column) :
    Ends table (extendSchema columns)
      (fun _ after => cells = [] ∧ after.schema.columns = table.schema.columns ++ columns ∧
        after.tree = table.tree ∧ after.store.view = table.store.view)
      (fun fault after => table.Unchanged after ∧
        ColumnsRefused table.schema cells columns fault) := by
  apply Ends.bind
  show Ends table _ _ _
  refine .bind (ends_onStore keeps.tree.isEmpty ?_ fun _ _ never => never.elim)
  rintro empty store ⟨same, isNil⟩
  cases empty with
  | false => exact ⟨⟨rfl, rfl, same⟩, .rowsStored fun none => absurd (isNil.mpr none) nofun⟩
  | true =>
    refine .bind (ends_lift (fun schema converted => ?_) fun fault refused => ?_)
    · have added := Schema.columns_of_pushAll (eq_ok_of_mapError converted)
      exact ⟨isNil.mp rfl, added, rfl, same⟩
    · obtain ⟨defect, wide, rfl⟩ := exists_of_mapError refused
      exact ⟨⟨rfl, rfl, same⟩, .tooWide wide⟩

/-- A table stays in order when columns are added that the format allows. -/
theorem Keeps.extendSchema {columns : List Column}
    (ordinary : ∀ column ∈ columns, column.Ordinary) :
    Ends table (extendSchema columns)
      (fun _ after => cells = [] ∧ after.schema.columns = table.schema.columns ++ columns ∧
        after.Keeps cells ∧ after.store.view = table.store.view)
      (fun fault after => table.Unchanged after ∧
        ColumnsRefused table.schema cells columns fault) := by
  refine (keeps.extendSchema_cases columns).weaken ?_ fun _ _ refused => refused
  rintro _ after ⟨rfl, added, tree, same⟩
  refine ⟨rfl, added, ⟨?_, ?_, fun _ member => absurd member List.not_mem_nil⟩, same⟩
  · intro column member
    rw [added] at member
    rcases List.mem_append.mp member with old | new
    · exact keeps.ordinary column old
    · exact ordinary column new
  · rw [tree, same]
    exact keeps.tree

/-- **A row is inserted under its key, or is refused and nothing changes.** -/
theorem Keeps.insert (words : List Bytes) :
    Ends table (Table.insert words)
      (fun _ after => ∃ row key bytes, table.schema.rowOfWords words = .ok row ∧
        keyOf row = .ok key ∧ table.schema.rowToBytes row = .ok bytes ∧
        key ∉ cells.map Prod.fst ∧ after.schema = table.schema ∧
        after.Keeps ((key, bytes) :: cells) ∧ table.store.view.Grew after.store.view)
      (fun fault after => table.Unchanged after ∧ RowRefused table.schema words fault) := by
  apply Ends.bind
  show Ends table (if table.schema.hasColumns = true then _ else _) _ _
  split
  next defined =>
    refine .bind (ends_lift (fun row parsed => ?_) fun fault refused => ?_)
    case refine_2 =>
      obtain ⟨defect, misread, rfl⟩ := exists_of_mapError refused
      exact ⟨.refl table, .words misread⟩
    have parsed := eq_ok_of_mapError parsed
    refine .bind (ends_lift (fun key keyed => ?_) fun fault refused => ?_)
    case refine_2 =>
      cases eq_keyNotInteger_of_keyOf refused
      exact ⟨.refl table, .key parsed refused⟩
    refine .bind (ends_lift (fun bytes written => ?_) fun fault refused => ?_)
    case refine_2 =>
      obtain ⟨defect, unwritten, rfl⟩ := exists_of_mapError refused
      exact ⟨.refl table, .values parsed unwritten⟩
    have written := eq_ok_of_mapError written
    refine .bind (ends_onStore (keeps.tree.insert key bytes) ?_ ?_)
    · rintro tree store ⟨grew, short, new, standing⟩
      have reads := Schema.rowOfBytes_of_rowToBytes keeps.ordinary written
      refine ⟨row, key, bytes, parsed, keyed, written, new, rfl,
        ⟨keeps.ordinary, standing, ?_⟩, grew⟩
      intro cell member
      rcases List.mem_cons.mp member with rfl | old
      · exact ⟨_, reads.2, keyOf_unpadded keyed⟩
      · exact keeps.readable cell old
    · rintro fault store ⟨same, refusal, -⟩
      exact ⟨⟨rfl, rfl, same⟩, .tree parsed keyed refusal⟩
  next undefined => exact ⟨.refl table, .undefined (Bool.eq_false_iff.mpr undefined)⟩

end Operations

/-! ## With room for a page -/

section Limited

variable {table : Table} {cells : List (Key × Bytes)} (holds : table.Holds cells)
include holds

theorem Holds.answer_rows : ∃ ordered : List (Key × Bytes), ordered.Perm cells ∧
    ordered.Pairwise (fun first second => first.1 < second.1) ∧
    (∃ rows, rowsOf table.schema ordered = .ok rows) ∧
    answer Table.rows table =
      if table.schema.hasColumns then rowsOf table.schema ordered else .error .schemaUndefined :=
  holds.keeps.answer_rows

theorem Holds.extendSchema {columns : List Column}
    (ordinary : ∀ column ∈ columns, column.Ordinary) :
    Ends table (Table.extendSchema columns)
      (fun _ after => cells = [] ∧ after.schema.columns = table.schema.columns ++ columns ∧
        after.Holds cells ∧ after.store.contents = table.store.contents)
      (fun fault after => table.Unchanged after ∧
        ColumnsRefused table.schema cells columns fault) := by
  refine (holds.keeps.extendSchema ordinary).weaken ?_ fun _ _ failed => failed
  rintro _ after ⟨none, added, keeps, same⟩
  have limit : after.store.limit = table.store.limit := congrArg View.limit same
  exact ⟨none, added, keeps.holds (limit ▸ holds.limited),
    contents_congr (congrArg View.disk same)⟩

theorem Holds.insert (words : List Bytes) :
    Ends table (Table.insert words)
      (fun _ after => ∃ row key bytes, table.schema.rowOfWords words = .ok row ∧
        keyOf row = .ok key ∧ table.schema.rowToBytes row = .ok bytes ∧
        after.schema = table.schema ∧ after.Holds ((key, bytes) :: cells) ∧
        after.store.contents = table.store.contents)
      (fun fault after => table.Unchanged after ∧ RowRefused table.schema words fault) := by
  refine (holds.keeps.insert words).weaken ?_ fun _ _ failed => failed
  rintro _ after ⟨row, key, bytes, parsed, keyed, written, -, schema, keeps, grew⟩
  have limit : after.store.limit = table.store.limit := grew.limit
  exact ⟨row, key, bytes, parsed, keyed, written, schema, keeps.holds (limit ▸ holds.limited),
    contents_congr grew.disk⟩

end Limited

end Table

end RowStore
