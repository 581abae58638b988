import RowStore.Proofs.Table.Resaving

/-!
# Rows fix the schema

Before columns are added, a table looks at the page of its root only: it must be a leaf
without a cell. In every state of a run that is as good as reading all rows, so columns are
added exactly if a scan shows no row and the rows to come would fit a page with them
(`Table.Evolved.fixesSchema`). A table without a page is the exception: it has no row, but
adding columns stops where its root cannot be read.

From the first row on, the schema stays as it is until the table is cleared, whatever else
is asked of it, and also in the tables that are opened on its file once it was saved with
the row (`Table.Since`). One call keeps both the schema and a row (`Table.Fixed.perform`),
and so does opening the file, if its size fits a word; the rest is induction.
-/

set_option autoImplicit false

namespace RowStore

open Store

namespace Table

/-! ## Adding columns -/

section Keeps

variable {table : Table} {cells : List (Key × Bytes)} (keeps : table.Keeps cells)
include keeps

/-- A scan shows no cell exactly if there is none. -/
theorem Keeps.answer_cells_eq_nil_iff :
    answer table.tree.cells table.store = .ok [] ↔ cells = [] := by
  obtain ⟨ordered, same, -, collect⟩ := keeps.tree.collect
  have all : ordered.mapM (fun cell => (.ok (cell.1, cell.2) : Except Fault (Key × Bytes))) =
      .ok ordered := by
    show ordered.mapM (fun cell => pure (id cell)) = _
    rw [List.mapM_pure, List.map_id]
    rfl
  have shown : answer table.tree.cells table.store = .ok ordered := by
    refine (Promises.weaken (collect _ fun key value => .ok (key, value)) ?_ ?_).answer_eq
    · rintro values after ⟨-, found⟩
      exact all.symm.trans found
    · rintro fault after ⟨-, found⟩
      exact all.symm.trans found
  rw [shown]
  constructor
  · intro none
    cases none
    exact same.symm.eq_nil
  · rintro rfl
    rw [same.eq_nil]

/-- Columns are added if there is no row and the rows to come fit a page with them. -/
theorem Keeps.extends_iff (columns : List Column) :
    (∃ after, Table.extendSchema columns table = .ok () after) ↔
      answer table.tree.cells table.store = .ok [] ∧
        table.schema.rowWidth + Column.totalWidth columns ≤ maxValueLength := by
  have ends := keeps.extendSchema_cases columns
  rw [keeps.answer_cells_eq_nil_iff, ← Schema.exists_pushAll_iff]
  constructor
  · rintro ⟨after, run⟩
    obtain ⟨none, added, -⟩ := ends.of_ok run
    exact ⟨none, after.schema, Schema.pushAll_eq_ok_iff.mpr added⟩
  · rintro ⟨none, more, fits⟩
    cases run : Table.extendSchema columns table with
    | ok _ after => exact ⟨after, rfl⟩
    | error fault after =>
      obtain ⟨-, refused⟩ := ends.of_error run
      cases refused with
      | rowsStored some => exact absurd none some
      | tooWide wide => cases fits.symm.trans wide

end Keeps

/-- Without a page, a scan has no leaf to begin with. -/
theorem Stranded.answer_cells_ne_ok {table : Table} (stranded : Stranded table)
    (cells : List (Key × Bytes)) : answer table.tree.cells table.store ≠ .ok cells := by
  have stops : Promises table.store.view table.tree.cells (fun _ _ => False)
      fun _ _ => True := by
    refine .bind (.bind (.countPages ?_))
    rw [stranded.unused]
    exact .throw trivial
  intro shown
  exact stops.of_ok (run_of_answer shown)

/-! ## From the first row on -/

/-- The table has the given schema, and a row. -/
def Rowed (schema : Schema) (table : Table) : Prop :=
  table.schema = schema ∧ ∃ cells, table.Keeps cells ∧ cells ≠ []

/-- The table has the given schema and a row, and once it was saved so, this is what is found in its
file. -/
structure Fixed (schema : Schema) (saved : Bool) (table : Table) : Prop where
  rowed : Rowed schema table
  filed : saved = true → table.store.contents.length < UInt32.size → ∀ limit opened,
    ofContents table.store.contents limit = .ok opened → Rowed schema opened.table

/-- What a table has become by calls other than clearing it and by opening its file. The file is
only opened after the table was saved, which is what the flag says, and only if it has fewer than
`2 ^ 32` bytes. -/
inductive Since (first : Table) : Bool → Table → Prop where
  | start : Since first false first
  | called {saved : Bool} {table : Table} (call : Call) :
      Since first saved table → call.Ordinary → call ≠ .clear →
      Since first saved (leftBy call.perform table)
  | saved {saved : Bool} {table after : Table} :
      Since first saved table → save table = .ok () after → Since first true after
  | reopened {table : Table} {limit : UInt32} {opened : Opened} :
      Since first true table → table.store.contents.length < UInt32.size →
      ofContents table.store.contents limit = .ok opened →
      Since first true opened.table

namespace Fixed

variable {schema : Schema} {saved : Bool} {table : Table} (fixed : Fixed schema saved table)
include fixed

theorem of_unchanged {after : Table} (same : table.Unchanged after) : Fixed schema saved after := by
  obtain ⟨⟨isSchema, cells, keeps, some⟩, filed⟩ := fixed
  refine ⟨⟨same.schema.trans isSchema, cells, same.keeps keeps, some⟩, ?_⟩
  rw [same.contents]
  exact filed

/-- A save writes the schema and the row. -/
theorem of_save {after : Table} (saves : save table = .ok () after) : Fixed schema true after := by
  obtain ⟨⟨isSchema, cells, keeps, some⟩, -⟩ := fixed
  obtain ⟨-, same, keeps', -, found⟩ := keeps.save.of_ok saves
  have isSchema' := same.schema.trans isSchema
  refine ⟨⟨isSchema', cells, keeps', some⟩, fun _ few limit opened opens => ?_⟩
  obtain ⟨opened', opens', -, same', keeps'', -⟩ := found limit few
  cases opens.symm.trans opens'
  exact ⟨same'.schema.trans isSchema', cells, keeps'', some⟩

/-- **No call but clearing changes the schema of a table with a row**, or takes the row away. -/
theorem perform {call : Call} (ordinary : call.Ordinary) (kept : call ≠ .clear) :
    Fixed schema saved (leftBy call.perform table) := by
  have looking : call.reads = true → Fixed schema saved (leftBy call.perform table) :=
    fun looks => fixed.of_unchanged (Call.unchanged_of_reads looks table)
  obtain ⟨isSchema, cells, keeps, some⟩ := fixed.rowed
  cases call with
  | extendSchema columns =>
    refine ((keeps.extendSchema_cases columns).weaken ?_ ?_).leftBy
    · rintro _ after ⟨none, -⟩
      exact absurd none some
    · exact fun _ _ refused => fixed.of_unchanged refused.1
  | insert words =>
    refine ((keeps.insert words).weaken ?_ ?_).leftBy
    · rintro _ after ⟨row, key, bytes, -, -, -, -, same, keeps', grew⟩
      refine ⟨⟨same.trans isSchema, _, keeps', List.cons_ne_nil _ _⟩, ?_⟩
      rw [contents_congr grew.disk]
      exact fixed.filed
    · exact fun _ _ refused => fixed.of_unchanged refused.1
  | save =>
    refine Ends.leftBy (.intro ?_ ?_)
    · intro _ after saves
      have written := fixed.of_save saves
      exact ⟨written.rowed, fun _ => written.filed rfl⟩
    · intro fault after refused
      rw [(keeps.save.of_error refused).1]
      exact fixed
  | clear => exact absurd rfl kept
  -- For the other calls, being ordinary is to look only.
  | _ => exact looking ordinary

end Fixed

/-- A row that was inserted, and all that happened since, left the schema alone. -/
theorem Since.fixed {schema : Schema} {first table : Table} {saved : Bool}
    (since : Since first saved table) (fixed : Fixed schema false first) :
    Fixed schema saved table := by
  induction since with
  | start => exact fixed
  | called call _ ordinary kept ih => exact ih.perform ordinary kept
  | saved _ saves ih => exact ih.of_save saves
  | reopened _ few opens ih =>
    refine ⟨ih.filed rfl few _ _ opens, fun _ => ?_⟩
    rw [contents_congr (disk_of_reopened opens)]
    exact ih.filed rfl

/-- An insertion that succeeds leaves a row. -/
theorem Standing.fixed_of_insert {table after : Table} (standing : Standing table)
    {words : List Bytes} (inserts : Table.insert words table = .ok () after) :
    Fixed table.schema false after := by
  cases standing with
  | keeps keeps =>
    obtain ⟨row, key, bytes, -, -, -, -, same, keeps', -⟩ := (keeps.insert words).of_ok inserts
    exact ⟨⟨same, _, keeps', List.cons_ne_nil _ _⟩, fun never => by cases never⟩
  | stranded stranded => cases (stranded.insert words).symm.trans inserts

/-! ## In every state of a run -/

/-- The schema of the table grows while there is no row, and not afterwards. Columns are added
exactly if a scan shows no row and the rows to come fit a page, and then they stand at the end.
Columns that are refused leave the schema as it is, which is a fault of the schema unless the table
has no page where its root could be. The rows fit a page, and from a row on the schema stays until
the table is cleared. -/
structure FixesSchema (table : Table) : Prop where
  extends_iff : ∀ columns, (∃ after, extendSchema columns table = .ok () after) ↔
    answer table.tree.cells table.store = .ok [] ∧
      table.schema.rowWidth + Column.totalWidth columns ≤ maxValueLength
  extended : ∀ columns after, extendSchema columns table = .ok () after →
    after.schema.columns = table.schema.columns ++ columns
  refused : ∀ columns fault after, extendSchema columns table = .error fault after →
    after.schema = table.schema ∧
      if table.store.pagesInUse = 0 then fault = .unreadable table.tree.root .page
      else ∃ defect, fault = .schema defect
  bounded : table.schema.rowWidth ≤ maxValueLength
  fixed : ∀ words first, insert words table = .ok () first → ∀ saved later,
    Since first saved later → later.schema = table.schema

/-- **Rows fix the schema**, in every state of a run. -/
theorem Evolved.fixesSchema {table : Table} (evolved : Evolved table) : FixesSchema table := by
  have standing := evolved.sound.standing
  refine ⟨?_, ?_, ?_, table.schema.totalWidth_le, ?_⟩
  · intro columns
    cases standing with
    | keeps keeps => exact keeps.extends_iff columns
    | stranded stranded =>
      refine iff_of_false ?_ ?_
      · rintro ⟨after, run⟩
        exact (stranded.extendSchema columns).of_ok run
      · rintro ⟨empty, -⟩
        exact stranded.answer_cells_ne_ok [] empty
  · intro columns after run
    cases standing with
    | keeps keeps => exact ((keeps.extendSchema_cases columns).of_ok run).2.1
    | stranded stranded => exact ((stranded.extendSchema columns).of_ok run).elim
  · intro columns fault after run
    cases standing with
    | keeps keeps =>
      obtain ⟨same, refused⟩ := (keeps.extendSchema_cases columns).of_error run
      have used : table.store.pagesInUse ≠ 0 := Nat.ne_of_gt keeps.tree.pos
      rw [if_neg used]
      refine ⟨same.schema, ?_⟩
      cases refused with
      | rowsStored => exact ⟨_, rfl⟩
      | tooWide => exact ⟨_, rfl⟩
    | stranded stranded =>
      obtain ⟨same, missing⟩ := (stranded.extendSchema columns).of_error run
      have unused : table.store.pagesInUse = 0 := stranded.unused
      rw [if_pos unused]
      exact ⟨same.schema, missing⟩
  · intro words first inserts saved later since
    exact (since.fixed (standing.fixed_of_insert inserts)).rowed.1

/-- A new table with a column of integers. -/
def keyedTable : Table := { fresh 1 with schema := savedTable.schema }

/-- The same with the row of the saved table. -/
def rowTable : Table := leftBy (insert [[53]]) keyedTable

theorem evolved_keyedTable : Evolved keyedTable := by
  have ordinary : (Call.extendSchema [Column.integers [105, 100]]).Ordinary := by
    intro column member
    rw [List.mem_singleton.mp member]
    exact fun _ => rfl
  exact (evolved_fresh (by decide : (1 : UInt32) ≠ 0)).called _ ordinary

/-- The row is inserted and saved, and the file is opened with a limit of zero. Columns are refused
then, and the schema is the one of the row. -/
theorem fixesSchema_saved :
    insert [[53]] keyedTable = .ok () rowTable ∧ save rowTable = .ok () savedTable ∧
      ∃ opened, ofContents savedTable.store.contents 0 = .ok opened ∧
        (leftBy (Call.extendSchema [Column.texts [110] 2]).perform opened.table).schema =
          keyedTable.schema := by
  have texts : (Call.extendSchema [Column.texts [110] 2]).Ordinary := by
    intro column member
    rw [List.mem_singleton.mp member]
    exact fun never => by cases never
  have fixes : FixesSchema keyedTable := evolved_keyedTable.fixesSchema
  have inserts : insert [[53]] keyedTable = .ok () rowTable := rfl
  have saves : save rowTable = .ok () savedTable := rfl
  have filled : Evolved rowTable := evolved_keyedTable.called (.insert [[53]]) trivial
  have few := filled.sound.length_contents_lt saves (by decide)
  obtain ⟨opened, opens, -⟩ := filled.sound.standing.exists_reopened (by decide) saves few 0
  have since := ((Since.start.saved saves).reopened few opens).called _ texts nofun
  exact ⟨inserts, saves, opened, opens, fixes.fixed [[53]] rowTable inserts true _ since⟩

/-- Columns that a table without a page refuses are no fault of the schema. -/
theorem not_fixesSchema_without_page :
    Evolved bareTable ∧
      extendSchema [Column.integers [105, 110, 116]] bareTable =
        .error (.unreadable 0 .page) bareTable ∧
      ¬∃ defect, Fault.unreadable 0 .page = .schema defect :=
  ⟨evolved_bareTable, rfl, nofun⟩

end Table

end RowStore
