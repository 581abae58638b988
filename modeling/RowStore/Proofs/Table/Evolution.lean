import RowStore.Proofs.Table.Contents
import RowStore.Proofs.Table.Calls
import RowStore.Proofs.Table.Twins

/-!
# What becomes of a table

A table begins on an empty file. Calls are made to it in any order, and at any time it is
dropped and the file opened again, with any limit, whether it was saved before or not, as
long as the size of the file fits a word (`Table.Evolved`). All calls belong to this but
those that reach into the tree to change it.

In every state, the table is in order or has neither a column nor a page
(`Table.Standing`). What is not in memory is in the file as it would be written, and the
file is empty or was written when such a table was saved, so opening it gives such a table
again (`Table.Evolved.sound`).
-/

set_option autoImplicit false

namespace RowStore

open Store

namespace Table

/-! ## Tables that stand -/

/-- The table is in order, or has neither a column nor a page. -/
inductive Standing (table : Table) : Prop where
  | keeps {cells : List (Key × Bytes)} : table.Keeps cells → Standing table
  | stranded : Stranded table → Standing table

namespace Standing

variable {table : Table} (standing : Standing table)
include standing

theorem of_unchanged {other : Table} (same : table.Unchanged other) : Standing other := by
  cases standing with
  | keeps keeps => exact .keeps (same.keeps keeps)
  | stranded stranded => exact .stranded (stranded.of_unchanged same)

theorem regular : table.store.view.Regular := by
  cases standing with
  | keeps keeps => exact keeps.tree.regular
  | stranded stranded => exact stranded.regular

theorem writable : table.store.view.Writable := by
  cases standing with
  | keeps keeps => exact keeps.tree.writable
  | stranded stranded =>
    intro id inUse
    rw [stranded.unused] at inUse
    exact absurd inUse (Nat.not_lt_zero _)

/-- Columns are added or refused, and the file stays as it is. -/
theorem extendSchema {columns : List Column} (ordinary : ∀ column ∈ columns, column.Ordinary) :
    Ends table (extendSchema columns)
      (fun _ after => Standing after ∧ after.store.contents = table.store.contents)
      (fun _ after => table.Unchanged after) := by
  cases standing with
  | keeps keeps =>
    refine (keeps.extendSchema ordinary).weaken ?_ fun _ _ refused => refused.1
    rintro _ after ⟨-, -, keeps', same⟩
    exact ⟨.keeps keeps', contents_congr (congrArg View.disk same)⟩
  | stranded stranded =>
    exact (stranded.extendSchema columns).weaken (fun _ _ never => never.elim)
      fun _ _ refused => refused.1

/-- Columns that are refused leave nothing behind, whatever they are. -/
theorem unchanged_of_extendSchema {columns : List Column} {fault : Fault} {after : Table}
    (refused : Table.extendSchema columns table = .error fault after) : table.Unchanged after := by
  cases standing with
  | keeps keeps => exact ((keeps.extendSchema_cases columns).of_error refused).1
  | stranded stranded => exact ((stranded.extendSchema columns).of_error refused).1

/-- A row is inserted or refused, and the file stays as it is. -/
theorem insert (words : List Bytes) :
    Ends table (Table.insert words)
      (fun _ after => Standing after ∧ after.store.contents = table.store.contents)
      (fun _ after => table.Unchanged after) := by
  cases standing with
  | keeps keeps =>
    refine (keeps.insert words).weaken ?_ fun _ _ refused => refused.1
    rintro _ after ⟨row, key, bytes, -, -, -, -, -, keeps', grew⟩
    exact ⟨.keeps keeps', contents_congr grew.disk⟩
  | stranded stranded =>
    rw [Ends, stranded.insert]
    exact .refl table

/-- A table that is saved stands, and one that is too large is what it was. -/
theorem save :
    Ends table Table.save (fun _ after => Standing after) (fun _ after => after = table) := by
  cases standing with
  | keeps keeps =>
    refine keeps.save.weaken ?_ fun _ _ refused => refused.1
    rintro _ after ⟨-, -, keeps', -⟩
    exact .keeps keeps'
  | stranded stranded => exact stranded.save.mono fun _ _ done => .stranded done.1

end Standing

/-! ## Saving -/

/-- A table that is saved has a column list that fits a page, and is the table that it was but for
its store. -/
theorem exists_flush_of_save {table saved : Table} (saves : save table = .ok () saved) :
    table.schema.toBytes.length ≤ Page.size ∧ ∃ after : Store,
      flush (Page.ofBytes table.schema.toBytes) table.store = .ok () after ∧
        saved = { table with store := after } := by
  change (if table.schema.toBytes.length ≤ Page.size then
      onStore (flush (Page.ofBytes table.schema.toBytes))
    else throw _ : TableM Unit) table = _ at saves
  split at saves
  next fits =>
    unfold onStore at saves
    split at saves
    next after run =>
      cases saves
      exact ⟨fits, after, run, rfl⟩
    next => cases saves
  next => cases saves

/-- What a save leaves behind: the table as it was, in a file where every page is as a save would
write it. -/
structure Resettled (table saved : Table) : Prop where
  schema : saved.schema = table.schema
  tree : saved.tree = table.tree
  store : Settled table.store (Page.ofBytes table.schema.toBytes) saved.store

theorem Standing.resettled {table saved : Table} (standing : Standing table)
    (faithful : table.store.Faithful) (saves : Table.save table = .ok () saved) :
    Resettled table saved := by
  obtain ⟨-, after, run, rfl⟩ := exists_flush_of_save saves
  obtain ⟨after', run', settled⟩ := exists_settled standing.writable standing.regular faithful
    (Page.ofBytes table.schema.toBytes)
  cases run.symm.trans run'
  exact ⟨rfl, rfl, settled⟩

/-- **Tables with the same schema and nodes are saved to the same file**, whatever was in memory
of them and whatever their limits are. -/
theorem Standing.save_of_matches {table other saved : Table} (standing : Standing table)
    (faithful : table.store.Faithful) (standing' : Standing other)
    (faithful' : other.store.Faithful) (same : table.Matches other)
    (saves : Table.save table = .ok () saved) :
    ∃ after, Table.save other = .ok () after ∧ after.store.contents = saved.store.contents := by
  obtain ⟨fits, -, -, -⟩ := exists_flush_of_save saves
  obtain ⟨after, run, settled⟩ := exists_settled standing'.writable standing'.regular faithful'
    (Page.ofBytes table.schema.toBytes)
  have settled' := (standing.resettled faithful saves).store
  rw [← same.schema] at fits run
  exact ⟨_, save_of_flush fits run,
    contents_congr (settled'.disk_eq settled same.nodes standing.regular)⟩

/-! ## Opening -/

/-- A store and the table that is opened on its file have the same file. -/
theorem disk_of_reopened {store : Store} {limit : UInt32} {opened : Opened}
    (opens : ofContents store.contents limit = .ok opened) :
    opened.table.store.disk = store.disk := by
  have disk := (same_of_ofContents opens).1
  rw [contents, Page.allOf_flatMap] at disk
  exact disk

/-! ## Calls -/

/-- A tree does not change what is not in memory. -/
theorem upkeep_faithful : Upkeep (fun _ => True) Faithful :=
  .of_editing (fun _ _ => trivial) (editing_preserves
    (fun _ id node faithful => faithful.cache id node)
    fun _ node _ faithful => faithful.push node)

theorem faithful_of_reads {call : Call} (looks : call.reads = true) {table : Table}
    (faithful : table.store.Faithful) : (leftBy call.perform table).store.Faithful := by
  have keeps : Preserves (fun _ => True) (Within Faithful) call.perform :=
    within_of_rests fun _ _ =>
      Call.preserves_of_reads looks upkeep_faithful.declared upkeep_faithful.loading
  exact keeps.leftBy faithful

/-- The calls that change a table through its own operations, and those that only look. Columns of
integers are as wide as integers. -/
def Call.Ordinary : Call → Prop
  | extendSchema columns => ∀ column ∈ columns, column.Ordinary
  | insert _ => True
  | save => True
  | clear => True
  | call => call.reads = true

/-! ## Files of tables -/

theorem faithful_of_contents_nil {table : Table} (empty : table.store.contents = []) :
    table.store.Faithful := by
  have nothing : table.store.contents = contents { limit := table.store.limit } := empty
  have same := disk_eq_of_contents nothing
  intro index page unloaded stored
  rw [same] at stored
  cases stored

/-- The file is empty, or was written when a table that stands was saved. -/
inductive Filed : Bytes → Prop where
  | empty : Filed []
  | saved {table saved : Table} : Standing table → table.store.Faithful →
      Table.save table = .ok () saved → Filed saved.store.contents

/-- The table stands, what is not in memory of it is in its file as a flush would write it, and
its file can be opened again. -/
structure Sound (table : Table) : Prop where
  standing : Standing table
  faithful : table.store.Faithful
  filed : Filed table.store.contents

/-- Opening the file of a table gives a sound table, if the file is small enough. -/
theorem Filed.sound {contents : Bytes} (filed : Filed contents)
    (small : contents.length < UInt32.size) {limit : UInt32} {opened : Opened}
    (opens : ofContents contents limit = .ok opened) : Sound opened.table := by
  cases filed with
  | empty =>
    have keeps := keeps_of_unused (Store.ofContents_nil limit) (regular_empty _) rfl rfl opens
    have disk : opened.table.store.disk = #[] := (same_of_ofContents opens).1
    have empty : opened.table.store.contents = [] := by
      rw [contents, disk]
      rfl
    refine ⟨.keeps keeps, faithful_of_contents_nil empty, ?_⟩
    rw [empty]
    exact .empty
  | @saved table saved standing faithful saves =>
    have disk := disk_of_reopened opens
    have canonical := (standing.resettled faithful saves).store.canonical
    rw [← disk] at canonical
    refine ⟨?_, canonical.faithful, ?_⟩
    · cases standing with
      | keeps keeps =>
        obtain ⟨-, -, -, -, found⟩ := keeps.save.of_ok saves
        obtain ⟨opened', opens', -, -, keeps', -, -⟩ := found limit small
        cases opens.symm.trans opens'
        exact .keeps keeps'
      | stranded stranded =>
        -- The file is a header alone, and opening it begins a tree.
        exact .keeps ((stranded.save.of_ok saves).2 limit opened opens)
    · rw [contents_congr disk]
      exact .saved standing faithful saves

namespace Sound

variable {table : Table} (sound : Sound table)
include sound

theorem of_unchanged {other : Table} (same : table.Unchanged other)
    (faithful : other.store.Faithful) : Sound other := by
  refine ⟨sound.standing.of_unchanged same, faithful, ?_⟩
  rw [same.contents]
  exact sound.filed

/-- An operation that keeps the file and what is not in memory keeps the table sound. -/
theorem of_ends {action : TableM Unit} (keeps : Preserves (fun _ => True) (Within Faithful) action)
    (ends : Ends table action
      (fun _ after => Standing after ∧ after.store.contents = table.store.contents)
      fun _ after => table.Unchanged after) : Sound (leftBy action table) := by
  have left : Standing (leftBy action table) ∧
      (leftBy action table).store.contents = table.store.contents := by
    refine (ends.weaken (fun _ _ kept => kept) fun _ after same => ?_).leftBy
    exact ⟨sound.standing.of_unchanged same, same.contents⟩
  refine ⟨left.1, keeps.leftBy sound.faithful, ?_⟩
  rw [left.2]
  exact sound.filed

theorem save : Sound (leftBy Table.save table) := by
  unfold leftBy
  cases saves : Table.save table with
  | ok _ saved =>
    refine ⟨sound.standing.save.of_ok saves, ?_, .saved sound.standing sound.faithful saves⟩
    exact (sound.standing.resettled sound.faithful saves).store.canonical.faithful
  | error fault after =>
    cases sound.standing.save.of_error saves
    exact sound

omit sound in
theorem clear (table : Table) : Sound (leftBy Table.clear table) := by
  have ends : Ends table Table.clear
      (fun _ after => Standing after ∧ after.store.contents = [])
      fun _ after => Standing after ∧ after.store.contents = [] := by
    refine (ends_clear table).weaken ?_ ?_
    · exact fun _ after cleared => ⟨.keeps cleared.1, cleared.2⟩
    · exact fun _ after cleared => ⟨.stranded cleared.1, cleared.2⟩
  have left := ends.leftBy
  refine ⟨left.1, faithful_of_contents_nil left.2, ?_⟩
  rw [left.2]
  exact .empty

/-- **A call leaves a sound table**, whether it answers or is refused. -/
theorem perform {call : Call} (ordinary : call.Ordinary) : Sound (leftBy call.perform table) := by
  have looking : call.reads = true → Sound (leftBy call.perform table) := by
    intro looks
    exact sound.of_unchanged (Call.unchanged_of_reads looks table)
      (faithful_of_reads looks sound.faithful)
  cases call with
  | extendSchema columns =>
    exact sound.of_ends (upkeep_faithful.extendSchema columns)
      (sound.standing.extendSchema ordinary)
  | insert words =>
    exact sound.of_ends (upkeep_faithful.insertRow words) (sound.standing.insert words)
  | save => exact sound.save
  | clear => exact clear table
  -- For the other calls, being ordinary is to look only.
  | _ => exact looking ordinary

end Sound

/-! ## Runs -/

/-- A table in a state that calls and openings reach from an empty file. A table that is opened
again is what is found in the file, whether it was saved before or not, as long as the size of the
file fits a word. Limits may be anything, also zero, and calls may be refused. -/
inductive Evolved : Table → Prop where
  | opened {limit : UInt32} {opened : Opened} :
      ofContents [] limit = .ok opened → Evolved opened.table
  | called {table : Table} (call : Call) :
      Evolved table → call.Ordinary → Evolved (leftBy call.perform table)
  | reopened {table : Table} {limit : UInt32} {opened : Opened} :
      Evolved table → table.store.contents.length < UInt32.size →
      ofContents table.store.contents limit = .ok opened → Evolved opened.table

/-- **In every state of a run, the table and its file are sound.** -/
theorem Evolved.sound {table : Table} (evolved : Evolved table) : Sound table := by
  induction evolved with
  | opened opens => exact Filed.empty.sound (by decide) opens
  | called call _ ordinary ih => exact ih.perform ordinary
  | reopened _ small opens ih => exact ih.filed.sound small opens

/-- A table with a page is found again in its file, with any limit, if the file is small enough. -/
theorem Standing.exists_reopened {table saved : Table} (standing : Standing table)
    (used : table.store.pagesInUse ≠ 0) (saves : Table.save table = .ok () saved)
    (small : saved.store.contents.length < UInt32.size) (limit : UInt32) :
    ∃ opened, ofContents saved.store.contents limit = .ok opened ∧
      opened.unmarkedRoot = none ∧ saved.Matches opened.table := by
  cases standing with
  | keeps keeps =>
    obtain ⟨-, -, -, -, found⟩ := keeps.save.of_ok saves
    obtain ⟨opened, opens, marked, same, -⟩ := found limit small
    exact ⟨opened, opens, marked, same⟩
  | stranded stranded => exact absurd stranded.unused used

/-- The file of a saved table is small enough if the table has at most `largestLimit` pages. -/
theorem Sound.length_contents_lt {table saved : Table} (sound : Sound table)
    (saves : Table.save table = .ok () saved) (few : table.store.pagesInUse ≤ largestLimit) :
    saved.store.contents.length < UInt32.size := by
  have standing := sound.standing.save.of_ok saves
  have same := (sound.standing.resettled sound.faithful saves).store.same
  exact Store.length_contents_lt standing.regular (same.pages ▸ few)

theorem evolved_fresh {limit : UInt32} (positive : limit ≠ 0) : Evolved (fresh limit) :=
  .opened (ofContents_empty positive)

theorem Evolved.after {table : Table} (evolved : Evolved table) {calls : List Call}
    (ordinary : ∀ call ∈ calls, call.Ordinary) : Evolved (table.after calls) := by
  induction calls generalizing table with
  | nil => exact evolved
  | cons call calls ih =>
    rw [List.forall_mem_cons] at ordinary
    exact ih (evolved.called call ordinary.1) ordinary.2

/-- A table is saved if its column list fits a page. -/
theorem Sound.exists_save {table : Table} (sound : Sound table)
    (fits : table.schema.toBytes.length ≤ Page.size) :
    ∃ saved, Table.save table = .ok () saved := by
  obtain ⟨after, run, -⟩ := exists_settled sound.standing.writable sound.standing.regular
    sound.faithful (Page.ofBytes table.schema.toBytes)
  exact ⟨_, save_of_flush fits run⟩

/-- A schema with a column of integers and a column of texts that take almost half a page. -/
def wideSchema : Schema where
  columns := [Column.integers [105, 100], Column.texts [110] 2000]

/-- A new table with these columns, after rows were inserted. -/
def wideTable (limit : UInt32) (rows : List (List Bytes)) : Table :=
  (fresh limit).after (.extendSchema wideSchema.columns :: rows.map .insert)

theorem evolved_wideTable {limit : UInt32} (positive : limit ≠ 0) (rows : List (List Bytes)) :
    Evolved (wideTable limit rows) := by
  refine (evolved_fresh positive).after (List.forall_mem_cons.mpr ⟨fun column member => ?_, ?_⟩)
  · rcases List.mem_pair.mp member with rfl | rfl
    · exact fun _ => rfl
    · exact fun never => by cases never
  · rw [List.forall_mem_map]
    exact fun _ _ => trivial

end Table

end RowStore
