import RowStore.Proofs.Store.Twins
import RowStore.Proofs.Table.Reopen
import RowStore.Proofs.Tree.Editing

/-!
# Tables with the same nodes

Tables are twins if they have the same schema and the same root, and stores that are twins
(`Table.Twins`). Every operation of a tree goes through page numbers, so it does the same
on twins, and so does every operation of a table. Saving makes the files of twins the same
(`Table.Twins.save`).

A table that was saved is a twin of the table that is opened on its file, where nothing is
in memory yet, if the size of the file fits a word (`Table.Twins.reopened`).
-/

set_option autoImplicit false

namespace RowStore

open Store

/-- Twins stay twins through an insertion, which does the same to both. -/
theorem editing_blind {limit : UInt32} : Editing fun _ => Blind limit where
  pure := .pure
  throw := fun _ => .throw _
  shortage := fun _ => .throw _
  undefined := fun _ => .throw _
  bind := .bind
  load := .load
  countPages := .countPages
  replace := .replace
  allocate := .allocate
  look := by
    intro α next later
    refine .get fun store other twins => ?_
    rw [twins.sameLimit, twins.pages]
    exact later _ _

/-! ## Tables -/

namespace Table

/-- The tables have the same schema and root, and the same nodes on the same pages. -/
structure Twins (limit : UInt32) (table other : Table) : Prop where
  schema : other.schema = table.schema
  tree : other.tree = table.tree
  store : table.store.Twins limit other.store

variable {limit : UInt32}

section Operations

variable {α : Type}

theorem answer_onStore (action : StoreM α) (table : Table) :
    answer (onStore action) table = answer action table.store ∧
      leftBy (onStore action) table = { table with store := leftBy action table.store } := by
  unfold answer leftBy onStore
  cases action table.store with
  | ok value store => exact ⟨rfl, rfl⟩
  | error fault store => exact ⟨rfl, rfl⟩

theorem lockstep_onStore {action : StoreM α} (blind : Blind limit action) :
    Lockstep (Twins limit) (onStore action) (onStore action) := by
  intro table other twins
  obtain ⟨answers, left⟩ := blind table.store other.store twins.store
  rw [(answer_onStore action table).1, (answer_onStore action table).2,
    (answer_onStore action other).1, (answer_onStore action other).2]
  exact ⟨answers, twins.schema, twins.tree, left⟩

theorem lockstep_lift (result : Except Fault α) :
    Lockstep (Twins limit) (Table.lift result) (Table.lift result) := by
  cases result with
  | ok value => exact .pure value
  | error fault => exact .throw fault

end Operations

theorem lockstep_extendSchema (columns : List Column) :
    Lockstep (Twins limit) (extendSchema columns) (extendSchema columns) := by
  refine .get fun table other twins => ?_
  rw [twins.schema, twins.tree]
  refine .bind (lockstep_onStore (editing_blind.isEmpty table.tree)) fun empty => ?_
  cases empty with
  | false => exact .throw _
  | true =>
    refine .bind (lockstep_lift _) fun schema => .modify fun _ _ twins => ?_
    exact ⟨rfl, twins.tree, twins.store⟩

theorem lockstep_insert (words : List Bytes) :
    Lockstep (Twins limit) (insert words) (insert words) := by
  refine .get fun table other twins => ?_
  rw [twins.schema, twins.tree]
  cases table.schema.hasColumns with
  | false => exact .throw _
  | true =>
    refine .bind (lockstep_lift _) fun row => .bind (lockstep_lift _) fun key =>
      .bind (lockstep_lift _) fun bytes => ?_
    refine .bind (lockstep_onStore (editing_blind.insert table.tree key bytes (.throw _)))
      fun tree => .modify fun _ _ twins => ?_
    exact ⟨twins.schema, rfl, twins.store⟩

theorem lockstep_rows : Lockstep (Twins limit) rows rows := by
  refine .get fun table other twins => ?_
  rw [twins.schema, twins.tree]
  cases table.schema.hasColumns with
  | false => exact .throw _
  | true =>
    exact lockstep_onStore (editing_blind.collect (fun _ _ _ _ => .throw _) table.tree)

/-- Stores without a page are twins if they have the same limit. -/
theorem blind_clear : Blind limit Store.clear := by
  refine Lockstep.modify fun store other twins => ?_
  rw [twins.sameLimit]
  have nothing : Store.Faithful { limit := store.limit } := by
    intro index page unloaded
    cases unloaded
  exact ⟨rfl, rfl, twins.limited, twins.limited, nothing, nothing⟩

theorem lockstep_clear : Lockstep (Twins limit) clear clear := by
  refine .bind (.modify fun _ _ twins => ⟨rfl, twins.tree, twins.store⟩) fun _ => ?_
  refine .bind (lockstep_onStore blind_clear) fun _ => ?_
  refine .bind (lockstep_onStore editing_blind.create) fun tree => .modify fun _ _ twins => ?_
  exact ⟨twins.schema, rfl, twins.store⟩

/-! ## Saving and opening -/

theorem save_of_flush {table : Table} {after : Store}
    (fits : table.schema.toBytes.length ≤ Page.size)
    (run : flush (Page.ofBytes table.schema.toBytes) table.store = .ok () after) :
    save table = .ok () { table with store := after } := by
  show (if table.schema.toBytes.length ≤ Page.size then
    onStore (flush (Page.ofBytes table.schema.toBytes))
    else throw _ : TableM Unit) table = _
  rw [if_pos fits, onStore, run]

/-- **Saving twins makes their files the same**, unless their column list is too large. -/
theorem Twins.save {table other : Table} {cells cells' : List (Key × Bytes)}
    (twins : table.Twins limit other) (holds : table.Holds cells) (holds' : other.Holds cells') :
    (∃ after after', Table.save table = .ok () after ∧ Table.save other = .ok () after' ∧
      after.Twins limit after' ∧ after'.store.disk = after.store.disk ∧
      CanonicalFile after.store.disk) ∨
    ∃ fault, Table.save table = .error fault table ∧ Table.save other = .error fault other := by
  by_cases fits : table.schema.toBytes.length ≤ Page.size
  · obtain ⟨after, after', run, run', twins', same, canonical⟩ :=
      twins.store.flush holds.tree.writable holds.tree.regular holds'.tree.writable
        holds'.tree.regular (Page.ofBytes table.schema.toBytes)
    have saved := save_of_flush fits run
    rw [← twins.schema] at fits run'
    have saved' := save_of_flush fits run'
    exact .inl ⟨_, _, saved, saved', ⟨twins.schema, twins.tree, twins'⟩, same, canonical⟩
  · refine .inr ⟨.shortage (.header table.schema.toBytes.length), ?_, ?_⟩
    · rcases holds.save_cases with ⟨after, -, saved⟩ | ⟨refused, -⟩
      · exact absurd saved.fits fits
      · exact refused
    · rcases holds'.save_cases with ⟨after, -, saved⟩ | ⟨refused, -⟩
      · exact absurd (twins.schema ▸ saved.fits) fits
      · rw [refused, twins.schema]

theorem disk_eq_of_contents {store other : Store} (same : other.contents = store.contents) :
    other.disk = store.disk := by
  have pages := congrArg Page.allOf same
  rw [contents, contents, Page.allOf_flatMap, Page.allOf_flatMap] at pages
  exact Array.toList_inj.mp pages

/-- **A table that was saved is a twin of the table that is opened on its file**, where nothing is
in memory but the way to the root, if the file is small enough. -/
theorem Twins.reopened {table after : Table} {cells : List (Key × Bytes)}
    (twins : table.Twins limit table) (holds : table.Holds cells)
    (saves : Table.save table = .ok () after)
    (small : after.store.contents.length < UInt32.size) :
    ∃ opened, ofContents after.store.contents limit = .ok opened ∧
      opened.unmarkedRoot = none ∧ table.Twins limit opened.table ∧ opened.table.Holds cells := by
  obtain ⟨-, same, -, -, found⟩ := holds.keeps.save.of_ok saves
  obtain ⟨opened, opens, marked, same', keeps, isLimit, contents⟩ := found limit small
  have canonical : CanonicalFile opened.table.store.disk := by
    rcases twins.save holds holds with ⟨after', _, run, -, -, -, canonical⟩ | ⟨fault, fails, -⟩
    · cases saves.symm.trans run
      rw [disk_eq_of_contents contents]
      exact canonical
    · cases saves.symm.trans fails
  have both := same.trans same'
  refine ⟨opened, opens, marked,
    ⟨both.schema, both.tree, ⟨both.nodes.nodes, both.nodes.pages, twins.store.limited, isLimit,
      twins.store.faithful, canonical.faithful⟩⟩, ?_⟩
  exact keeps.holds (isLimit.trans twins.store.limited.symm ▸ holds.limited)

/-- A new table has all its nodes in memory. -/
theorem twins_fresh : (fresh limit).Twins limit (fresh limit) := by
  have loaded : (fresh limit).store.Faithful := by
    intro index page unloaded stored
    cases stored
  exact ⟨rfl, rfl, rfl, rfl, rfl, rfl, loaded, loaded⟩

/-- Twins in order. -/
structure Alike (limit : UInt32) (table other : Table) : Prop where
  twins : table.Twins limit other
  first : ∃ cells, table.Holds cells
  second : ∃ cells, other.Holds cells

/-- Saving does the same to twins in order, and to their files if it succeeds. -/
theorem Alike.save {table other : Table} (alike : table.Alike limit other) :
    (∃ after after', Table.save table = .ok () after ∧ Table.save other = .ok () after' ∧
      after.Alike limit after' ∧ after'.store.contents = after.store.contents) ∨
    ∃ fault, Table.save table = .error fault table ∧ Table.save other = .error fault other := by
  obtain ⟨twins, ⟨cells, holds⟩, ⟨cells', holds'⟩⟩ := alike
  rcases twins.save holds holds' with ⟨after, after', run, run', same, disk, -⟩ | refused
  · have saved := holds.save.of_ok run
    have saved' := holds'.save.of_ok run'
    exact .inl ⟨after, after', run, run', ⟨same, ⟨_, saved.holds⟩, ⟨_, saved'.holds⟩⟩,
      contents_congr disk⟩
  · exact .inr refused

theorem lockstep_save : Lockstep (Alike limit) save save := by
  intro table other alike
  rcases alike.save with ⟨after, after', run, run', same, -⟩ | ⟨fault, stop, stop'⟩
  · exact Lockstep.of_ok () run run' same
  · exact Lockstep.of_error fault stop stop' alike

end Table

end RowStore
