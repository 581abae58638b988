import RowStore.Proofs.Table.Evolution

/-!
# Clearing is starting over

The limit of pages is given when a file is opened, and nothing that is asked of the table
changes it, whatever is wrong with the file (`Table.limit_after`). It is all that is left of
a table that is cleared. From there on, every sequence of requests is answered as by a new
table on an empty file with the same limit, and leads to the same root, the same number of
pages and the same file at every step (`Table.clear_starts_over`).
-/

set_option autoImplicit false

namespace RowStore

open Store

namespace Table

/-! ## The limit stays -/

/-- **A table keeps the limit that it was opened with**, whatever is asked of it. -/
theorem limit_after {contents : Bytes} {limit : UInt32} {opened : Opened}
    (opens : ofContents contents limit = .ok opened) (calls : List Call) :
    (opened.table.after calls).store.limit = limit := by
  have keeps : Editing fun _ => Preserves (fun _ => True) fun store : Store =>
      store.limit = limit :=
    editing_preserves (fun store id node same => (store.limit_cache id node).trans same)
      fun _ _ _ same => same
  exact within_after (.of_editing (fun _ _ => trivial) keeps)
    (flush_preserves (fun _ => trivial) fun _ _ _ same => same) (.modify fun _ same => same)
    (same_of_ofContents opens).2 calls

/-! ## What can be seen -/

/-- What a request answers: the rows, if it asks for them. -/
def Request.reply : Request → TableM (List Row)
  | rows => Table.rows
  | request => do
    request.perform
    return []

/-- What can be seen after a request: the answer or the fault, the root of the tree, how many pages
are in use, how many bytes the file is taken to have, and the file. -/
structure Moment where
  reply : Except Fault (List Row)
  root : PageNumber
  pagesInUse : Nat
  fileSize : UInt32
  contents : Bytes

/-- What can be seen of a table that gave a reply. -/
def moment (reply : Except Fault (List Row)) (table : Table) : Moment where
  reply := reply
  root := table.tree.root
  pagesInUse := table.store.pagesInUse
  fileSize := table.store.fileSize
  contents := table.store.contents

/-- What can be seen after each of a list of requests. -/
def trace : List Request → Table → List Moment
  | [], _ => []
  | request :: requests, table =>
    let after := leftBy request.reply table
    moment (answer request.reply table) after :: trace requests after

theorem trace_clear {table after : Table} (clears : clear table = .ok () after)
    (requests : List Request) :
    trace (.clear :: requests) table = moment (.ok []) after :: trace requests after := by
  have reply : Request.clear.reply table = .ok [] after := by
    show EStateM.bind Table.clear _ table = _
    rw [EStateM.bind, clears]
    rfl
  simp only [trace, answer, leftBy, reply]

/-- **Clearing a table is starting over.** Whatever file is opened, with any limit but zero, and
whatever is asked of the table: once it is cleared, it is the table that is opened on an empty file
with the same limit. So from there on everything that can be seen is the same as with that table. -/
theorem clear_starts_over {contents : Bytes} {limit : UInt32} {opened : Opened}
    (opens : ofContents contents limit = .ok opened) (positive : limit ≠ 0) (calls : List Call) :
    ∃ new, ofContents [] limit = .ok new ∧ new.unmarkedRoot = none ∧
      clear (opened.table.after calls) = .ok () new.table ∧
      ∀ requests, trace (.clear :: requests) (opened.table.after calls) =
        moment (.ok []) new.table :: trace requests new.table := by
  have kept := limit_after opens calls
  have clears := clear_eq (kept ▸ positive)
  rw [kept] at clears
  exact ⟨_, ofContents_empty positive, rfl, clears, fun requests => trace_clear clears requests⟩

/-- A table with three rows, one of them on a page of its own, and a root above the two pages. -/
def threePages : Table := wideTable 3 [[[49], []], [[50], []], [[51], []]]

/-- The three pages are opened with a limit of one. Once the table is cleared, it takes rows as a
new table does. -/
theorem clear_starts_over_smaller_limit :
    ∃ saved opened, save threePages = .ok () saved ∧
      ofContents saved.store.contents 1 = .ok opened ∧ opened.table.store.pagesInUse = 3 ∧
      (trace [.clear, .extendSchema wideSchema.columns, .insert [[52], []], .rows]
        opened.table).map (fun moment => (moment.reply, moment.pagesInUse)) =
        [(.ok [], 1), (.ok [], 1), (.ok [], 1), (.ok [[.integer 4, .text []]], 1)] := by
  have sound : Sound threePages := (evolved_wideTable (by decide) _).sound
  have pages : threePages.store.pagesInUse = 3 := by decide +kernel
  obtain ⟨saved, saves⟩ := sound.exists_save (by decide +kernel)
  have small := sound.length_contents_lt saves (by rw [pages]; decide)
  obtain ⟨opened, opens, -, same⟩ :=
    sound.standing.exists_reopened (by rw [pages]; decide) saves small 1
  have settled := (sound.standing.resettled sound.faithful saves).store
  refine ⟨saved, opened, saves, opens, same.nodes.pages.trans (settled.same.pages.trans pages), ?_⟩
  obtain ⟨new, opensNew, -, -, again⟩ := clear_starts_over opens (by decide) []
  cases (ofContents_empty (by decide)).symm.trans opensNew
  have traced := again [.extendSchema wideSchema.columns, .insert [[52], []], .rows]
  rw [show opened.table.after [] = opened.table from rfl] at traced
  rw [traced]
  decide +kernel

end Table

end RowStore
