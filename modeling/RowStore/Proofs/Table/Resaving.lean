import RowStore.Proofs.Table.Evolution

/-!
# Saving again

A table that was saved can be saved again, and so can the table that is opened on its file,
with any limit and after any calls that only look or are refused, if the size of the file
fits a word. The file stays as it is, byte for byte (`Table.Evolved.saves_again`). What is
in memory then is anything between the way to the root and all pages, and pages that are
not are not written, so this rests on every page of the file being as a save would write
it.

There is one exception. A table that is cleared with a limit of zero has no page. It is saved
as a header alone, and whoever opens the file with room for a page begins a new tree, whose
first leaf is in the file after the next save (`Table.not_saves_again_without_page`).
-/

set_option autoImplicit false

namespace RowStore

open Store

namespace Table

/-! ## What leaves a table as it is -/

/-- The other table is what calls that only look, rows that were refused and columns that were
refused left of the table. -/
inductive Undisturbed (table : Table) : Table → Prop where
  | start : Undisturbed table table
  | looked {other : Table} (call : Call) :
      Undisturbed table other → call.reads = true → Undisturbed table (leftBy call.perform other)
  | rowRefused {other after : Table} {words : List Bytes} {fault : Fault} :
      Undisturbed table other → insert words other = .error fault after → Undisturbed table after
  | columnsRefused {other after : Table} {columns : List Column} {fault : Fault} :
      Undisturbed table other → extendSchema columns other = .error fault after →
      Undisturbed table after

theorem Resettled.matches {table saved : Table} (resettled : Resettled table saved) :
    table.Matches saved :=
  ⟨resettled.schema, resettled.tree, resettled.store.same⟩

/-- Such a table is still the same, and as sound as it was. -/
theorem Undisturbed.sound {table other : Table} (undisturbed : Undisturbed table other)
    (sound : Sound table) : table.Unchanged other ∧ Sound other := by
  induction undisturbed with
  | start => exact ⟨.refl table, sound⟩
  | looked call _ looks ih =>
    have kept := Call.unchanged_of_reads looks
    exact ⟨ih.1.trans (kept _),
      ih.2.of_unchanged (kept _) (faithful_of_reads looks ih.2.faithful)⟩
  | @rowRefused other after words fault _ refused ih =>
    have kept := (ih.2.standing.insert words).of_error refused
    have faithful := (upkeep_faithful.insertRow words other ih.2.faithful).of_error refused
    exact ⟨ih.1.trans kept, ih.2.of_unchanged kept faithful.1⟩
  | @columnsRefused other after columns fault _ refused ih =>
    have kept := ih.2.standing.unchanged_of_extendSchema refused
    have faithful := (upkeep_faithful.extendSchema columns other ih.2.faithful).of_error refused
    exact ⟨ih.1.trans kept, ih.2.of_unchanged kept faithful.1⟩

/-! ## Files that are written again -/

/-- Saving the table succeeds, and the file has the given bytes then. -/
def Writes (table : Table) (contents : Bytes) : Prop :=
  ∃ after, save table = .ok () after ∧ after.store.contents = contents

/-- Whatever left a table undisturbed that has the nodes of a saved one writes its file again. -/
theorem Sound.writes_again {table saved opened other : Table} (sound : Sound table)
    (saves : Table.save table = .ok () saved) (same : table.Matches opened)
    (soundOpened : Sound opened) (undisturbed : Undisturbed opened other) :
    Writes other saved.store.contents := by
  obtain ⟨kept, soundOther⟩ := undisturbed.sound soundOpened
  exact sound.standing.save_of_matches sound.faithful soundOther.standing soundOther.faithful
    (same.trans kept.matches) saves

/-! ## Files without a page -/

/-- The header of a file without a column. -/
def bareHeader : Page := Page.ofBytes Schema.empty.toBytes

/-- What is opened on a file with this header and nothing else, before it has a tree. -/
def bareStore (limit : UInt32) : Store where
  disk := #[bareHeader]
  limit := limit
  fileSize := sizeOfPages 1

/-- The table that is opened on such a file. -/
def begun (limit : UInt32) : Table where
  schema := Schema.empty
  store := { bareStore limit with slots := #[some (.leaf { rootMark := true })] }
  tree := { root := 0 }

theorem disk_of_stranded {table saved : Table} (stranded : Stranded table)
    (resettled : Resettled table saved) : saved.store.disk = #[bareHeader] := by
  have unused : table.store.pagesInUse = 0 := stranded.unused
  obtain ⟨size, header, -⟩ := resettled.store.saved
  rw [unused] at size
  rw [stranded.schema] at header
  obtain ⟨page, single⟩ := Array.size_eq_one_iff.mp size
  rw [single] at header ⊢
  cases header
  rfl

section Bare

variable {store : Store} (disk : store.disk = #[bareHeader])
include disk

theorem ofContents_bareStore (limit : UInt32) :
    Store.ofContents store.contents limit = .ok (bareStore limit) := by
  rw [contents, disk]
  exact ofContents_pages #[bareHeader] limit

omit disk in
theorem storedSchema_bareStore (limit : UInt32) :
    storedSchema (bareStore limit) = .ok Schema.empty := by
  have read : Schema.ofBytes bareHeader.bytes = .ok Schema.empty :=
    Schema.ofBytes_page (fun _ member => absurd member List.not_mem_nil) (by decide)
  show (Schema.ofBytes bareHeader.bytes).mapError Fault.schema = .ok Schema.empty
  rw [read]
  rfl

/-- There is no room for a tree. -/
theorem ofContents_bare_zero :
    ofContents store.contents 0 = .error (.shortage (.pages 0)) := by
  have tree : storedTree (bareStore 0) = .error (.shortage (.pages 0)) (bareStore 0) := rfl
  simp only [ofContents, ofStore, ofContents_bareStore disk, storedSchema_bareStore, tree, bind,
    Except.bind]

theorem ofContents_bare {limit : UInt32} (positive : limit ≠ 0) :
    ofContents store.contents limit = .ok { table := begun limit, unmarkedRoot := none } := by
  have room : 0 < limit.toNat := by
    have := mt UInt32.toNat_inj.mp positive
    rw [UInt32.toNat_zero] at this
    omega
  have created : Tree.create (bareStore limit) = .ok { root := 0 } (begun limit).store := by
    simp [Tree.create, allocate, bareStore, begun, pagesInUse, room, bind, EStateM.bind, pure,
      EStateM.pure]
  have tree : storedTree (bareStore limit) = .ok ({ root := 0 }, none) (begun limit).store := by
    show EStateM.bind Tree.create _ (bareStore limit) = _
    rw [EStateM.bind, created]
    rfl
  simp only [ofContents, ofStore, ofContents_bareStore disk, storedSchema_bareStore, tree, bind,
    Except.bind]
  rfl

end Bare

/-- A file of one page is the header and that page. -/
theorem contents_of_single {store after : Store} {header : Page}
    (saved : Store.Saved store header after.disk) (single : store.pagesInUse = 1) :
    ∃ page node, Node.ofPage page = .ok node ∧ store.peek 0 = .ok node ∧
      after.contents = header.bytes ++ page.bytes := by
  obtain ⟨size, first, nodes⟩ := saved
  rw [single, ← Array.length_toList] at size
  obtain ⟨front, page, listed⟩ := List.length_eq_two.mp size
  obtain ⟨page', node, stored, reads, found⟩ := nodes 0 (by rw [single]; decide)
  rw [← Array.getElem?_toList, listed] at first stored
  cases first
  cases stored
  refine ⟨page, node, reads, found, ?_⟩
  rw [contents, listed, List.flatMap_cons, List.flatMap_singleton]

/-- What saving does to a file that a save left behind. The table that was saved writes its file
again. If it has a page and the file has fewer than `2 ^ 32` bytes, the table that is opened on the
file writes the same file. If it has none, opening the file needs room for a page, and begins a tree
whose first leaf is written behind the header. -/
structure SavesAgain (saved : Table) : Prop where
  again : ∀ other, Undisturbed saved other → Writes other saved.store.contents
  reopened : saved.store.pagesInUse ≠ 0 → saved.store.contents.length < UInt32.size →
    ∀ limit : UInt32, ∃ opened, ofContents saved.store.contents limit = .ok opened ∧
      ∀ other, Undisturbed opened.table other → Writes other saved.store.contents
  bare : saved.store.pagesInUse = 0 →
    ofContents saved.store.contents 0 = .error (.shortage (.pages 0)) ∧
    ∀ limit : UInt32, limit ≠ 0 → ∃ opened page,
      ofContents saved.store.contents limit = .ok opened ∧
      Node.ofPage page = .ok (.leaf { rootMark := true }) ∧
      ∀ other, Undisturbed opened.table other → Writes other (saved.store.contents ++ page.bytes)

theorem Sound.writes_first_leaf {table saved : Table} (sound : Sound table)
    (stranded : Stranded table) (saves : Table.save table = .ok () saved) {limit : UInt32}
    (positive : limit ≠ 0) :
    ∃ opened page, ofContents saved.store.contents limit = .ok opened ∧
      Node.ofPage page = .ok (.leaf { rootMark := true }) ∧
      ∀ other, Undisturbed opened.table other →
        Writes other (saved.store.contents ++ page.bytes) := by
  have disk := disk_of_stranded stranded (sound.standing.resettled sound.faithful saves)
  have opens := ofContents_bare disk positive
  have few : saved.store.contents.length < UInt32.size := by
    rw [Store.length_contents, disk]
    decide
  have begins : Sound (begun limit) :=
    (Filed.saved sound.standing sound.faithful saves).sound few opens
  have small : Schema.empty.toBytes.length ≤ Page.size := by decide
  obtain ⟨first, run⟩ := begins.exists_save small
  -- The first save after that writes the leaf, and the next ones find the file written so.
  have settled := (begins.standing.resettled begins.faithful run).store
  obtain ⟨page, node, reads, found, whole⟩ := contents_of_single settled.saved rfl
  cases found
  refine ⟨_, page, opens, reads, fun other undisturbed => ?_⟩
  have bare : saved.store.contents = bareHeader.bytes := by
    rw [contents, disk]
    exact List.flatMap_singleton ..
  rw [bare]
  have again := begins.writes_again run (Unchanged.refl _).matches begins undisturbed
  rw [whole] at again
  exact again

/-- **A table that was saved writes the same file again**, and so does a table that is opened on
the file, unless the table has no page. -/
theorem Evolved.saves_again {table saved : Table} (evolved : Evolved table)
    (saves : save table = .ok () saved) : SavesAgain saved := by
  have sound := evolved.sound
  have resettled := sound.standing.resettled sound.faithful saves
  have filed : Filed saved.store.contents := .saved sound.standing sound.faithful saves
  have pages : saved.store.pagesInUse = table.store.pagesInUse := resettled.store.same.pages
  have soundSaved : Sound saved := by
    have left := sound.save
    rw [leftBy, saves] at left
    exact left
  refine ⟨fun other => ?_, fun used few limit => ?_, fun unused => ?_⟩
  · exact sound.writes_again saves resettled.matches soundSaved
  · rw [pages] at used
    obtain ⟨opened, opens, -, same⟩ := sound.standing.exists_reopened used saves few limit
    refine ⟨opened, opens, fun other => ?_⟩
    exact sound.writes_again saves (resettled.matches.trans same) (filed.sound few opens)
  · rw [pages] at unused
    cases sound.standing with
    | keeps keeps => exact absurd unused (Nat.ne_of_gt keeps.tree.pos)
    | stranded stranded =>
      exact ⟨ofContents_bare_zero (disk_of_stranded stranded resettled),
        fun limit positive => sound.writes_first_leaf stranded saves positive⟩

/-- The row of the saved table is inserted again, which is refused. The file is opened with a limit
of zero, and the rows are read and the tree is checked. -/
theorem saves_again_refused :
    (∃ after, insert [[53]] savedTable = .error (.duplicateKey 5) after ∧
      Writes after savedTable.store.contents) ∧
    ∃ opened, ofContents savedTable.store.contents 0 = .ok opened ∧
      Writes (leftBy Call.check.perform (leftBy Call.rows.perform opened.table))
        savedTable.store.contents := by
  have ordinary : (Call.extendSchema [Column.integers [105, 100]]).Ordinary := by
    intro column member
    rw [List.mem_singleton.mp member]
    exact fun _ => rfl
  have defined := (evolved_fresh (by decide : (1 : UInt32) ≠ 0)).called _ ordinary
  have inserted := defined.called (.insert [[53]]) trivial
  have saves : SavesAgain savedTable := inserted.saves_again rfl
  have few : savedTable.store.contents.length < UInt32.size :=
    inserted.sound.length_contents_lt rfl (by decide)
  refine ⟨?_, ?_⟩
  · have refused : insert [[53]] savedTable = .error (.duplicateKey 5) savedTable := rfl
    exact ⟨savedTable, refused, saves.again savedTable (.rowRefused .start refused)⟩
  · obtain ⟨opened, opens, again⟩ := saves.reopened (by decide) few 0
    exact ⟨opened, opens, again _ (.looked .check (.looked .rows .start rfl) rfl)⟩

/-! ## Clearing without room -/

/-- A table that was cleared with a limit of zero. -/
def bareTable : Table where
  schema := Schema.empty
  store := { limit := 0 }
  tree := { root := 0 }

theorem clear_of_limit_zero {table : Table} (limited : table.store.limit = 0) :
    clear table =
      .error (.shortage (.pages 0)) { bareTable with tree := table.tree } := by
  obtain ⟨schema, ⟨disk, slots, strays, limit, fileSize⟩, tree⟩ := table
  cases limited
  rfl

theorem evolved_bareTable : Evolved bareTable := by
  have new : Evolved (fresh 1) := evolved_fresh (by decide)
  have small : Schema.empty.toBytes.length ≤ Page.size := by decide
  obtain ⟨saved, saves⟩ := new.sound.exists_save small
  have used : (fresh 1).store.pagesInUse ≠ 0 := by decide
  have few := new.sound.length_contents_lt saves (by decide)
  obtain ⟨opened, opens, -, same⟩ := new.sound.standing.exists_reopened used saves few 0
  have resettled := new.sound.standing.resettled new.sound.faithful saves
  have root : opened.table.tree = { root := 0 } := same.tree.trans resettled.tree
  have written : leftBy Call.save.perform (fresh 1) = saved := by
    show leftBy save (fresh 1) = saved
    rw [leftBy, saves]
  have kept := written ▸ new.called .save trivial
  have cleared := (kept.reopened few opens).called .clear trivial
  have left : leftBy Call.clear.perform opened.table = bareTable := by
    show leftBy clear opened.table = bareTable
    rw [leftBy, clear_of_limit_zero (same_of_ofContents opens).2, root]
    rfl
  exact left ▸ cleared

/-- A file without a page is not written again as it was, if there is room for a page. -/
theorem not_saves_again_without_page :
    Evolved bareTable ∧ ∃ saved opened after, save bareTable = .ok () saved ∧
      ofContents saved.store.contents 1 = .ok opened ∧ save opened.table = .ok () after ∧
      after.store.contents ≠ saved.store.contents := by
  have sound := evolved_bareTable.sound
  have small : Schema.empty.toBytes.length ≤ Page.size := by decide
  have stranded : Stranded bareTable := ⟨rfl, regular_empty 0, rfl⟩
  obtain ⟨saved, saves⟩ := sound.exists_save small
  obtain ⟨opened, page, opens, -, writes⟩ :=
    sound.writes_first_leaf stranded saves (by decide : (1 : UInt32) ≠ 0)
  obtain ⟨after, again, longer⟩ := writes opened.table .start
  refine ⟨evolved_bareTable, saved, opened, after, saves, opens, again, fun same => ?_⟩
  have lengths := congrArg List.length (longer.symm.trans same)
  rw [List.length_append, page.length_bytes] at lengths
  have pages : 0 < Page.size := by decide
  omega

end Table

end RowStore
