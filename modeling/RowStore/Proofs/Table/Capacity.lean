import RowStore.Proofs.Table.Evolution
import RowStore.Proofs.Tree.Filling
import RowStore.Proofs.Wording

/-!
# When a table is full

All rows of a table take the same number of bytes. So a leaf that has no room for one more
can always be cut (`Leaf.canDivideAt_of_even`), and its halves take the row. A row that
words describe can always be written, in a column of integers it begins with a key, and it
fits a page because that is how columns are admitted. What is left is the number of pages:
a new row is refused where its leaf has no room and the cuts would take more pages than
there are left, and nowhere else (`Table.Evolved.inserts_unless_full`).
-/

set_option autoImplicit false

namespace RowStore

open Store

/-! ## Trees with values of one length -/

/-- What decides about a key in a tree: the leaf where it belongs, the pages that cutting the leaf
takes, and the height of the tree. -/
structure Tree.Site (tree : Tree) (store : Store) (key : Key) (leaf : Leaf)
    (needed height : Nat) : Prop where
  search : ∃ page, answer (tree.leafFor key) store = .ok page ∧ store.peek page = .ok (.leaf leaf)
  counted : answer (Tree.pagesToDivide leaf) store = .ok needed
  measured : answer tree.height store = .ok height
  within : needed ≤ height + 1

/-- The key is not stored. -/
def Store.Lacks (store : Store) (key : Key) : Prop :=
  ∀ id leaf, store.peek id = .ok (.leaf leaf) → key ∉ leaf.keys

/-- **With values of one length, only the number of pages stands against a new value.** -/
theorem Tree.Holds.insert_even {tree : Tree} {store : Store} {cells : List (Key × Bytes)}
    (holds : tree.Holds store.view cells) {key : Key} {value : Bytes}
    (even : ∀ cell ∈ cells, cell.2.length = value.length) (new : store.Lacks key)
    (ordinary : value.length ≤ maxValueLength) :
    ∃ leaf needed height, tree.Site store key leaf needed height ∧
      Promises store.view (tree.insert key value)
        (fun _ _ => leaf.hasRoomFor value.length = true ∨
          store.pagesInUse + needed ≤ store.limit.toNat)
        (fun fault after => after = store.view ∧ leaf.hasRoomFor value.length = false ∧
          store.limit.toNat < store.pagesInUse + needed ∧ fault = .shortage (.split needed)) := by
  have within : ∀ page leaf, store.view.nodes page = .ok (.leaf leaf) →
      ∀ cell ∈ leaf.cells, cell.2.length = value.length :=
    fun page leaf found cell member => even cell ((holds.mem_of_leaf found).2 cell member)
  obtain ⟨regular, levels, row, above, layout, -⟩ := holds
  obtain ⟨front, region, back, leaf, rfl, found, fits, has, search⟩ := layout.exists_leafFor key
  obtain ⟨_, after, run, few, -, needed, rfl, higher⟩ :=
    (layout.pagesToDivide (by simp) found).exists_ok
  refine ⟨leaf, needed + 1, levels + 1, ⟨⟨region.1, search.answer_eq_ok, found⟩, ?_,
    layout.height.answer_eq_ok, few⟩, ?_⟩
  · rw [answer, run]
  refine (layout.insert regular found has search).weaken ?_ ?_
  · rintro tree' after' ⟨-, -, grown⟩
    obtain ⟨levels', row', above', -, entered⟩ := grown.layout
    cases entered with
    | whole room => exact .inl room
    | halves full divides counted enough =>
      cases higher.unique counted
      exact .inr enough
  · rintro fault after' ⟨rfl, declined⟩
    cases declined with
    | long long => exact absurd ordinary (Nat.not_le_of_lt long)
    | present present =>
      have member := (Leaf.hasKey_iff fits.separates.ascending).mp present
      exact absurd member (new region.1 leaf found)
    -- This is where the values have to be of one length: otherwise a half may be too large.
    | uncut _ full uncut =>
      refine absurd ?_ uncut
      exact Leaf.canDivideAt_of_even fits.matched (within region.1 leaf found) rfl fits.small key
        ordinary full
    | scarce _ full _ counted scarce =>
      cases higher.unique counted
      exact ⟨rfl, Bool.eq_false_iff.mpr full, scarce, rfl⟩

namespace Table

/-! ## Rows with a key -/

/-- A row whose first column is one of integers begins with a key. -/
theorem exists_keyOf {schema : Schema} {column : Column} {columns : List Column}
    (columnsOf : schema.columns = column :: columns) (integers : column.kind = .integer)
    {words : List Bytes} {row : Row} (parsed : schema.rowOfWords words = .ok row) :
    ∃ key, keyOf row = .ok key := by
  unfold Schema.rowOfWords at parsed
  rw [columnsOf] at parsed
  split at parsed
  next matched =>
    cases words with
    | nil => cases matched
    | cons word words =>
      obtain ⟨value, here, more⟩ := exists_of_bind_eq_ok parsed
      obtain ⟨others, -, done⟩ := exists_of_bind_eq_ok more
      cases done
      unfold Column.valueOfWord at here
      rw [integers] at here
      dsimp only at here
      split at here
      next number reads =>
        cases here
        exact ⟨number, rfl⟩
      next => cases here
  next => cases parsed

/-- Inserting a row that can be written comes down to inserting its bytes into the tree. -/
theorem ends_insert_of_row {table : Table} {words : List Bytes} {row : Row} {key : Key}
    {bytes : Bytes} {done : Tree → View → Prop} {failed : Fault → View → Prop}
    (defined : table.schema.hasColumns = true) (parsed : table.schema.rowOfWords words = .ok row)
    (keyed : keyOf row = .ok key) (written : table.schema.rowToBytes row = .ok bytes)
    (promise : Promises table.store.view (table.tree.insert key bytes) done failed) :
    Ends table (insert words) (fun _ after => done after.tree after.store.view)
      (fun fault after => after.schema = table.schema ∧ after.tree = table.tree ∧
        failed fault after.store.view) := by
  apply Ends.bind
  show Ends table (if table.schema.hasColumns = true then _ else _) _ _
  rw [if_pos defined, parsed]
  refine .bind (ends_lift (fun row' same => ?_) nofun)
  cases same
  rw [keyed]
  refine .bind (ends_lift (fun key' same => ?_) nofun)
  cases same
  rw [written]
  refine .bind (ends_lift (fun bytes' same => ?_) nofun)
  cases same
  refine .bind (ends_onStore promise ?_ ?_)
  · exact fun tree store grown => grown
  · exact fun fault store refused => ⟨rfl, rfl, refused⟩

/-! ## Full tables -/

/-- The table refuses the words exactly if the leaf for their row has no room and too few pages are
left to cut it. The fault says how many pages that takes, and nothing has changed. With one more
page left than the tree has levels, the row is inserted. -/
structure AdmitsUnlessFull (table : Table) (words : List Bytes) (leaf : Leaf)
    (needed height : Nat) : Prop where
  refused_iff : (∃ fault after, insert words table = .error fault after) ↔
    leaf.hasRoomFor table.schema.rowWidth = false ∧
      table.store.limit.toNat < table.store.pagesInUse + needed
  refusal : ∀ fault after, insert words table = .error fault after →
    fault = .shortage (.split needed) ∧ table.Unchanged after ∧
      fault.message =
        text "Table is full, inserting needs " ++ Decimal.ofNat needed ++ text " more pages"
  spare : table.store.pagesInUse + height + 1 ≤ table.store.limit.toNat →
    ∃ after, insert words table = .ok () after

/-- **A new row is refused only where the limit of pages is reached.** If words describe a row and
the first column is one of integers, the row begins with a key and can be written. If the key is not
stored, then the row is inserted unless its leaf has no room and too few pages are left. -/
theorem Evolved.inserts_unless_full {table : Table} (evolved : Evolved table) {column : Column}
    {columns : List Column} (columnsOf : table.schema.columns = column :: columns)
    (integers : column.kind = .integer) {words : List Bytes} {row : Row}
    (parsed : table.schema.rowOfWords words = .ok row) :
    ∃ key bytes, keyOf row = .ok key ∧ table.schema.rowToBytes row = .ok bytes ∧
      bytes.length = table.schema.rowWidth ∧
      (table.store.Lacks key → ∃ leaf needed height,
        table.tree.Site table.store key leaf needed height ∧
        table.AdmitsUnlessFull words leaf needed height) := by
  have defined : table.schema.hasColumns = true := by
    rw [Schema.hasColumns, columnsOf]
    rfl
  cases evolved.sound.standing with
  | stranded stranded => cases defined.symm.trans stranded.hasColumns
  | @keeps cells keeps =>
    obtain ⟨key, keyed⟩ := exists_keyOf columnsOf integers parsed
    obtain ⟨bytes, written, width⟩ := Schema.exists_rowToBytes keeps.ordinary parsed
    refine ⟨key, bytes, keyed, written, width, fun new => ?_⟩
    have even : ∀ cell ∈ cells, cell.2.length = bytes.length :=
      fun cell member => (keeps.exists_reads member).1.trans width.symm
    have ordinary : bytes.length ≤ maxValueLength := width ▸ table.schema.totalWidth_le
    obtain ⟨leaf, needed, height, site, promise⟩ := keeps.tree.insert_even even new ordinary
    have ends := ends_insert_of_row defined parsed keyed written promise
    rw [width] at ends
    refine ⟨leaf, needed, height, site, ⟨⟨?_, ?_⟩, ?_, ?_⟩⟩
    · rintro ⟨fault, after, refuses⟩
      obtain ⟨-, -, -, full, scarce, -⟩ := ends.of_error refuses
      exact ⟨full, scarce⟩
    · rintro ⟨full, scarce⟩
      cases run : insert words table with
      | ok _ after =>
        rcases ends.of_ok run with room | enough
        · cases full.symm.trans room
        · exact absurd enough (Nat.not_le_of_lt scarce)
      | error fault after => exact ⟨fault, after, rfl⟩
    · intro fault after refuses
      obtain ⟨schema, tree, same, -, -, rfl⟩ := ends.of_error refuses
      exact ⟨rfl, ⟨schema, tree, same⟩, Fault.message_shortage _⟩
    · intro spare
      cases run : insert words table with
      | ok _ after => exact ⟨after, rfl⟩
      | error fault after =>
        obtain ⟨-, -, -, -, scarce, -⟩ := ends.of_error run
        have few := site.within
        omega

/-- A table that may use one page, and whose two rows fill it. -/
def fullTable : Table where
  schema := wideSchema
  store := {
    slots := #[some (.leaf { rootMark := true, keys := [1, 2],
                             values := [[1, 0, 0, 0] ++ List.replicate 2000 0,
                                        [2, 0, 0, 0] ++ List.replicate 2000 0] })]
    limit := 1 }
  tree := { root := 0 }

theorem evolved_full : Evolved fullTable := by
  have filled : wideTable 1 [[[49], []], [[50], []]] = fullTable := by decide +kernel
  rw [← filled]
  exact evolved_wideTable (by decide) _

theorem lacks_full : fullTable.store.Lacks 3 := by
  intro id leaf found
  have inUse : id.toNat < 1 := evolved_full.sound.standing.regular.closed id _ found
  have first : id = 0 := UInt32.toNat_inj.mp (Nat.lt_one_iff.mp inUse)
  subst first
  cases found
  decide

/-- A third row would take two more pages, one for the upper half of the leaf and one for a root. -/
theorem inserts_unless_full_third :
    ∃ leaf after, fullTable.store.peek 0 = .ok (.leaf leaf) ∧ leaf.hasRoomFor 2004 = false ∧
      insert [[51], []] fullTable = .error (.shortage (.split 2)) after ∧
      fullTable.Unchanged after := by
  have parsed : fullTable.schema.rowOfWords [[51], []] = .ok [.integer 3, .text []] := by decide
  obtain ⟨key, bytes, keyed, -, -, decides⟩ := evolved_full.inserts_unless_full rfl rfl parsed
  cases keyed
  obtain ⟨leaf, needed, height, site, admits⟩ := decides lacks_full
  obtain ⟨page, search, found⟩ := site.search
  have searched : answer (fullTable.tree.leafFor 3) fullTable.store = .ok 0 := by decide +kernel
  cases searched.symm.trans search
  have few : leaf.hasRoomFor fullTable.schema.rowWidth = false := by
    cases found
    decide +kernel
  have counted : answer (Tree.pagesToDivide leaf) fullTable.store = .ok 2 := by
    cases found
    decide +kernel
  cases counted.symm.trans site.counted
  obtain ⟨fault, after, refuses⟩ := admits.refused_iff.mpr ⟨few, by decide⟩
  obtain ⟨rfl, same, -⟩ := admits.refusal fault after refuses
  exact ⟨leaf, after, found, few, refuses, same⟩

end Table

end RowStore
