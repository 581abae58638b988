import Mathlib.Data.List.Forall2
import RowStore.Proofs.Table.Durability

/-!
# What a table contains

Along a run, the insertions that succeed are listed with the schema they found, and the
list begins anew when the table is cleared (`Table.Filled`). The list tells what the table
contains: there is one cell for each insertion, with the bytes of the row that was asked
for under its first value, and the rows that are read are those rows, in the order of
their keys (`Table.HasRows`). Rows are bytes that only the schema gives a meaning to; they
keep it because columns are only added while there is no cell.

A table may be opened with a limit of zero. It can be used, but when it is cleared there is
no room for a new tree once the file is empty, and the clearing fails. What is left has no
column and no page (`Table.Stranded`), and can be saved and opened again.
-/

set_option autoImplicit false

namespace RowStore

open Store

namespace Table

/-! ## Tables without a page -/

/-- The table has no column and no page. -/
structure Stranded (table : Table) : Prop where
  schema : table.schema = Schema.empty
  regular : table.store.view.Regular
  unused : table.store.view.pagesInUse = 0

/-- A new tree is made where no page is in use. -/
theorem storedTree_of_unused {view : View} (regular : view.Regular)
    (unused : view.pagesInUse = 0) :
    Promises view storedTree (fun found after => found.1.Holds after [])
      (fun _ _ => True) := by
  apply Promises.bind
  apply Promises.countPages
  rw [if_pos unused]
  apply Promises.bind
  apply (Tree.holds_create regular unused).weaken
  · rintro tree after ⟨holds, -⟩
    exact .pure holds
  · exact fun _ _ _ => trivial

/-- A file without a column and without a page is opened as a table without a row, if at all. -/
theorem keeps_of_unused {contents : Bytes} {limit : UInt32} {store : Store} {opened : Opened}
    (opens : Store.ofContents contents limit = .ok store) (regular : store.view.Regular)
    (unused : store.view.pagesInUse = 0) (schema : storedSchema store = .ok Schema.empty)
    (run : ofContents contents limit = .ok opened) : opened.table.Keeps [] := by
  simp only [ofContents, ofStore, opens, schema, bind, Except.bind] at run
  split at run
  next => cases run
  next tree unmarkedRoot after grows =>
    cases run
    exact keeps_nil rfl ((storedTree_of_unused regular unused).of_ok grows)

/-- A cleared table has no row, and has no page either if there was no room for one. Its file is
empty in both cases. -/
theorem ends_clear (table : Table) :
    Ends table clear (fun _ after => after.Keeps [] ∧ after.store.contents = [])
      (fun _ after => Stranded after ∧ after.store.contents = []) := by
  show Ends { table with schema := Schema.empty, store := { limit := table.store.limit } }
    (do let tree ← onStore Tree.create; modify fun table => { table with tree }) _ _
  refine .bind (ends_onStore (Tree.holds_create (regular_empty _) rfl) ?_ ?_)
  · rintro tree store ⟨holds, grew⟩
    have disk : store.disk = #[] := grew.disk
    exact ⟨keeps_nil rfl holds, by rw [Store.contents, disk]; rfl⟩
  · rintro fault store ⟨-, same, -⟩
    have disk : store.disk = #[] := congrArg View.disk same
    refine ⟨⟨rfl, ?_, ?_⟩, by rw [Store.contents, disk]; rfl⟩
    · show store.view.Regular
      rw [same]
      exact regular_empty _
    · show store.view.pagesInUse = 0
      rw [same]
      rfl

namespace Stranded

variable {table : Table} (stranded : Stranded table)
include stranded

theorem of_unchanged {other : Table} (same : table.Unchanged other) : Stranded other := by
  refine ⟨same.schema.trans stranded.schema, ?_, ?_⟩
  · rw [same.view]
    exact stranded.regular
  · rw [same.view]
    exact stranded.unused

/-- The file has no page behind its header. -/
theorem nodes_eq_error (id : PageNumber) :
    table.store.view.nodes id = .error (.unreadable id .page) := by
  have beyond : table.store.pagesInUse ≤ id.toNat :=
    Nat.le_trans (Nat.le_of_eq stranded.unused) (Nat.zero_le _)
  have disk : table.store.disk.size ≤ 0 + 1 := stranded.unused ▸ stranded.regular.bounded
  show table.store.peek id = _
  rw [peek_of_not_inMemory (inMemory?_eq_none stranded.regular.closed beyond), inFile,
    Array.getElem?_eq_none (by omega)]

theorem nodes_ne_ok (id : PageNumber) (node : Node) : table.store.view.nodes id ≠ .ok node := by
  rw [stranded.nodes_eq_error]
  exact nofun

theorem hasColumns : table.schema.hasColumns = false := by
  rw [stranded.schema]
  rfl

/-- Columns cannot be added, for want of a root that could be looked at. -/
theorem extendSchema (columns : List Column) :
    Ends table (Table.extendSchema columns) (fun _ _ => False)
      (fun fault after => table.Unchanged after ∧ fault = .unreadable table.tree.root .page) := by
  have isEmpty : Promises table.store.view table.tree.isEmpty (fun _ _ => False)
      (fun fault after =>
        after = table.store.view ∧ fault = .unreadable table.tree.root .page) := by
    refine .bind (.load (fun node found => ?_) fun fault missing _ => ⟨rfl, ?_⟩)
    · cases (stranded.nodes_eq_error _).symm.trans found
    · cases (stranded.nodes_eq_error _).symm.trans missing
      rfl
  apply Ends.bind
  show Ends table _ _ _
  refine .bind (ends_onStore isEmpty (fun _ _ never => never.elim) ?_)
  rintro fault store ⟨same, rfl⟩
  exact ⟨⟨rfl, rfl, same⟩, rfl⟩

theorem insert (words : List Bytes) :
    Table.insert words table = .error .schemaUndefined table := by
  show (if table.schema.hasColumns = true then _ else _ : TableM Unit) table = _
  rw [if_neg (Bool.eq_false_iff.mp stranded.hasColumns)]
  rfl

theorem rows : Table.rows table = .error .schemaUndefined table := by
  show (if table.schema.hasColumns = true then _ else _ : TableM (List Row)) table = _
  rw [if_neg (Bool.eq_false_iff.mp stranded.hasColumns)]
  rfl

/-- Such a table is saved as a header without a column, and opened as a table without a row. -/
theorem save :
    Ends table Table.save
      (fun _ after => Stranded after ∧ ∀ limit opened,
        ofContents after.store.contents limit = .ok opened → opened.table.Keeps [])
      (fun _ _ => False) := by
  have small : table.schema.toBytes.length ≤ Page.size := by
    rw [stranded.schema]
    decide
  have ordinary : table.schema.Ordinary := by
    rw [stranded.schema]
    exact fun _ member => absurd member List.not_mem_nil
  have writable : table.store.view.Writable := by
    intro id inUse
    rw [stranded.unused] at inUse
    exact absurd inUse (Nat.not_lt_zero _)
  obtain ⟨saved, run, regular, same, -, reopen⟩ :=
    Tree.exists_flush stranded.regular writable (Page.ofBytes table.schema.toBytes)
  have unused : saved.pagesInUse = 0 := same.pages.trans stranded.unused
  show Ends table (if table.schema.toBytes.length ≤ Page.size then _ else _) _ _
  rw [if_pos small]
  have step : onStore (flush (Page.ofBytes table.schema.toBytes)) table =
      .ok () { table with store := saved } := by
    rw [onStore, run]
  rw [Ends, step]
  refine ⟨⟨stranded.schema, regular, unused⟩, fun limit opened opens => ?_⟩
  have few : saved.pagesInUse ≤ largestLimit :=
    Nat.le_trans (Nat.le_of_eq unused) (Nat.zero_le _)
  obtain ⟨store, opens', regular', reopened⟩ := reopen (length_contents_lt regular few) limit
  have schema := storedSchema_of_reopened ordinary small reopened
  rw [stranded.schema] at schema
  exact keeps_of_unused opens' regular' (reopened.nodes.pages.trans unused) schema opens

end Stranded

/-! ## Runs with a list of the insertions -/

/-- The insertions since the table was last cleared, after one more request: the latest first, each
with the schema that it found. -/
def Request.record (request : Request) (schema : Schema) (succeeded : Bool)
    (accepted : List (Schema × List Bytes)) : List (Schema × List Bytes) :=
  match request, succeeded with
  | insert words, true => (schema, words) :: accepted
  | clear, _ => []
  | _, _ => accepted

/-- A table in a state that a run reaches from an empty file, with the insertions that succeeded
since it was last cleared. Limits may be anything, also zero, and files are opened if their size
fits a word. -/
inductive Filled : Table → List (Schema × List Bytes) → Prop where
  | created {limit : UInt32} {opened : Opened} :
      ofContents [] limit = .ok opened → Filled opened.table []
  | answered {table after : Table} {accepted : List (Schema × List Bytes)} {request : Request} :
      Filled table accepted → request.Ordinary → request.perform table = .ok () after →
      Filled after (request.record table.schema true accepted)
  | refused {table after : Table} {accepted : List (Schema × List Bytes)} {request : Request}
      {fault : Fault} :
      Filled table accepted → request.Ordinary → request.perform table = .error fault after →
      Filled after (request.record table.schema false accepted)
  | reopened {table saved : Table} {accepted : List (Schema × List Bytes)} {limit : UInt32}
      {opened : Opened} :
      Filled table accepted → save table = .ok () saved →
      saved.store.contents.length < UInt32.size →
      ofContents saved.store.contents limit = .ok opened → Filled opened.table accepted

/-! ## Cells and insertions -/

/-- The insertion was made with the given schema, and its row is what the cell holds. -/
def Describes (schema : Schema) (entry : Schema × List Bytes) (cell : Key × Bytes) : Prop :=
  entry.1 = schema ∧ ∃ row, schema.rowOfWords entry.2 = .ok row ∧ keyOf row = .ok cell.1 ∧
    schema.rowToBytes row = .ok cell.2

/-- The insertions account for what is in the table. -/
inductive Accounted (table : Table) : List (Schema × List Bytes) → Prop where
  | standing {accepted : List (Schema × List Bytes)} {cells : List (Key × Bytes)} :
      table.Keeps cells → List.Forall₂ (Describes table.schema) accepted cells →
      Accounted table accepted
  | stranded : Stranded table → Accounted table []

theorem Accounted.of_unchanged {table other : Table} {accepted : List (Schema × List Bytes)}
    (accounted : Accounted table accepted) (same : table.Unchanged other) :
    Accounted other accepted := by
  cases accounted with
  | standing keeps described => exact .standing (same.keeps keeps) (same.schema ▸ described)
  | stranded stranded => exact .stranded (stranded.of_unchanged same)

/-- **After every request, the insertions account for what is in the table.** -/
theorem Accounted.perform {table : Table} {accepted : List (Schema × List Bytes)}
    (accounted : Accounted table accepted) {request : Request} (ordinary : request.Ordinary) :
    Ends table request.perform
      (fun _ after => Accounted after (request.record table.schema true accepted))
      (fun _ after => Accounted after (request.record table.schema false accepted)) := by
  have unchanged : ∀ (fault : Fault) (after : Table), table.Unchanged after →
      Accounted after accepted := fun _ _ same => accounted.of_unchanged same
  cases request with
  | extendSchema columns =>
    cases accounted with
    | standing keeps described =>
      refine (keeps.extendSchema ordinary).weaken ?_ fun fault after failed =>
        unchanged fault after failed.1
      rintro _ after ⟨rfl, -, keeps', -⟩
      cases described
      exact .standing keeps' .nil
    | stranded stranded =>
      exact (stranded.extendSchema columns).weaken (fun _ _ never => never.elim)
        fun fault after failed => unchanged fault after failed.1
  | insert words =>
    cases accounted with
    | standing keeps described =>
      refine (keeps.insert words).weaken ?_ fun fault after failed =>
        unchanged fault after failed.1
      rintro _ after ⟨row, key, bytes, parsed, keyed, written, -, schema, keeps', -⟩
      refine .standing keeps' ?_
      rw [schema]
      exact .cons ⟨rfl, row, parsed, keyed, written⟩ described
    | stranded stranded =>
      show Ends table (Table.insert words) _ _
      rw [Ends, stranded.insert]
      exact .stranded stranded
  | rows =>
    cases accounted with
    | standing keeps described =>
      obtain ⟨ordered, -, -, -, ends⟩ := keeps.rows
      refine .bind (ends.weaken ?_ fun fault after failed => unchanged fault after failed.1)
      rintro found after ⟨same, -⟩
      exact Accounted.of_unchanged (.standing keeps described) same
    | stranded stranded =>
      apply Ends.bind
      rw [Ends, stranded.rows]
      exact .stranded stranded
  | save =>
    cases accounted with
    | standing keeps described =>
      refine keeps.save.weaken ?_ ?_
      · rintro _ after ⟨-, same, keeps', -⟩
        exact .standing keeps' (same.schema ▸ described)
      · rintro fault after ⟨rfl, -⟩
        exact .standing keeps described
    | stranded stranded => exact stranded.save.mono fun _ _ done => .stranded done.1
  | clear =>
    refine (ends_clear table).weaken ?_ ?_
    · exact fun _ after cleared => .standing cleared.1 .nil
    · exact fun _ after cleared => .stranded cleared.1

theorem Accounted.reopen {table saved : Table} {accepted : List (Schema × List Bytes)}
    {limit : UInt32} {opened : Opened} (accounted : Accounted table accepted)
    (saves : save table = .ok () saved) (small : saved.store.contents.length < UInt32.size)
    (opens : ofContents saved.store.contents limit = .ok opened) :
    Accounted opened.table accepted := by
  cases accounted with
  | standing keeps described =>
    obtain ⟨-, same, -, -, found⟩ := keeps.save.of_ok saves
    obtain ⟨opened', opens', -, sameThere, keeps', -, -⟩ := found limit small
    cases opens.symm.trans opens'
    refine .standing keeps' ?_
    rw [sameThere.schema, same.schema]
    exact described
  | stranded stranded =>
    exact .standing ((stranded.save.of_ok saves).2 limit opened opens) .nil

/-- In every state of a run, the insertions account for what is in the table. -/
theorem Filled.accounted {table : Table} {accepted : List (Schema × List Bytes)}
    (filled : Filled table accepted) : Accounted table accepted := by
  induction filled with
  | created opens =>
    exact .standing (keeps_of_unused (Store.ofContents_nil _) (regular_empty _) rfl rfl opens) .nil
  | answered _ ordinary run ih => exact (ih.perform ordinary).of_ok run
  | refused _ ordinary run ih => exact (ih.perform ordinary).of_error run
  | reopened _ saves small opens ih => exact ih.reopen saves small opens

/-! ## Cells and rows -/

/-- The bytes of a cell are those of a row that begins with its key. -/
def Reads (schema : Schema) (cell : Key × Bytes) (row : Row) : Prop :=
  schema.rowOfBytes cell.2 = .ok row ∧ row.head? = some (.integer cell.1)

theorem head?_of_keyOf {row : Row} {key : Key} (keyed : keyOf row = .ok key) :
    row.head? = some (.integer key) := by
  unfold keyOf at keyed
  split at keyed
  · cases keyed
    rfl
  · cases keyed

theorem length_of_rowOfBytes {schema : Schema} {bytes : Bytes} {row : Row}
    (reads : schema.rowOfBytes bytes = .ok row) : bytes.length = schema.rowWidth := by
  unfold Schema.rowOfBytes at reads
  split at reads
  next whole => exact whole
  next => cases reads

theorem Keeps.exists_reads {table : Table} {cells : List (Key × Bytes)} (keeps : table.Keeps cells)
    {cell : Key × Bytes} (member : cell ∈ cells) :
    cell.2.length = table.schema.rowWidth ∧ ∃ row, Reads table.schema cell row := by
  obtain ⟨row, reads, keyed⟩ := keeps.readable cell member
  exact ⟨length_of_rowOfBytes reads, row, reads, head?_of_keyOf keyed⟩

/-- Without a column there is no value that could be a key. -/
theorem Reads.hasColumns {schema : Schema} {cell : Key × Bytes} {row : Row}
    (reads : Reads schema cell row) : schema.hasColumns = true := by
  obtain ⟨read, first⟩ := reads
  rw [Schema.hasColumns, Bool.not_eq_true']
  cases none : schema.columns with
  | nil =>
    rw [Schema.rowOfBytes, none] at read
    split at read
    next =>
      cases read
      cases first
    next => cases read
  | cons column columns => rfl

theorem mapM_of_forall₂ {fault α β : Type} {read : α → Except fault β} {values : List α}
    {results : List β}
    (each : List.Forall₂ (fun value result => read value = .ok result) values results) :
    values.mapM read = .ok results := by
  induction each with
  | nil => rfl
  | cons first _ ih =>
    rw [List.mapM_cons, first, ih]
    rfl

/-- The rows that the insertions asked for are those of the cells, but for the padding of
texts. -/
theorem exists_parsed {schema : Schema} (ordinary : schema.Ordinary)
    {accepted : List (Schema × List Bytes)} {cells : List (Key × Bytes)}
    (described : List.Forall₂ (Describes schema) accepted cells) :
    ∃ parsed, (accepted.mapM fun entry => entry.1.rowOfWords entry.2) = .ok parsed ∧
      List.Forall₂ (Reads schema) cells (parsed.map (List.map Value.unpadded)) := by
  induction described with
  | nil => exact ⟨[], rfl, .nil⟩
  | @cons entry cell _ _ first _ ih =>
    obtain ⟨rfl, row, words, keyed, written⟩ := first
    obtain ⟨parsed, others, reads⟩ := ih
    refine ⟨row :: parsed, ?_, .cons ⟨?_, ?_⟩ reads⟩
    · rw [List.mapM_cons, words, others]
      rfl
    · exact (Schema.rowOfBytes_of_rowToBytes ordinary written).2
    · exact head?_of_keyOf (keyOf_unpadded keyed)

theorem map_head?_of_reads {schema : Schema} {cells : List (Key × Bytes)} {rows : List Row}
    (reads : List.Forall₂ (Reads schema) cells rows) :
    rows.map List.head? = (cells.map Prod.fst).map fun key => some (.integer key) := by
  induction reads with
  | nil => rfl
  | cons first _ ih => rw [List.map_cons, List.map_cons, List.map_cons, first.2, ih]

theorem rowsOf_of_reads {schema : Schema} {cells : List (Key × Bytes)} {rows : List Row}
    (reads : List.Forall₂ (Reads schema) cells rows) : rowsOf schema cells = .ok rows := by
  refine mapM_of_forall₂ (reads.imp fun cell row read => ?_)
  rw [read.1]
  rfl

/-! ## What the rows are -/

/-- The table contains the rows of the given insertions, and nothing else.

On every page, there is a value for each key, which has as many bytes as a row of the schema, and is
a row that begins with the key. The insertions were made with the schema that the table still has.
If there is a column, the rows are those that the insertions asked for, without the zero bytes at
the end of texts, and their first values ascend. If there is none, nothing was inserted, and there
is no cell on any page. -/
structure HasRows (table : Table) (accepted : List (Schema × List Bytes)) : Prop where
  values : ∀ id leaf, table.store.peek id = .ok (.leaf leaf) →
    leaf.values.length = leaf.keys.length ∧
    ∀ cell ∈ leaf.cells, cell.2.length = table.schema.rowWidth ∧
      ∃ row, table.schema.rowOfBytes cell.2 = .ok row ∧ row.head? = some (.integer cell.1)
  schema : ∀ entry ∈ accepted, entry.1 = table.schema
  rows : table.schema.hasColumns = true →
    ∃ (parsed found : List Row) (keys : List Key),
    (accepted.mapM fun entry => entry.1.rowOfWords entry.2) = .ok parsed ∧
    answer Table.rows table = .ok found ∧
    found.Perm (parsed.map (List.map Value.unpadded)) ∧
    found.map List.head? = keys.map (fun key => some (.integer key)) ∧
    keys.Pairwise (· < ·)
  empty : table.schema.hasColumns = false → accepted = [] ∧
    ∀ id leaf, table.store.peek id = .ok (.leaf leaf) → leaf.keys = [] ∧ leaf.values = []

theorem Keeps.hasRows_of_described {table : Table} {accepted : List (Schema × List Bytes)}
    {cells : List (Key × Bytes)} (keeps : table.Keeps cells)
    (described : List.Forall₂ (Describes table.schema) accepted cells) :
    HasRows table accepted := by
  have values : ∀ id leaf, table.store.peek id = .ok (.leaf leaf) →
      leaf.values.length = leaf.keys.length ∧ ∀ cell ∈ leaf.cells, cell ∈ cells :=
    fun id leaf found => keeps.tree.mem_of_leaf found
  refine ⟨fun id leaf found => ?_, fun entry member => ?_, fun defined => ?_, fun undefined => ?_⟩
  · obtain ⟨matched, within⟩ := values id leaf found
    exact ⟨matched, fun cell member => keeps.exists_reads (within cell member)⟩
  · exact ((List.forall₂_and_left _ _).mp described).1 entry member
  · obtain ⟨ordered, same, ascending, -, answers⟩ := keeps.answer_rows
    obtain ⟨parsed, words, reads⟩ := exists_parsed keeps.ordinary described
    obtain ⟨found, inOrder, listed⟩ := List.perm_comp_forall₂ same reads
    refine ⟨parsed, found, ordered.map Prod.fst, words, ?_, listed, map_head?_of_reads inOrder, ?_⟩
    · rw [answers, if_pos defined, rowsOf_of_reads inOrder]
    · rw [List.pairwise_map]
      exact ascending
  · have none : cells = [] := by
      refine List.eq_nil_iff_forall_not_mem.mpr fun cell member => ?_
      obtain ⟨-, row, reads⟩ := keeps.exists_reads member
      cases undefined.symm.trans reads.hasColumns
    subst none
    cases described
    refine ⟨rfl, fun id leaf found => ?_⟩
    obtain ⟨matched, within⟩ := values id leaf found
    have keys := Leaf.map_fst_cells matched
    rw [List.eq_nil_iff_forall_not_mem.mpr fun cell member =>
      List.not_mem_nil (within cell member), List.map_nil] at keys
    rw [← keys] at matched ⊢
    exact ⟨rfl, List.eq_nil_of_length_eq_zero matched⟩

/-- **A table contains the rows that were inserted since it was last cleared**, each as it was asked
for but for the zero bytes at the end of texts. -/
theorem Filled.hasRows {table : Table} {accepted : List (Schema × List Bytes)}
    (filled : Filled table accepted) : HasRows table accepted := by
  cases filled.accounted with
  | standing keeps described => exact keeps.hasRows_of_described described
  | stranded stranded =>
    have missing : ∀ id leaf, table.store.peek id ≠ .ok (.leaf leaf) :=
      fun id leaf => stranded.nodes_ne_ok id _
    refine ⟨fun id leaf found => absurd found (missing id leaf),
      fun _ member => absurd member List.not_mem_nil, fun defined => ?_,
      fun _ => ⟨rfl, fun id leaf found => absurd found (missing id leaf)⟩⟩
    cases stranded.hasColumns.symm.trans defined

/-- A schema with a column of integers and a column of short texts. -/
def noteSchema : Schema where
  columns := [Column.integers [105, 100], Column.texts [110] 2]

/-- A table with two rows, which were inserted in descending order. -/
def noteTable : Table where
  schema := noteSchema
  store := {
    slots := #[some (.leaf { rootMark := true, keys := [5, 7],
                             values := [[5, 0, 0, 0, 0, 0], [7, 0, 0, 0, 97, 0]] })]
    limit := 1 }
  tree := { root := 0 }

/-- A run with a row that is cleared away, two rows that stay, and one that is refused. -/
theorem filled_note :
    Filled noteTable [(noteSchema, [[53], []]), (noteSchema, [[55], [97, 0]])] := by
  have ordinary : (Request.extendSchema noteSchema.columns).Ordinary := by
    intro column member
    rcases List.mem_pair.mp member with rfl | rfl
    · exact fun _ => rfl
    · exact fun never => by cases never
  have clears : Request.clear.Ordinary := trivial
  have created : Filled (fresh 1) [] :=
    .created (rfl : ofContents [] 1 = .ok { table := fresh 1, unmarkedRoot := none })
  have defined := created.answered ordinary rfl
  have early := defined.answered (ordinary_insert [[57], []]) rfl
  have cleared : Filled (fresh 1) [] := early.answered clears rfl
  have again := cleared.answered ordinary rfl
  have first := again.answered (ordinary_insert [[55], [97, 0]]) rfl
  have second := first.answered (ordinary_insert [[53], []]) rfl
  have duplicate : (Request.insert [[53], [98]]).perform noteTable =
      .error (.duplicateKey 5) noteTable := rfl
  exact second.refused (ordinary_insert [[53], [98]]) duplicate

theorem hasRows_note :
    HasRows noteTable [(noteSchema, [[53], []]), (noteSchema, [[55], [97, 0]])] ∧
      answer Table.rows noteTable =
        .ok [[.integer 5, .text []], [.integer 7, .text [97]]] :=
  ⟨filled_note.hasRows, rfl⟩

end Table

end RowStore
