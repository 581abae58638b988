import RowStore.Proofs.Table.Steps

/-!
# Saving, clearing and opening

A table that is saved is the table that is opened on its file afterwards
(`Table.Keeps.save`): the header gives the schema back, the pages give the nodes back,
and the way up from the first page ends at the root, which is marked. A table that is
cleared is a new table if it may use a page, and its file is empty, so opening the file
gives a new table (`Table.clear_eq`).

Both can be said in the same way: the file holds the table (`Table.Stored`).
-/

set_option autoImplicit false

namespace RowStore

open Store

namespace Table

/-! ## What a file holds -/

/-- The other table has the same schema and root, and the same nodes on the same pages. -/
structure Matches (table other : Table) : Prop where
  schema : other.schema = table.schema
  tree : other.tree = table.tree
  nodes : table.store.SameNodes other.store

theorem Matches.trans {table other third : Table} (first : table.Matches other)
    (second : other.Matches third) : table.Matches third :=
  ⟨second.schema.trans first.schema, second.tree.trans first.tree,
    second.nodes.nodes.trans first.nodes.nodes, second.nodes.pages.trans first.nodes.pages⟩

theorem Unchanged.matches {table other : Table} (same : table.Unchanged other) :
    table.Matches other :=
  ⟨same.schema, same.tree, congrArg View.nodes same.view, congrArg View.pagesInUse same.view⟩

/-- Whoever opens the file finds the table and its rows, with nothing to be repaired, if the size
of the file fits a word. -/
def Stored (contents : Bytes) (table : Table) (cells : List (Key × Bytes)) : Prop :=
  contents.length < UInt32.size → ∀ limit : UInt32, limit ≠ 0 → ∃ opened,
    ofContents contents limit = .ok opened ∧ opened.unmarkedRoot = none ∧
    table.Matches opened.table ∧ opened.table.Holds cells ∧ opened.table.store.contents = contents

/-- Tables with the same schema and the same cells have the same rows. -/
theorem answer_rows_congr {table other : Table} {cells : List (Key × Bytes)}
    (holds : table.Holds cells) (holds' : other.Holds cells) (same : other.schema = table.schema) :
    answer rows other = answer rows table := by
  obtain ⟨ordered, listed, ascending, -, answers⟩ := holds.answer_rows
  obtain ⟨ordered', listed', ascending', -, answers'⟩ := holds'.answer_rows
  have equal : ordered' = ordered := by
    refine (listed'.trans listed.symm).eq_of_pairwise (fun first second _ _ before after => ?_)
      ascending' ascending
    exact absurd (Int32.lt_trans before after) Int32.lt_irrefl
  rw [answers, answers', equal, same]

/-! ## Opening -/

/-- The tree in a store is found again from its first page. -/
theorem storedTree_of_holds {view : View} {tree : Tree} {cells : List (Key × Bytes)}
    (holds : tree.Holds view cells) :
    Promises view storedTree (fun found after => found = (tree, none) ∧ after = view)
      (fun _ _ => False) := by
  apply Promises.bind
  apply Promises.countPages
  rw [if_neg (Nat.ne_of_gt holds.pos)]
  apply Promises.bind
  apply holds.rootAbove_first.mono
  rintro root after ⟨rfl, rfl⟩
  obtain ⟨node, found, marked⟩ := holds.marked
  refine .bind (.load_of found ?_)
  rw [if_pos marked]
  exact .pure ⟨rfl, rfl⟩

/-- The schema is read back from the header of a saved file. -/
theorem storedSchema_of_reopened {schema : Schema} {saved opened : Store} {limit : UInt32}
    (ordinary : schema.Ordinary) (fits : schema.toBytes.length ≤ Page.size)
    (reopened : Tree.Reopened saved opened (Page.ofBytes schema.toBytes) limit) :
    storedSchema opened = .ok schema := by
  rw [storedSchema, if_neg reopened.fileSize, reopened.header]
  dsimp only
  rw [Schema.ofBytes_page ordinary fits]
  rfl

/-- A saved store, opened as a table. -/
theorem ofContents_of_reopened {table : Table} {cells : List (Key × Bytes)}
    {saved opened : Store} {limit : UInt32} (ordinary : table.schema.Ordinary)
    (fits : table.schema.toBytes.length ≤ Page.size)
    (opens : Store.ofContents saved.contents limit = .ok opened)
    (holds : table.tree.Holds opened.view cells)
    (reopened : Tree.Reopened saved opened (Page.ofBytes table.schema.toBytes) limit) :
    ∃ walked : Store, walked.view = opened.view ∧
      ofContents saved.contents limit =
        .ok { table := { table with store := walked }, unmarkedRoot := none } := by
  obtain ⟨found, walked, run, rfl, same⟩ := (storedTree_of_holds holds).exists_ok
  refine ⟨walked, same, ?_⟩
  have schema := storedSchema_of_reopened ordinary fits reopened
  simp only [ofContents, ofStore, opens, schema, run, bind, Except.bind]
  rfl

/-! ## Saving -/

/-- Whoever opens the file with the given limit finds the table and its rows, with nothing to be
repaired, if the size of the file fits a word. -/
def Found (contents : Bytes) (table : Table) (cells : List (Key × Bytes)) (limit : UInt32) : Prop :=
  contents.length < UInt32.size → ∃ opened, ofContents contents limit = .ok opened ∧
    opened.unmarkedRoot = none ∧ table.Matches opened.table ∧ opened.table.Keeps cells ∧
    opened.table.store.limit = limit ∧ opened.table.store.contents = contents

/-- **A table is saved as a whole, unless its schema is too large**, and then nothing at all is
written. -/
theorem Keeps.save {table : Table} {cells : List (Key × Bytes)} (keeps : table.Keeps cells) :
    Ends table save
      (fun _ after => table.schema.toBytes.length ≤ Page.size ∧ table.Matches after ∧
        after.Keeps cells ∧ after.store.limit = table.store.limit ∧
        ∀ limit, Found after.store.contents after cells limit)
      (fun fault after => after = table ∧
        fault = .shortage (.header table.schema.toBytes.length) ∧
        Page.size < table.schema.toBytes.length) := by
  apply Ends.bind
  show Ends table (if table.schema.toBytes.length ≤ Page.size then _ else _) _ _
  split
  next fits =>
    obtain ⟨saved, run, standing, same, isLimit, reopen⟩ :=
      keeps.tree.flush (Page.ofBytes table.schema.toBytes)
    have step : onStore (flush (Page.ofBytes table.schema.toBytes)) table =
        .ok () { table with store := saved } := by
      rw [onStore, run]
    rw [Ends, step]
    refine ⟨fits, ⟨rfl, rfl, same⟩, ⟨keeps.ordinary, standing, keeps.readable⟩, isLimit,
      fun limit small => ?_⟩
    obtain ⟨opened, opens, standing', reopened⟩ := reopen small limit
    obtain ⟨walked, view, result⟩ :=
      ofContents_of_reopened keeps.ordinary fits opens standing' reopened
    have nodes : walked.peek = opened.peek := congrArg View.nodes view
    have pages : walked.pagesInUse = opened.pagesInUse := congrArg View.pagesInUse view
    have limit : walked.limit = opened.limit := congrArg View.limit view
    have disk : walked.disk = opened.disk := congrArg View.disk view
    refine ⟨_, result, rfl, ⟨rfl, rfl, ?_, ?_⟩, ⟨keeps.ordinary, ?_, keeps.readable⟩,
      limit.trans reopened.limit, ?_⟩
    · exact nodes.trans reopened.nodes.nodes
    · exact pages.trans reopened.nodes.pages
    · show table.tree.Holds walked.view cells
      rw [view]
      exact standing'
    · show walked.contents = saved.contents
      rw [Store.contents, disk, reopened.disk, ← Store.contents]
  next large =>
    exact ⟨rfl, rfl, Nat.lt_of_not_le large⟩

/-- The other table is the table after it was saved with the given cells. -/
structure Saved (table : Table) (cells : List (Key × Bytes)) (after : Table) : Prop where
  fits : table.schema.toBytes.length ≤ Page.size
  schema : after.schema = table.schema
  holds : after.Holds cells
  stored : Stored after.store.contents after cells

theorem Holds.save {table : Table} {cells : List (Key × Bytes)} (holds : table.Holds cells) :
    Ends table Table.save
      (fun _ after => Saved table cells after)
      (fun fault after => after = table ∧
        fault = .shortage (.header table.schema.toBytes.length) ∧
        Page.size < table.schema.toBytes.length) := by
  refine holds.keeps.save.weaken ?_ fun _ _ failed => failed
  rintro _ after ⟨fits, same, keeps, isLimit, found⟩
  refine ⟨fits, same.schema, keeps.holds (isLimit ▸ holds.limited), fun small limit positive => ?_⟩
  obtain ⟨opened, opens, marked, same, keeps', isLimit', contents⟩ := found limit small
  exact ⟨opened, opens, marked, same, keeps'.holds (isLimit' ▸ positive), contents⟩

/-- A table is saved, or its column list is too large and nothing happens. -/
theorem Holds.save_cases {table : Table} {cells : List (Key × Bytes)} (holds : table.Holds cells) :
    (∃ after, Table.save table = .ok () after ∧ Saved table cells after) ∨
      (Table.save table = .error (.shortage (.header table.schema.toBytes.length)) table ∧
        Page.size < table.schema.toBytes.length) := by
  cases run : Table.save table with
  | ok _ after => exact .inl ⟨after, rfl, holds.save.of_ok run⟩
  | error fault after =>
    obtain ⟨rfl, rfl, large⟩ := holds.save.of_error run
    exact .inr ⟨rfl, large⟩

/-! ## New tables -/

/-- A table without a column and without a row is in order as soon as its tree is. -/
theorem keeps_nil {table : Table} (schema : table.schema = Schema.empty)
    (holds : table.tree.Holds table.store.view []) : table.Keeps [] := by
  refine ⟨?_, holds, fun _ member => absurd member List.not_mem_nil⟩
  rw [schema]
  exact fun _ member => absurd member List.not_mem_nil

/-- A table without a column and without a row. -/
def fresh (limit : UInt32) : Table where
  schema := Schema.empty
  store := { slots := #[some (.leaf { rootMark := true })], limit }
  tree := { root := 0 }

section New

variable {limit : UInt32} (positive : limit ≠ 0)
include positive

theorem create_empty :
    Tree.create { limit } = .ok { root := 0 } (fresh limit).store := by
  have room : 0 < limit.toNat := by
    have := mt UInt32.toNat_inj.mp positive
    rw [UInt32.toNat_zero] at this
    omega
  simp [Tree.create, allocate, fresh, pagesInUse, room, bind, EStateM.bind, pure, EStateM.pure]

theorem ofContents_empty :
    ofContents [] limit = .ok { table := fresh limit, unmarkedRoot := none } := by
  have schema : storedSchema { limit } = .ok Schema.empty := rfl
  have tree : storedTree { limit } = .ok ({ root := 0 }, none) (fresh limit).store := by
    show EStateM.bind Tree.create _ { limit } = _
    rw [EStateM.bind, create_empty positive]
    rfl
  simp only [ofContents, ofStore, Store.ofContents_nil, schema, tree, bind, Except.bind]
  rfl

theorem holds_fresh : (fresh limit).Holds [] := by
  have created := (Tree.holds_create (regular_empty limit) rfl).of_ok (create_empty positive)
  have keeps : (fresh limit).Keeps [] := keeps_nil rfl created.1
  exact keeps.holds positive

end New

/-- A table needs a page for its first leaf. -/
theorem limit_ne_zero_of_ofContents {limit : UInt32} {opened : Opened}
    (opens : ofContents [] limit = .ok opened) : limit ≠ 0 := by
  rintro rfl
  cases opens

/-- An empty file stands for a new table. -/
theorem stored_fresh (limit : UInt32) : Stored [] (fresh limit) [] := by
  intro _ other positive'
  refine ⟨_, ofContents_empty positive', rfl, ⟨rfl, rfl, ?_, rfl⟩, holds_fresh positive', rfl⟩
  funext id
  rfl

/-- **Clearing a table gives a new one, and an empty file.** -/
theorem clear_eq {table : Table} (limited : table.store.limit ≠ 0) :
    clear table = .ok () (fresh table.store.limit) := by
  have emptied : onStore Store.clear { table with schema := Schema.empty } =
      .ok () { table with schema := Schema.empty, store := { limit := table.store.limit } } := rfl
  have created : onStore Tree.create
      { table with schema := Schema.empty, store := { limit := table.store.limit } } =
      .ok { root := 0 } { fresh table.store.limit with tree := table.tree } := by
    rw [onStore, create_empty limited]
    rfl
  show EStateM.bind (onStore Store.clear) (fun _ => EStateM.bind (onStore Tree.create) fun tree =>
    modify fun table => { table with tree }) { table with schema := Schema.empty } = _
  rw [EStateM.bind, emptied]
  show EStateM.bind (onStore Tree.create) _ _ = _
  rw [EStateM.bind, created]
  rfl

end Table

end RowStore
