import RowStore.Proofs.Schema.Definitions
import RowStore.Proofs.Session.Steps

/-!
# What a table can save

Columns are added as long as a row fits a page, but they are saved only if the list of them
fits a page as well, and the list grows with the names and not with the rows. Whatever
commands a table has come through, its column list alone decides whether it can be saved
(`Table.Commanded.saves`): if the list fits, then saving succeeds and the file holds the
schema and all rows, and otherwise saving is refused and nothing changes. In the same way
the column list at the end decides how a session ends. That the rows are found again in the
file needs that the size of the file fits a word.

A single column with a long name is enough for a table that takes rows and cannot be saved
(`Table.unsaved_wide`).
-/

set_option autoImplicit false

namespace RowStore

open Store Bytes

namespace Table

/-! ## Tables that came through commands -/

/-- A table in a state that commands reach from an empty file, whatever words they are given. -/
inductive Commanded : Table → Prop where
  | opened {limit : UInt32} {opened : Opened} :
      ofContents [] limit = .ok opened → Commanded opened.table
  | answered {table after : Table} {command : Command} {response : Response} :
      Commanded table → command.run table = .ok response after → Commanded after
  | refused {table after : Table} {command : Command} {fault : Fault} :
      Commanded table → command.run table = .error fault after → Commanded after

theorem Commanded.holds {table : Table} (commanded : Commanded table) :
    ∃ cells, table.Holds cells := by
  induction commanded with
  | opened opens =>
    have positive := limit_ne_zero_of_ofContents opens
    cases (ofContents_empty positive).symm.trans opens
    exact ⟨[], holds_fresh positive⟩
  | answered _ run ih =>
    obtain ⟨cells, holds⟩ := ih
    obtain ⟨cells', done⟩ := (holds.run _).of_ok run
    exact ⟨cells', done.holds holds⟩
  | refused _ run ih =>
    obtain ⟨cells, holds⟩ := ih
    exact ⟨cells, ((holds.run _).of_error run).1.holds holds⟩

/-! ## Saving -/

/-- Whoever opens the file finds the schema and the rows of the table, with nothing to be
repaired, if the file has fewer than `2 ^ 32` bytes. There are rows to find as soon as there is a
column. -/
structure FoundIn (contents : Bytes) (table : Table) : Prop where
  answers : table.schema.hasColumns = true → ∃ found, answer rows table = .ok found
  opens : contents.length < UInt32.size → ∀ limit : UInt32, limit ≠ 0 →
    ∃ opened, ofContents contents limit = .ok opened ∧ opened.unmarkedRoot = none ∧
      opened.table.schema = table.schema ∧ answer rows opened.table = answer rows table

theorem Holds.foundIn {table kept : Table} {cells : List (Key × Bytes)} {contents : Bytes}
    (holds : table.Holds cells) (stored : Stored contents kept cells)
    (schema : kept.schema = table.schema) : FoundIn contents table := by
  refine ⟨fun defined => ?_, fun small limit positive => ?_⟩
  · obtain ⟨ordered, -, -, ⟨found, reads⟩, answers⟩ := holds.answer_rows
    refine ⟨found, ?_⟩
    rw [answers, if_pos defined, reads]
  · obtain ⟨opened, opens, marked, same, holds', -⟩ := stored small limit positive
    have schema' := same.schema.trans schema
    exact ⟨opened, opens, marked, schema', answer_rows_congr holds holds' schema'⟩

section Save

variable {table : Table} {cells : List (Key × Bytes)} (holds : table.Holds cells)
include holds

theorem Holds.save_of_fits (fits : table.schema.toBytes.length ≤ Page.size) :
    ∃ after, Table.save table = .ok () after ∧ FoundIn after.store.contents table := by
  rcases holds.save_cases with ⟨after, run, saved⟩ | ⟨-, large⟩
  · exact ⟨after, run, holds.foundIn saved.stored saved.schema⟩
  · exact absurd fits (Nat.not_le_of_lt large)

theorem Holds.save_of_large (large : Page.size < table.schema.toBytes.length) :
    Table.save table = .error (.shortage (.header table.schema.toBytes.length)) table := by
  rcases holds.save_cases with ⟨after, -, saved⟩ | ⟨refused, -⟩
  · exact absurd saved.fits (Nat.not_le_of_lt large)
  · exact refused

end Save

/-- The column list of a table decides whether the table is saved, by itself and at the end of
every session that begins with it. The size of the list comes from the number of columns and the
names alone. A list that fits is saved with all rows, and the command to exit ends the session then;
a list that does not fit is refused, and nothing changes. A session that ends with a list that fits
has saved the table, and another ends with the fault of saving. -/
structure Saves (table : Table) : Prop where
  size : table.schema.toBytes.length =
    4 + 9 * table.schema.columns.length + (table.schema.columns.flatMap Column.name).length
  fits : table.schema.toBytes.length ≤ Page.size →
    ∃ after, save table = .ok () after ∧ FoundIn after.store.contents table
  large : Page.size < table.schema.toBytes.length →
    save table = .error (.shortage (.header table.schema.toBytes.length)) table
  exits : table.schema.toBytes.length ≤ Page.size → ∀ line, Command.ofLine? line = some .exit →
    (Session.react table line).status = some 0 ∧
      FoundIn (Session.react table line).table.store.contents table
  ends : ∀ input, (Session.run table input).table.schema.toBytes.length ≤ Page.size →
    (Session.run table input).ending = .status 0 ∧
      FoundIn (Session.run table input).table.store.contents (Session.run table input).table
  fails : ∀ input, Page.size < (Session.run table input).table.schema.toBytes.length →
    (Session.run table input).ending = .fault (.shortage (.header
      (Session.run table input).table.schema.toBytes.length))

/-- **Whether a table can be saved depends only on the size of its column list.** -/
theorem Commanded.saves {table : Table} (commanded : Commanded table) : Saves table := by
  obtain ⟨cells, holds⟩ := commanded.holds
  refine ⟨table.schema.length_toBytes, holds.save_of_fits, holds.save_of_large,
    fun fits line read => ?_, fun input fits => ?_, fun input large => ?_⟩
  · obtain ⟨after, run, found⟩ := holds.save_of_fits fits
    rw [Session.react_exit_of_ok read run]
    exact ⟨rfl, found⟩
  · rcases holds.overLines input.lines with ⟨ending, -, standing, stored⟩ | ⟨-, large, -, -⟩
    · exact ⟨ending, standing.foundIn stored rfl⟩
    · exact absurd fits (Nat.not_le_of_lt large)
  · rcases holds.overLines input.lines with ⟨-, fits, -, -⟩ | ⟨ending, -, -, -⟩
    · exact absurd fits (Nat.not_le_of_lt large)
    · exact ending

/-! ## A column with a long name -/

/-- A table with one column of integers and no row. -/
def namedTable (name : Bytes) : Table where
  schema := { columns := [Column.integers name], totalWidth_le := Nat.le_of_ble_eq_true rfl }
  store := (fresh 100).store
  tree := { root := 0 }

/-- The same table with one row. -/
def filledTable (name : Bytes) : Table where
  schema := (namedTable name).schema
  store := {
    slots := #[some (.leaf { rootMark := true, keys := [1], values := [[1, 0, 0, 0]] })]
    limit := 100 }
  tree := { root := 0 }

section Named

variable {name : Bytes} (solid : name.any isBlank = false) (noColon : name.all (· != 58) = true)
  (nonempty : name ≠ [])

include noColon nonempty in
theorem ofDefinition_integers (position : Nat) :
    Column.ofDefinition position (name ++ 58 :: text "int") = .ok (Column.integers name) := by
  have plain : 58 ∉ name := fun member => by simpa using List.all_eq_true.mp noColon 58 member
  rw [Column.ofDefinition_named nonempty plain]
  rfl

include noColon nonempty in
theorem run_create :
    (Command.create [name ++ 58 :: text "int"]).run (fresh 100) =
      .ok {} (namedTable name) := by
  have columns : Column.ofDefinitions 0 [name ++ 58 :: text "int"] =
      .ok [Column.integers name] := by
    rw [Column.ofDefinitions, ofDefinition_integers noColon nonempty]
    rfl
  show EStateM.bind (Table.lift ((Column.ofDefinitions 0 _).mapError Fault.schema)) _ _ = _
  rw [columns]
  rfl

theorem run_insert (name : Bytes) :
    (Command.insert [text "1"]).run (namedTable name) = .ok {} (filledTable name) := rfl

include noColon nonempty in
theorem commanded_filled : Commanded (filledTable name) := by
  have created : Commanded (fresh 100) :=
    .opened (rfl : ofContents [] 100 = .ok { table := fresh 100, unmarkedRoot := none })
  exact (created.answered (run_create noColon nonempty)).answered (run_insert name)

theorem length_schema_filled (name : Bytes) :
    (filledTable name).schema.toBytes.length = 13 + name.length := by
  rw [Schema.length_toBytes]
  show 4 + 9 * 1 + (name ++ []).length = _
  rw [List.append_nil]

/-! The same commands as lines of a session. -/

include solid in
theorem words_createLine :
    words (text "create " ++ (name ++ 58 :: text "int")) =
      [text "create", name ++ 58 :: text "int"] := by
  have spelled : List.any (name ++ 58 :: text "int") isBlank = false := by
    rw [List.any_append, solid]
    rfl
  show words (text "create" ++ 32 :: (name ++ 58 :: text "int")) = _
  rw [words_append_cons _ _ _ (eq_false_of_any rfl) (by decide) rfl,
    words_of_solid spelled (by simp)]

/-- A session that makes a column, inserts a row and exits. -/
def namedInput (name : Bytes) : Bytes :=
  asLine (text "create " ++ (name ++ 58 :: text "int")) ++
    (asLine (text "insert 1") ++ asLine (text ".exit"))

include solid in
theorem lines_named : (namedInput name).lines =
    [text "create " ++ (name ++ 58 :: text "int"), text "insert 1", text ".exit"] := by
  have one : OneLine (text "create " ++ (name ++ 58 :: text "int")) := by
    simp +decide [oneLine_of_solid solid]
  rw [namedInput, lines_asLine_append one, lines_asLine_append (by decide),
    lines_asLine (by decide)]

include solid noColon nonempty in
theorem react_create :
    Session.react (fresh 100) (text "create " ++ (name ++ 58 :: text "int")) =
      { table := namedTable name } := by
  have read : Command.ofLine? (text "create " ++ (name ++ 58 :: text "int")) =
      some (.create [name ++ 58 :: text "int"]) := by
    rw [Command.ofLine?, words_createLine solid]
    rfl
  rw [Session.react, read]
  dsimp only
  rw [run_create noColon nonempty]
  rfl

theorem react_insert (name : Bytes) :
    Session.react (namedTable name) (text "insert 1") = { table := filledTable name } := rfl

include solid noColon nonempty in
/-- The row is accepted, but neither the command to exit nor the end of the input saves it. -/
theorem ending_named (long : 4083 < name.length) :
    (Session.run (fresh 100) (namedInput name)).ending =
      .fault (.shortage (.header (13 + name.length))) := by
  obtain ⟨cells, holds⟩ := (commanded_filled noColon nonempty).holds
  have refused := holds.save_of_large (by rw [length_schema_filled, Page.size]; omega)
  have create := react_create solid noColon nonempty
  have insert := react_insert name
  have exit := Session.react_exit_of_error (rfl : Command.ofLine? (text ".exit") = _) refused rfl
  rw [Session.run, lines_named solid, Session.overLines_cons (by rw [create]), create,
    Session.overLines_cons (by rw [insert]), insert,
    Session.overLines_cons (by rw [exit]), exit]
  show (Session.finish (filledTable name)).2 = _
  rw [Session.finish, refused, length_schema_filled]

end Named

/-- A name that takes almost a page. -/
def longName : Bytes := List.replicate 4084 97

theorem longName_plain :
    longName.any isBlank = false ∧ longName.all (· != 58) = true ∧ longName ≠ [] ∧
      longName.length = 4084 := by
  refine ⟨?_, ?_, ?_, List.length_replicate⟩
  · rw [longName, List.any_replicate, if_neg (by decide)]
    rfl
  · rw [longName, List.all_replicate, if_neg (by decide)]
    rfl
  · exact List.ne_nil_of_length_eq_add_one List.length_replicate

theorem saves_filled :
    (∃ after, save (filledTable (text "id")) = .ok () after ∧
      FoundIn after.store.contents (filledTable (text "id"))) ∧
    save (filledTable longName) =
      .error (.shortage (.header (filledTable longName).schema.toBytes.length))
        (filledTable longName) := by
  obtain ⟨-, noColon, nonempty, length⟩ := longName_plain
  refine ⟨(commanded_filled rfl (by decide)).saves.fits (by decide),
    (commanded_filled noColon nonempty).saves.large ?_⟩
  rw [length_schema_filled, length]
  decide

/-- A table takes a row that it cannot save, and a session loses it. -/
theorem unsaved_wide :
    Commanded (filledTable longName) ∧ answer rows (filledTable longName) = .ok [[.integer 1]] ∧
      save (filledTable longName) = .error (.shortage (.header 4097)) (filledTable longName) ∧
      (Session.run (fresh 100) (namedInput longName)).ending =
        .fault (.shortage (.header 4097)) := by
  obtain ⟨solid, noColon, nonempty, length⟩ := longName_plain
  have commanded := commanded_filled noColon nonempty
  obtain ⟨cells, holds⟩ := commanded.holds
  have refused := holds.save_of_large (by rw [length_schema_filled, length]; decide)
  have ending := ending_named solid noColon nonempty (by rw [length]; decide)
  rw [length_schema_filled, length] at refused
  rw [length] at ending
  exact ⟨commanded, rfl, refused, ending⟩

end Table

end RowStore
