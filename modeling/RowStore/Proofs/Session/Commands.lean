import RowStore.Proofs.Table.Reopen
import RowStore.Proofs.Wording
import RowStore.Session

/-!
# What a command does

A command on a table in order is either answered or refused. `Command.Done` says for each
command that is answered what it answers and what the table is afterwards, and
`Command.Refused` with which fault it can be refused, and why. A refusal leaves the table as
it was and never concerns a page (`Table.Holds.run`).

As long as the commands come from words, names of columns and rows can be printed on one
line each (`Command.Done.printable`), a refusal has a message on one line, and no line of an
answer looks like a report of a fault.
-/

set_option autoImplicit false

namespace RowStore

open Store Bytes

namespace Command

/-! ## Answers and refusals -/

/-- A command on a table with the given cells is answered, and leaves a table and cells. -/
inductive Done (table : Table) (cells : List (Key × Bytes)) :
    Command → Response → Table → List (Key × Bytes) → Prop where
  | exit {after : Table} : Table.Saved table cells after →
      Done table cells exit { isLast := true } after cells
  | save {after : Table} : Table.Saved table cells after → Done table cells save {} after cells
  | clear : Done table cells clear { output := asLine (text "table reset.") }
      (Table.fresh table.store.limit) []
  | create {definitions : List Bytes} {columns : List Column} {after : Table} :
      Column.ofDefinitions table.schema.columns.length definitions = .ok columns →
      cells = [] → after.schema.columns = table.schema.columns ++ columns →
      after.Holds cells → after.store.contents = table.store.contents →
      Done table cells (create definitions) {} after cells
  | insert {words : List Bytes} {row : Row} {key : Key} {bytes : Bytes} {after : Table} :
      table.schema.rowOfWords words = .ok row → Table.keyOf row = .ok key →
      table.schema.rowToBytes row = .ok bytes → after.schema = table.schema →
      after.Holds ((key, bytes) :: cells) → after.store.contents = table.store.contents →
      Done table cells (insert words) {} after ((key, bytes) :: cells)
  | select {ordered : List (Key × Bytes)} {rows : List Row} {after : Table} :
      ordered.Perm cells → Table.rowsOf table.schema ordered = .ok rows → table.Unchanged after →
      Done table cells select { output := rows.flatMap fun row => asLine (Row.toText row) }
        after cells
  | unknown (word : Bytes) : Done table cells (unknown word)
      { output := asLine (text "Unrecognized command '" ++ word ++ text "'.") } table cells

/-- A command on a table with the given cells is refused with a fault. -/
inductive Refused (table : Table) (cells : List (Key × Bytes)) : Command → Fault → Prop where
  | exit : Page.size < table.schema.toBytes.length →
      Refused table cells exit (.shortage (.header table.schema.toBytes.length))
  | save : Page.size < table.schema.toBytes.length →
      Refused table cells save (.shortage (.header table.schema.toBytes.length))
  | definitions {definitions : List Bytes} {defect : SchemaDefect} :
      Column.ofDefinitions table.schema.columns.length definitions = .error defect →
      Refused table cells (create definitions) (.schema defect)
  | columns {definitions : List Bytes} {columns : List Column} {fault : Fault} :
      Column.ofDefinitions table.schema.columns.length definitions = .ok columns →
      Table.ColumnsRefused table.schema cells columns fault →
      Refused table cells (create definitions) fault
  | row {words : List Bytes} {fault : Fault} : Table.RowRefused table.schema words fault →
      Refused table cells (insert words) fault
  | select : table.schema.hasColumns = false → Refused table cells select .schemaUndefined

/-- The commands that are made to change the file. -/
def writes : Command → Bool
  | exit => true
  | save => true
  | clear => true
  | _ => false

/-- What a command has been given. -/
def arguments : Command → List Bytes
  | create definitions => definitions
  | insert words => words
  | unknown word => [word]
  | _ => []

end Command

/-- **A command on a table in order is answered, or is refused and nothing changes.** -/
theorem Table.Holds.run {table : Table} {cells : List (Key × Bytes)} (holds : table.Holds cells)
    (command : Command) :
    Ends table command.run
      (fun response after => ∃ cells', Command.Done table cells command response after cells')
      (fun fault after => table.Unchanged after ∧ Command.Refused table cells command fault) := by
  cases command with
  | exit =>
    refine .bind (holds.save.weaken ?_ ?_)
    · exact fun _ after saved => ⟨cells, .exit saved⟩
    · rintro fault after ⟨rfl, rfl, large⟩
      exact ⟨.refl after, .exit large⟩
  | save =>
    refine .bind (holds.save.weaken ?_ ?_)
    · exact fun _ after saved => ⟨cells, .save saved⟩
    · rintro fault after ⟨rfl, rfl, large⟩
      exact ⟨.refl after, .save large⟩
  | clear =>
    apply Ends.bind
    rw [Ends, clear_eq holds.limited]
    exact ⟨[], .clear⟩
  | create definitions =>
    apply Ends.bind
    show Ends table _ _ _
    refine .bind (ends_lift (fun columns converted => ?_) fun fault refused => ?_)
    · have parsed := eq_ok_of_mapError converted
      refine .bind ((holds.extendSchema (Column.ordinary_of_ofDefinitions parsed).1).weaken ?_ ?_)
      · rintro _ after ⟨none, added, holds', same⟩
        exact ⟨cells, .create parsed none added holds' same⟩
      · rintro fault after ⟨unchanged, refused⟩
        exact ⟨unchanged, .columns parsed refused⟩
    · obtain ⟨defect, misread, rfl⟩ := exists_of_mapError refused
      exact ⟨.refl table, .definitions misread⟩
  | insert words =>
    refine .bind ((holds.insert words).weaken ?_ ?_)
    · rintro _ after ⟨row, key, bytes, parsed, keyed, written, schema, holds', same⟩
      exact ⟨_, .insert parsed keyed written schema holds' same⟩
    · rintro fault after ⟨unchanged, refused⟩
      exact ⟨unchanged, .row refused⟩
  | select =>
    obtain ⟨ordered, listed, -, -, ends⟩ := holds.keeps.rows
    refine .bind (ends.weaken ?_ ?_)
    · rintro rows after ⟨unchanged, -, reads⟩
      exact ⟨cells, .select listed reads unchanged⟩
    · rintro fault after ⟨unchanged, undefined, rfl⟩
      exact ⟨unchanged, .select undefined⟩
  | unknown word => exact ⟨cells, .unknown word⟩

namespace Command

section Effects

variable {table after : Table} {cells cells' : List (Key × Bytes)} {command : Command}
  {response : Response}

theorem Done.holds (done : Done table cells command response after cells')
    (holds : table.Holds cells) : after.Holds cells' := by
  cases done with
  | exit saved => exact saved.holds
  | save saved => exact saved.holds
  | clear => exact Table.holds_fresh holds.limited
  | create _ _ _ holds' => exact holds'
  | insert _ _ _ _ holds' => exact holds'
  | select _ _ unchanged => exact unchanged.holds holds
  | unknown => exact holds

/-- A command that is made to write leaves the table in the file. -/
theorem Done.stored (done : Done table cells command response after cells')
    (writes : command.writes = true) : Table.Stored after.store.contents after cells' := by
  cases done with
  | exit saved => exact saved.stored
  | save saved => exact saved.stored
  | clear => exact Table.stored_fresh _
  | create => cases writes
  | insert => cases writes
  | select => cases writes
  | unknown => cases writes

/-- No other command changes the file. -/
theorem Done.contents (done : Done table cells command response after cells')
    (silent : command.writes = false) : after.store.contents = table.store.contents := by
  cases done with
  | exit => cases silent
  | save => cases silent
  | clear => cases silent
  | create _ _ _ _ same => exact same
  | insert _ _ _ _ _ same => exact same
  | select _ _ unchanged => exact unchanged.contents
  | unknown => rfl

/-- A refusal is never about a page. -/
theorem Refused.not_aboutPage {fault : Fault} (refused : Refused table cells command fault) :
    fault.isAboutPage = false := by
  cases refused with
  | exit => rfl
  | save => rfl
  | definitions => rfl
  | columns _ refused => cases refused <;> rfl
  | row refused =>
    cases refused with
    | tree _ _ refusal => cases refusal <;> rfl
    | undefined => rfl
    | words => rfl
    | key => rfl
    | values => rfl
  | select => rfl

end Effects

/-! ## What is printed -/

/-- What comes from a line of words has no newline. -/
theorem quotable_arguments {line : Bytes} {command : Command}
    (read : ofLine? line = some command) : Quotable command.arguments := by
  have words : Quotable line.words := fun word member => oneLine_of_mem_words member
  unfold ofLine? at read
  generalize line.words = all at read words
  split at read
  next => cases read
  next word arguments =>
    cases read
    obtain ⟨one, others⟩ := quotable_cons.mp words
    unfold ofWords
    repeat' split
    all_goals simp [Command.arguments, one, others]

end Command

/-- Names of columns and rows can be printed on one line each. -/
structure Table.Printable (schema : Schema) (cells : List (Key × Bytes)) : Prop where
  names : schema.Printable
  rows : ∀ cell ∈ cells, ∀ row, schema.rowOfBytes cell.2 = .ok row → row.Printable

theorem Table.printable_empty : Table.Printable Schema.empty [] :=
  ⟨List.forall_mem_nil _, List.forall_mem_nil _⟩

/-- The rows that are read come from the cells. -/
theorem Table.exists_of_mem_rowsOf {schema : Schema} {cells : List (Key × Bytes)} {rows : List Row}
    (reads : Table.rowsOf schema cells = .ok rows) {row : Row} (member : row ∈ rows) :
    ∃ cell ∈ cells, schema.rowOfBytes cell.2 = .ok row := by
  induction cells generalizing rows with
  | nil =>
    cases reads
    cases member
  | cons cell cells ih =>
    rw [rowsOf, List.mapM_cons] at reads
    obtain ⟨first, here, more⟩ := exists_of_bind_eq_ok reads
    obtain ⟨others, later, done⟩ := exists_of_bind_eq_ok more
    cases done
    rcases List.mem_cons.mp member with rfl | further
    · exact ⟨cell, List.mem_cons_self, eq_ok_of_mapError here⟩
    · obtain ⟨source, inCells, read⟩ := ih later further
      exact ⟨source, List.mem_cons_of_mem _ inCells, read⟩

/-- A report begins with an `E`. -/
theorem not_report_of_head {byte : UInt8} {line : Bytes} (other : byte ≠ 69) :
    ¬text "Error: " <+: byte :: line := by
  intro begins
  exact other (List.cons_prefix_cons.mp begins).1.symm

namespace Command

section Printing

variable {table after : Table} {cells cells' : List (Key × Bytes)} {command : Command}
  (prints : Table.Printable table.schema cells) (plain : Quotable command.arguments)
include prints plain

/-- What can be printed line by line stays so. -/
theorem Done.printable {response : Response} (ordinary : table.schema.Ordinary)
    (done : Done table cells command response after cells') :
    Table.Printable after.schema cells' := by
  cases done with
  | exit saved => exact saved.schema ▸ prints
  | save saved => exact saved.schema ▸ prints
  | clear => exact Table.printable_empty
  | create parsed none added =>
    refine ⟨fun column member => ?_, fun cell member => by simp [none] at member⟩
    rw [added] at member
    rcases List.mem_append.mp member with old | new
    · exact prints.names column old
    · exact (Column.ordinary_of_ofDefinitions parsed).2 plain column new
  | insert parsed keyed written schema =>
    rw [schema]
    refine ⟨prints.names, List.forall_mem_cons.mpr ⟨fun row reads => ?_, prints.rows⟩⟩
    rw [(Schema.rowOfBytes_of_rowToBytes ordinary written).2] at reads
    cases reads
    exact (Schema.printable_of_rowOfWords plain parsed).unpadded
  | select _ _ unchanged => exact unchanged.schema ▸ prints
  | unknown => exact prints

/-- The message of a refusal has no newline. -/
theorem Refused.oneLine_message {fault : Fault} (refused : Refused table cells command fault) :
    fault.message.OneLine := by
  apply Fault.oneLine_message
  cases refused with
  | exit => exact quotable_nil
  | save => exact quotable_nil
  | definitions misread => exact Column.quotable_of_ofDefinitions plain misread
  | columns parsed refused =>
    cases refused with
    | rowsStored => exact quotable_nil
    | tooWide wide =>
      exact Schema.quotable_of_pushAll
        ((Column.ordinary_of_ofDefinitions parsed).2 plain) wide
  | row refused =>
    cases refused with
    | undefined => exact quotable_nil
    | words misread => exact prints.names.quotable_of_rowOfWords plain misread
    | key => exact quotable_nil
    | values _ unwritten => exact prints.names.quotable_of_rowToBytes unwritten
    | tree _ _ refusal => cases refusal <;> exact quotable_nil
  | select => exact quotable_nil

/-- An answer consists of lines, none of which begins like the report of a fault. -/
theorem Done.output {response : Response}
    (done : Done table cells command response after cells') :
    ∃ printed : List Bytes, response.output = printed.flatMap asLine ∧
      ∀ line ∈ printed, line.OneLine ∧ ¬text "Error: " <+: line := by
  have nothing : ∃ printed : List Bytes, ([] : Bytes) = printed.flatMap asLine ∧
      ∀ line ∈ printed, line.OneLine ∧ ¬text "Error: " <+: line :=
    ⟨[], rfl, List.forall_mem_nil _⟩
  have single : ∀ line : Bytes, line.OneLine → ¬text "Error: " <+: line →
      ∃ printed : List Bytes, asLine line = printed.flatMap asLine ∧
        ∀ line ∈ printed, line.OneLine ∧ ¬text "Error: " <+: line := by
    intro line one other
    refine ⟨[line], (List.flatMap_singleton ..).symm, fun other member => ?_⟩
    cases List.mem_singleton.mp member
    exact ⟨one, other⟩
  cases done with
  | exit => exact nothing
  | save => exact nothing
  | clear => exact single _ (by decide) (by decide)
  | create => exact nothing
  | insert => exact nothing
  | @select ordered rows _ listed reads =>
    refine ⟨rows.map Row.toText, (List.flatMap_map ..).symm, fun line member => ?_⟩
    obtain ⟨row, inRows, rfl⟩ := List.mem_map.mp member
    obtain ⟨cell, inCells, read⟩ := Table.exists_of_mem_rowsOf reads inRows
    have printable := prints.rows cell (listed.mem_iff.mp inCells) row read
    exact ⟨printable.oneLine_toText, not_report_of_head (by decide)⟩
  | unknown word =>
    have one := plain word (List.mem_singleton_self _)
    refine single _ ?_ ?_
    · simp +decide [one]
    · exact not_report_of_head (by decide)

end Printing

end Command

end RowStore
