import RowStore.Proofs.Session.Saving

/-!
# What a session leaves in the file

A file that sessions left, one after the other and the first of them in an empty file
(`Session.Left`), opens as a table in order, if the size of the file fits a word. A session
on it ends with status zero, and then the file holds the schema and the rows that the table
has at the end, or with the fault of the last save, and then the file is as the last line
left it that saved or cleared the table (`Session.Left.session_ends`). No other status is
possible. What follows a line that ends the session has no effect.

Between two lines of a session, the table is in order, and the file holds some table, maybe
an older one (`Session.Ready`). This is what a line and the end of the input preserve.
-/

set_option autoImplicit false

namespace RowStore

open Store Bytes

namespace Session

/-! ## Tables between two lines -/

/-- The file holds a table whose rows can be printed line by line. -/
def Readable (contents : Bytes) : Prop :=
  ∃ kept cells, Table.Stored contents kept cells ∧ Table.Printable kept.schema cells

/-- The table is in order, and so is its file. -/
structure Ready (table : Table) : Prop where
  current : ∃ cells, table.Holds cells ∧ Table.Printable table.schema cells
  file : Readable table.store.contents

theorem readable_nil : Readable [] :=
  ⟨Table.fresh 1, [], Table.stored_fresh 1, Table.printable_empty⟩

/-- A file in order is opened without a repair, as a table in order, if it is small enough. -/
theorem Readable.opens {contents : Bytes} (readable : Readable contents)
    (small : contents.length < UInt32.size) {limit : UInt32} (positive : limit ≠ 0) :
    ∃ opened, Table.ofContents contents limit = .ok opened ∧
      opened.unmarkedRoot = none ∧ Ready opened.table ∧
      opened.table.store.contents = contents := by
  have ⟨kept, cells, stored, printable⟩ := readable
  obtain ⟨opened, opens, marked, same, holds, contents⟩ := stored small limit positive
  refine ⟨opened, opens, marked, ⟨⟨cells, holds, ?_⟩, ?_⟩, contents⟩
  · rw [same.schema]
    exact printable
  · rw [contents]
    exact readable

section Line

variable {table : Table} {cells cells' : List (Key × Bytes)} {line : Bytes} {reaction : Reaction}

theorem Reacts.printable (reacts : Reacts table cells line reaction cells')
    (holds : table.Holds cells) (printable : Table.Printable table.schema cells) :
    Table.Printable reaction.table.schema cells' := by
  cases reacts with
  | blank => exact printable
  | answered read _ done =>
    exact done.printable printable (Command.quotable_arguments read) holds.ordinary
  | refused _ _ _ unchanged => exact unchanged.schema ▸ printable

end Line

/-- A line leaves the table and its file in order. -/
theorem Ready.react {table : Table} (ready : Ready table) (line : Bytes) :
    Ready (react table line).table := by
  obtain ⟨⟨cells, holds, printable⟩, readable⟩ := ready
  obtain ⟨cells', reacts⟩ := holds.react line
  have printable' := reacts.printable holds printable
  refine ⟨⟨cells', reacts.holds holds, printable'⟩, ?_⟩
  rcases reacts.contents with ⟨-, stored⟩ | ⟨-, same⟩
  · exact ⟨_, cells', stored, printable'⟩
  · rw [same]
    exact readable

theorem Ready.finish {table : Table} (ready : Ready table) : Ready (finish table).1 := by
  have ⟨⟨cells, holds, printable⟩, _⟩ := ready
  unfold Session.finish
  rcases holds.save_cases with ⟨after, run, saved⟩ | ⟨refused, -⟩
  · rw [run]
    have printable' : Table.Printable after.schema cells := saved.schema ▸ printable
    exact ⟨⟨cells, saved.holds, printable'⟩, _, cells, saved.stored, printable'⟩
  · rw [refused]
    exact ready

/-- **A session leaves the table and its file in order**, whatever its lines are. -/
theorem Ready.overLines {table : Table} (ready : Ready table) (lines : List Bytes) :
    Ready (overLines table lines).table := by
  induction lines generalizing table with
  | nil => exact ready.finish
  | cons line lines ih =>
    have next := ready.react line
    cases status : (Session.react table line).status with
    | none =>
      rw [overLines_cons status]
      exact ih next
    | some code =>
      rw [overLines_cons_of_status status]
      exact next

/-! ## One session after the other -/

/-- A file that does not exist yet or is empty, or that a session left, with any limit. Sessions
begin on files of fewer than `2 ^ 32` bytes. -/
inductive Left : Bytes → Prop where
  | empty : Left []
  | session {contents : Bytes} {limit : UInt32} {opened : Table.Opened} (input : Bytes) :
      Left contents → contents.length < UInt32.size → limit ≠ 0 →
      Table.ofContents contents limit = .ok opened →
      Left (run opened.table input).table.store.contents

theorem Left.readable {contents : Bytes} (left : Left contents) : Readable contents := by
  induction left with
  | empty => exact readable_nil
  | session input _ small positive opens ih =>
    obtain ⟨opened, opens', -, ready, -⟩ := ih.opens small positive
    cases opens.symm.trans opens'
    exact (ready.overLines input.lines).file

/-- The table after some lines, none of which ends the session. -/
def tableAfter (table : Table) (lines : List Bytes) : Table :=
  lines.foldl (fun table line => (react table line).table) table

/-- What follows a line that ends the session is not read. -/
theorem overLines_append_of_status {table : Table} {line : Bytes} {code : UInt32}
    {front : List Bytes} (ends : (react (tableAfter table front) line).status = some code)
    (back other : List Bytes) :
    overLines table (front ++ line :: back) = overLines table (front ++ line :: other) := by
  induction front generalizing table with
  | nil =>
    have ends : (react table line).status = some code := ends
    rw [List.nil_append, List.nil_append, overLines_cons_of_status ends,
      overLines_cons_of_status ends]
  | cons first front ih =>
    rw [List.cons_append, List.cons_append]
    cases status : (react table first).status with
    | none => rw [overLines_cons status, overLines_cons status, ih ends]
    | some code => rw [overLines_cons_of_status status, overLines_cons_of_status status]

/-- How a session on a table can end, with the bytes that its file had before. It saves the table,
or its end leaves the file as the last line left it that saved or cleared the table. Inputs that
agree up to a command to exit that saves the table lead to the same session. -/
structure EndsOn (contents : Bytes) (table : Table) : Prop where
  ends : ∀ input,
    ((run table input).ending = .status 0 ∧
      Table.FoundIn (run table input).table.store.contents (run table input).table) ∨
    ((run table input).ending =
        .fault (.shortage (.header (run table input).table.schema.toBytes.length)) ∧
      (run table input).table.store.contents = lastWritten table contents input.lines)
  exits : ∀ (input other line : Bytes) (front back back' : List Bytes),
    input.lines = front ++ line :: back → other.lines = front ++ line :: back' →
    Command.ofLine? line = some .exit →
    (∃ saved, Table.save (tableAfter table front) = .ok () saved) →
    run table input = run table other

/-- **A session ends with status zero and the table in the file, or with the fault of the last
save.** -/
theorem Left.session_ends {contents : Bytes} (left : Left contents)
    (small : contents.length < UInt32.size) {limit : UInt32} (positive : limit ≠ 0) :
    ∃ opened, Table.ofContents contents limit = .ok opened ∧
      opened.unmarkedRoot = none ∧ EndsOn contents opened.table := by
  obtain ⟨opened, opens, marked, ready, same⟩ := left.readable.opens small positive
  obtain ⟨cells, holds, -⟩ := ready.current
  refine ⟨opened, opens, marked, fun input => ?_, ?_⟩
  · have settles := holds.overLines input.lines
    rw [same] at settles
    rcases settles with ⟨ending, -, standing, stored⟩ | ⟨ending, -, -, file⟩
    · exact .inl ⟨ending, standing.foundIn stored rfl⟩
    · exact .inr ⟨ending, file⟩
  · rintro input other line front back back' lines lines' read ⟨saved, saves⟩
    have ends : (react (tableAfter opened.table front) line).status = some 0 := by
      rw [react_exit_of_ok read saves]
    rw [run, run, lines, lines', overLines_append_of_status ends back back']

/-- A session that saves a row at the end of its input, and one that does not read its last line. -/
theorem ends_single :
    (run (Table.fresh 1) (text "create int\ninsert 5")).ending = .status 0 ∧
      Table.FoundIn (run (Table.fresh 1) (text "create int\ninsert 5")).table.store.contents
        (run (Table.fresh 1) (text "create int\ninsert 5")).table ∧
      run (Table.fresh 1) (text ".exit\nselect") = run (Table.fresh 1) (text ".exit") := by
  obtain ⟨opened, opens, -, endsOn⟩ :=
    Left.empty.session_ends (by decide) (by decide : (1 : UInt32) ≠ 0)
  cases (Table.ofContents_empty (by decide)).symm.trans opens
  have ending : (run (Table.fresh 1) (text "create int\ninsert 5")).ending = .status 0 := rfl
  refine ⟨ending, ?_, ?_⟩
  · rcases endsOn.ends (text "create int\ninsert 5") with ⟨-, found⟩ | ⟨fails, -⟩
    · exact found
    · cases ending.symm.trans fails
  · exact endsOn.exits _ _ (text ".exit") [] [text "select"] [] rfl rfl rfl ⟨_, rfl⟩

end Session

end RowStore
