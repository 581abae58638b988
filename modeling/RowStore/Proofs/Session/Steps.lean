import RowStore.Proofs.Session.Commands

/-!
# Sessions on tables in order

On a table in order, a line of a session is blank, or its command is answered, or its
command is refused and reported (`Session.Reacts`). The table is in order after each line,
so no line ends the session with an error, and a session can only end by a save: with status
zero if the table is saved, or else with the fault of the last save (`Session.Settles`).
Then the file is as the last line left it that saved or cleared the table
(`Session.lastWritten`).
-/

set_option autoImplicit false

namespace RowStore

open Store Bytes

namespace Session

/-! ## One line -/

/-- What a line leads to on a table with the given cells. -/
inductive Reacts (table : Table) (cells : List (Key × Bytes)) (line : Bytes) :
    Reaction → List (Key × Bytes) → Prop where
  | blank : Command.ofLine? line = none → Reacts table cells line { table } cells
  | answered {command : Command} {response : Response} {after : Table}
      {cells' : List (Key × Bytes)} :
      Command.ofLine? line = some command → command.run table = .ok response after →
      Command.Done table cells command response after cells' →
      Reacts table cells line
        { table := after
          out := response.output
          status := if response.isLast then some 0 else none } cells'
  | refused {command : Command} {fault : Fault} {after : Table} :
      Command.ofLine? line = some command → command.run table = .error fault after →
      Command.Refused table cells command fault → table.Unchanged after →
      Reacts table cells line { table := after, out := fault.report } cells

end Session

/-- **A line on a table in order is blank, answered, or refused with a report.** -/
theorem Table.Holds.react {table : Table} {cells : List (Key × Bytes)} (holds : table.Holds cells)
    (line : Bytes) :
    ∃ cells', Session.Reacts table cells line (Session.react table line) cells' := by
  unfold Session.react
  cases read : Command.ofLine? line with
  | none => exact ⟨cells, .blank read⟩
  | some command =>
    have ends := holds.run command
    dsimp only
    cases run : command.run table with
    | ok response after =>
      obtain ⟨cells', done⟩ := ends.of_ok run
      exact ⟨cells', .answered read run done⟩
    | error fault after =>
      obtain ⟨unchanged, refused⟩ := ends.of_error run
      dsimp only
      rw [if_neg (Bool.eq_false_iff.mp refused.not_aboutPage)]
      exact ⟨cells, .refused read run refused unchanged⟩

namespace Session

section Line

variable {table : Table} {cells cells' : List (Key × Bytes)} {line : Bytes} {reaction : Reaction}
  (reacts : Reacts table cells line reaction cells')
include reacts

theorem Reacts.holds (holds : table.Holds cells) : reaction.table.Holds cells' := by
  cases reacts with
  | blank => exact holds
  | answered _ _ done => exact done.holds holds
  | refused _ _ _ unchanged => exact unchanged.holds holds

/-- A line that ends the session has saved the table. -/
theorem Reacts.status :
    reaction.status = none ∨
      reaction.status = some 0 ∧ Table.Saved table cells' reaction.table := by
  cases reacts with
  | blank => exact .inl rfl
  | answered _ _ done =>
    cases done with
    | exit saved => exact .inr ⟨rfl, saved⟩
    | save => exact .inl rfl
    | clear => exact .inl rfl
    | create => exact .inl rfl
    | insert => exact .inl rfl
    | select => exact .inl rfl
    | unknown => exact .inl rfl
  | refused => exact .inl rfl

end Line

/-- The command on the line saves or clears the table, and is answered. -/
def rewritesFile (table : Table) (line : Bytes) : Bool :=
  match Command.ofLine? line with
  | none => false
  | some command =>
    match command.run table with
    | .ok _ _ => command.writes
    | .error _ _ => false

/-- Only a line that saves or clears the table changes the file. -/
theorem Reacts.contents {table : Table} {cells cells' : List (Key × Bytes)} {line : Bytes}
    {reaction : Reaction} (reacts : Reacts table cells line reaction cells') :
    (rewritesFile table line = true ∧
        Table.Stored reaction.table.store.contents reaction.table cells') ∨
      (rewritesFile table line = false ∧
        reaction.table.store.contents = table.store.contents) := by
  unfold rewritesFile
  cases reacts with
  | blank read => exact .inr ⟨by rw [read], rfl⟩
  | @answered command response after cells' read run done =>
    rw [read]
    dsimp only
    rw [run]
    cases writes : command.writes with
    | true => exact .inl ⟨rfl, done.stored writes⟩
    | false => exact .inr ⟨rfl, done.contents writes⟩
  | refused read run _ unchanged =>
    refine .inr ⟨?_, unchanged.contents⟩
    rw [read]
    dsimp only
    rw [run]

section Exit

variable {table : Table} {line : Bytes} (read : Command.ofLine? line = some .exit)
include read

theorem react_exit_of_ok {saved : Table} (saves : Table.save table = .ok () saved) :
    react table line = { table := saved, status := some 0 } := by
  have run : Command.exit.run table = .ok { isLast := true } saved := by
    show EStateM.bind Table.save _ _ = _
    rw [EStateM.bind, saves]
    rfl
  rw [react, read]
  dsimp only
  rw [run]
  rfl

theorem react_exit_of_error {fault : Fault} {after : Table}
    (refused : Table.save table = .error fault after) (ordinary : fault.isAboutPage = false) :
    react table line = { table := after, out := fault.report } := by
  have run : Command.exit.run table = .error fault after := by
    show EStateM.bind Table.save _ _ = _
    rw [EStateM.bind, refused]
  rw [react, read]
  dsimp only
  rw [run]
  dsimp only
  rw [if_neg (Bool.eq_false_iff.mp ordinary)]

end Exit

/-! ## Many lines -/

/-- A session that a line does not end goes on with the next. -/
theorem overLines_cons {table : Table} {line : Bytes} (goesOn : (react table line).status = none)
    (lines : List Bytes) :
    overLines table (line :: lines) =
      { overLines (react table line).table lines with
        out := prompt ++ (react table line).out ++
          (overLines (react table line).table lines).out
        err := (react table line).err ++ (overLines (react table line).table lines).err } := by
  rw [overLines, goesOn]

/-- A session that a line ends does not read what follows. -/
theorem overLines_cons_of_status {table : Table} {line : Bytes} {code : UInt32}
    (ends : (react table line).status = some code) (lines : List Bytes) :
    overLines table (line :: lines) =
      { table := (react table line).table
        out := prompt ++ (react table line).out
        err := (react table line).err
        ending := .status code } := by
  rw [overLines, ends]

/-- The file after some lines, given what it was before, if only the lines that save or clear the
table change it. -/
def lastWritten (table : Table) (file : Bytes) : List Bytes → Bytes
  | [] => file
  | line :: lines =>
    let after := (react table line).table
    lastWritten after (if rewritesFile table line then after.store.contents else file) lines

/-- Whether the first line changes the file or not, the rest may change the file after it. -/
theorem Reacts.lastWritten_cons {table : Table} {cells cells' : List (Key × Bytes)} {line : Bytes}
    (reacts : Reacts table cells line (react table line) cells') (lines : List Bytes) :
    lastWritten table table.store.contents (line :: lines) =
      lastWritten (react table line).table (react table line).table.store.contents lines := by
  rw [lastWritten]
  rcases reacts.contents with ⟨writes, -⟩ | ⟨silent, same⟩
  · rw [if_pos writes]
  · rw [if_neg (Bool.eq_false_iff.mp silent), same]

/-- A session ends with a table that is saved, or that cannot be saved and leaves the file. -/
inductive Settles (file : Bytes) (transcript : Transcript) : Prop where
  | saved {cells : List (Key × Bytes)} : transcript.ending = .status 0 →
      transcript.table.schema.toBytes.length ≤ Page.size → transcript.table.Holds cells →
      Table.Stored transcript.table.store.contents transcript.table cells →
      Settles file transcript
  | unsaved {cells : List (Key × Bytes)} :
      transcript.ending =
        .fault (.shortage (.header transcript.table.schema.toBytes.length)) →
      Page.size < transcript.table.schema.toBytes.length → transcript.table.Holds cells →
      transcript.table.store.contents = file → Settles file transcript

end Session

/-- The end of the input saves the table, or leaves everything as it is. -/
theorem Table.Holds.finish {table : Table} {cells : List (Key × Bytes)}
    (holds : table.Holds cells) :
    Session.Settles table.store.contents (Session.overLines table []) := by
  unfold Session.overLines Session.finish
  rcases holds.save_cases with ⟨after, run, saved⟩ | ⟨refused, large⟩
  · rw [run]
    exact .saved rfl (saved.schema ▸ saved.fits) saved.holds saved.stored
  · rw [refused]
    exact .unsaved rfl large holds rfl

/-- **Every session on a table in order ends by a save**, which may fail only for a schema that is
too large. -/
theorem Table.Holds.overLines {table : Table} {cells : List (Key × Bytes)}
    (holds : table.Holds cells) (lines : List Bytes) :
    Session.Settles (Session.lastWritten table table.store.contents lines)
      (Session.overLines table lines) := by
  induction lines generalizing table cells with
  | nil => exact holds.finish
  | cons line lines ih =>
    obtain ⟨cells', reacts⟩ := holds.react line
    have holds' := reacts.holds holds
    rcases reacts.status with goesOn | ⟨ends, saved⟩
    · rw [Session.overLines_cons goesOn, reacts.lastWritten_cons]
      rcases ih holds' with ⟨ending, fits, standing, stored⟩ | ⟨ending, large, standing, same⟩
      · exact .saved ending fits standing stored
      · exact .unsaved ending large standing same
    · rw [Session.overLines_cons_of_status ends]
      exact .saved rfl (saved.schema ▸ saved.fits) saved.holds saved.stored

end RowStore
