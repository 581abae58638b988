import RowStore.Proofs.Bytes.Lines
import RowStore.Proofs.Session.Files
import RowStore.Proofs.Table.Twins

/-!
# Splitting a session

Whether an input is given to one session, or its front to one session and its back to the
next, cannot be seen: the two sessions print together what the one session prints, except
for the prompt at which the first of them ended, and leave the same file
(`Session.splits`). This needs that the size of the file in between fits a word.

At the split, one table goes on with everything in memory, and the other is opened on the
file that was just saved, with nothing in memory. The two are twins. Every command does
the same on twins (`Command.lockstep`), so every line and every session does
(`Session.sameTranscript`).
-/

set_option autoImplicit false

namespace RowStore

open Store Bytes

/-! ## Commands -/

namespace Command

open Table

variable {limit : UInt32}

/-- A command that does not save does the same on twins, in order or not. -/
theorem lockstep_of_silent {command : Command} (notExit : command ≠ exit)
    (notSave : command ≠ save) : Lockstep (Table.Twins limit) command.run command.run := by
  cases command with
  | exit => exact absurd rfl notExit
  | save => exact absurd rfl notSave
  | clear => exact .bind lockstep_clear fun _ => .pure _
  | create definitions =>
    refine .get fun table other twins => ?_
    rw [twins.schema]
    refine .bind (lockstep_lift _) fun columns => .bind (lockstep_extendSchema columns) fun _ => ?_
    exact .pure _
  | insert words => exact .bind (lockstep_insert words) fun _ => .pure _
  | select => exact .bind lockstep_rows fun _ => .pure _
  | unknown word => exact .pure _

/-- A command leaves a table in order. -/
theorem holds_leftBy {table : Table} (inOrder : ∃ cells, table.Holds cells) (command : Command) :
    ∃ cells, (leftBy command.run table).Holds cells := by
  obtain ⟨cells, holds⟩ := inOrder
  unfold leftBy
  cases run : command.run table with
  | ok response after =>
    obtain ⟨cells', done⟩ := (holds.run command).of_ok run
    exact ⟨cells', done.holds holds⟩
  | error fault after =>
    obtain ⟨unchanged, -⟩ := (holds.run command).of_error run
    exact ⟨cells, unchanged.holds holds⟩

/-- **Every command does the same on twins in order.** -/
theorem lockstep (command : Command) : Lockstep (Alike limit) command.run command.run := by
  by_cases isExit : command = exit
  · rw [isExit]
    exact .bind lockstep_save fun _ => .pure _
  by_cases isSave : command = save
  · rw [isSave]
    exact .bind lockstep_save fun _ => .pure _
  intro table other alike
  obtain ⟨answers, left⟩ := lockstep_of_silent isExit isSave table other alike.twins
  exact ⟨answers, left, holds_leftBy alike.first command, holds_leftBy alike.second command⟩

end Command

/-! ## Lines that do not end a session -/

section Lines

variable {table : Table} {cells : List (Key × Bytes)}

/-- Only a command to exit ends a session on a table in order. -/
theorem Table.Holds.goesOn (holds : table.Holds cells) {line : Bytes}
    (notExit : Command.ofLine? line ≠ some .exit) :
    (Session.react table line).status = none := by
  obtain ⟨cells', reacts⟩ := holds.react line
  generalize Session.react table line = reaction at reacts ⊢
  cases reacts with
  | blank => rfl
  | answered read _ done =>
    cases done with
    | exit => exact absurd read notExit
    | save => rfl
    | clear => rfl
    | create => rfl
    | insert => rfl
    | select => rfl
    | unknown => rfl
  | refused => rfl

/-- No line on a table in order is answered on the error output. -/
theorem Session.Reacts.err {line : Bytes} {reaction : Reaction} {cells' : List (Key × Bytes)}
    (reacts : Reacts table cells line reaction cells') : reaction.err = [] := by
  cases reacts <;> rfl

theorem Session.overLines_nil_of_save {after : Table} (saves : Table.save table = .ok () after) :
    overLines table [] = { table := after, out := prompt, ending := .status 0 } := by
  rw [overLines, finish, saves]

/-- What a session prints for some lines, up to the prompt for the next. -/
def Session.printed (table : Table) : List Bytes → Bytes
  | [] => []
  | line :: lines => prompt ++ (react table line).out ++ printed (react table line).table lines

/-- A session goes on after lines that do not end it. -/
theorem Table.Holds.overLines_append (holds : table.Holds cells) {front : List Bytes}
    (stays : ∀ line ∈ front, Command.ofLine? line ≠ some .exit) (back : List Bytes) :
    Session.overLines table (front ++ back) =
      { Session.overLines (Session.tableAfter table front) back with
        out := Session.printed table front ++
          (Session.overLines (Session.tableAfter table front) back).out } := by
  induction front generalizing table cells with
  | nil => rfl
  | cons line front ih =>
    obtain ⟨cells', reacts⟩ := holds.react line
    have goesOn := holds.goesOn (stays line List.mem_cons_self)
    have stays' := fun other later => stays other (List.mem_cons_of_mem _ later)
    have rest := ih (reacts.holds holds) stays'
    rw [List.cons_append, Session.overLines_cons goesOn, rest, reacts.err]
    simp only [Session.printed, List.append_assoc, List.nil_append]
    rfl

end Lines

/-! ## Sessions on twins -/

namespace Session

/-- The reactions cannot be told apart. -/
structure SameReaction (limit : UInt32) (reaction other : Reaction) : Prop where
  out : other.out = reaction.out
  err : other.err = reaction.err
  status : other.status = reaction.status
  alike : reaction.table.Alike limit other.table

/-- The transcripts cannot be told apart, and neither can the files if the tables were saved. -/
structure SameTranscript (transcript other : Transcript) : Prop where
  out : other.out = transcript.out
  err : other.err = transcript.err
  ending : other.ending = transcript.ending
  file : transcript.ending = .status 0 →
    other.table.store.contents = transcript.table.store.contents

section Twins

variable {limit : UInt32} {table other : Table} (alike : table.Alike limit other)
include alike

theorem sameReaction (line : Bytes) : SameReaction limit (react table line) (react other line) := by
  unfold react
  cases Command.ofLine? line with
  | none => exact ⟨rfl, rfl, rfl, alike⟩
  | some command =>
    obtain ⟨answers, left⟩ := Command.lockstep command table other alike
    dsimp only
    cases found : answer command.run table with
    | ok response =>
      rw [run_of_answer found, run_of_answer (answers.symm.trans found)]
      exact ⟨rfl, rfl, rfl, left⟩
    | error fault =>
      rw [stop_of_answer found, stop_of_answer (answers.symm.trans found)]
      dsimp only
      split
      · exact ⟨rfl, rfl, rfl, left⟩
      · exact ⟨rfl, rfl, rfl, left⟩

/-- A line that ends the session has saved the tables, and their files are the same. -/
theorem contents_of_status {line : Bytes} {code : UInt32}
    (ends : (react table line).status = some code) :
    (react other line).table.store.contents = (react table line).table.store.contents := by
  by_cases isExit : Command.ofLine? line = some .exit
  · rcases alike.save with ⟨after, after', run, run', -, same⟩ | ⟨fault, stop, -⟩
    · rw [react_exit_of_ok isExit run, react_exit_of_ok isExit run']
      exact same
    · obtain ⟨cells, holds⟩ := alike.first
      rcases holds.save_cases with ⟨after, run, -⟩ | ⟨refused, -⟩
      · cases stop.symm.trans run
      · rw [react_exit_of_error isExit refused rfl] at ends
        cases ends
  · obtain ⟨cells, holds⟩ := alike.first
    rw [holds.goesOn isExit] at ends
    cases ends

theorem sameTranscript (lines : List Bytes) :
    SameTranscript (overLines table lines) (overLines other lines) := by
  induction lines generalizing table other with
  | nil =>
    unfold overLines finish
    rcases alike.save with ⟨after, after', run, run', -, same⟩ | ⟨fault, stop, stop'⟩
    · rw [run, run']
      exact ⟨rfl, rfl, rfl, fun _ => same⟩
    · rw [stop, stop']
      exact ⟨rfl, rfl, rfl, fun ending => by cases ending⟩
  | cons line lines ih =>
    obtain ⟨out, err, status, alike'⟩ := sameReaction alike line
    cases ends : (react table line).status with
    | none =>
      rw [ends] at status
      obtain ⟨outs, errs, ending, file⟩ := ih alike'
      rw [overLines_cons ends, overLines_cons status]
      refine ⟨?_, ?_, ending, file⟩
      · simp only [out, outs]
      · simp only [err, errs]
    | some code =>
      rw [ends] at status
      rw [overLines_cons_of_status ends, overLines_cons_of_status status]
      refine ⟨?_, err, rfl, fun _ => contents_of_status alike ends⟩
      simp only [out]

theorem alike_tableAfter (lines : List Bytes) :
    (tableAfter table lines).Alike limit (tableAfter other lines) := by
  induction lines generalizing table other with
  | nil => exact alike
  | cons line lines ih => exact ih (sameReaction alike line).alike

end Twins

/-! ## One session or two -/

/-- The session on the whole input is as the one on its front, and then the one on its back, for
which the file that the first one left is opened again. Only the prompt at which the first session
ended is printed in addition. -/
structure Resumed (limit : UInt32) (first whole : Transcript) (back : Bytes)
    (again : Table.Opened) : Prop where
  opens : Table.ofContents first.table.store.contents limit = .ok again
  unrepaired : again.unmarkedRoot = none
  ending : (run again.table back).ending = .status 0
  out : ∃ shown, first.out = shown ++ prompt ∧ whole.out = shown ++ (run again.table back).out
  err : whole.err = first.err ++ (run again.table back).err
  file : (run again.table back).table.store.contents = whole.table.store.contents

/-- **Splitting a session cannot be seen.** Of an input, some lines are given to a session on an
empty file, and the rest to a session on the file that it leaves, which has fewer than `2 ^ 32`
bytes. Together they print what the session on the whole input prints, and the prompt at which the
first of them ended; and they leave the same file. -/
theorem splits {limit : UInt32} {opened : Table.Opened}
    (opens : Table.ofContents [] limit = .ok opened) {front : List Bytes}
    (lines : ∀ line ∈ front, line.OneLine)
    (stays : ∀ line ∈ front, Command.ofLine? line ≠ some .exit) (back : Bytes)
    (first : (run opened.table (front.flatMap asLine)).ending = .status 0)
    (small : (run opened.table (front.flatMap asLine)).table.store.contents.length < UInt32.size)
    (whole : (run opened.table (front.flatMap asLine ++ back)).ending = .status 0) :
    ∃ again, Resumed limit (run opened.table (front.flatMap asLine))
      (run opened.table (front.flatMap asLine ++ back)) back again := by
  have positive := Table.limit_ne_zero_of_ofContents opens
  cases (Table.ofContents_empty positive).symm.trans opens
  have holds := Table.holds_fresh positive
  have self : (Table.fresh limit).Alike limit (Table.fresh limit) :=
    ⟨Table.twins_fresh, ⟨[], holds⟩, ⟨[], holds⟩⟩
  have onwards := holds.overLines_append stays
  have stops := onwards []
  rw [List.append_nil] at stops
  rw [run, lines_flatMap_asLine lines, stops] at first small
  rw [run, lines_flatMap_asLine_append lines, onwards] at whole
  rw [run, lines_flatMap_asLine lines, stops, run, lines_flatMap_asLine_append lines, onwards]
  obtain ⟨twins, ⟨cells, inOrder⟩, -⟩ := alike_tableAfter self front
  generalize Session.printed (Table.fresh limit) front = shown
  generalize tableAfter (Table.fresh limit) front = table at first small whole twins inOrder ⊢
  -- At the split, the table is saved and opened again.
  rcases inOrder.save_cases with ⟨after, saves, -⟩ | ⟨refused, -⟩
  · rw [overLines_nil_of_save saves] at small
    obtain ⟨again, reopens, marked, twins', inOrder'⟩ := twins.reopened inOrder saves small
    obtain ⟨out, err, ending, file⟩ :=
      sameTranscript ⟨twins', ⟨cells, inOrder⟩, ⟨cells, inOrder'⟩⟩ back.lines
    rw [overLines_nil_of_save saves]
    refine ⟨again, reopens, marked, ending.trans whole, ⟨shown, rfl, ?_⟩, err.symm, file whole⟩
    rw [run, out]
  · rw [overLines, finish, refused] at first
    cases first

/-- A row that was inserted before the split is found after it. -/
theorem splits_single : ∃ again, Resumed 1 (run (Table.fresh 1) (text "create int\ninsert 5\n"))
    (run (Table.fresh 1) (text "create int\ninsert 5\ninsert 5\nselect\n"))
    (text "insert 5\nselect\n") again := by
  have opens := Table.ofContents_empty (by decide : (1 : UInt32) ≠ 0)
  have lines : ∀ line ∈ [text "create int", text "insert 5"], line.OneLine := by decide
  have stays : ∀ line ∈ [text "create int", text "insert 5"],
      Command.ofLine? line ≠ some .exit := by
    simp only [List.forall_mem_cons]
    exact ⟨nofun, nofun, nofun⟩
  refine splits opens lines stays (text "insert 5\nselect\n") rfl ?_ rfl
  rw [Store.length_contents]
  decide

end Session

end RowStore
