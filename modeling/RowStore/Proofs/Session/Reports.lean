import RowStore.Proofs.Session.Files

/-!
# Reports

A line of output that begins like the report of a fault is one: no row, notice or quoted
word looks like it, since what is printed comes from words and stays on its line. A command
whose fault is reported has changed nothing but what is in memory, it prints nothing else,
and the session goes on with the next line (`Session.AtPrompt.only_reports`). This holds for
every table that lines of sessions lead to, beginning with an empty file, as long as the
sizes of the files that are opened fit a word.
-/

set_option autoImplicit false

namespace RowStore

open Store Bytes

namespace Session

/-- A table at a prompt: at the beginning of a session on an empty file, after any line, after the
end of the input, or when the file is opened for the next session and has fewer than `2 ^ 32`
bytes. -/
inductive AtPrompt : Table → Prop where
  | opened {limit : UInt32} {opened : Table.Opened} :
      Table.ofContents [] limit = .ok opened → AtPrompt opened.table
  | reacted {table : Table} (line : Bytes) : AtPrompt table → AtPrompt (react table line).table
  | finished {table : Table} : AtPrompt table → AtPrompt (finish table).1
  | reopened {table : Table} {limit : UInt32} {opened : Table.Opened} : AtPrompt table →
      table.store.contents.length < UInt32.size → limit ≠ 0 →
      Table.ofContents table.store.contents limit = .ok opened → AtPrompt opened.table

theorem AtPrompt.ready {table : Table} (reached : AtPrompt table) : Ready table := by
  induction reached with
  | opened opens =>
    obtain ⟨opened, opens', -, ready, -⟩ :=
      readable_nil.opens (by decide) (Table.limit_ne_zero_of_ofContents opens)
    cases opens.symm.trans opens'
    exact ready
  | reacted line _ ih => exact ih.react line
  | finished _ ih => exact ih.finish
  | reopened _ small positive opens ih =>
    obtain ⟨opened, opens', -, ready, -⟩ := ih.file.opens small positive
    cases opens.symm.trans opens'
    exact ready

/-- A line of the output or of the error output begins like the report of a fault. -/
def ReportsFault (reaction : Reaction) : Prop :=
  ∃ printed ∈ reaction.out.lines ++ reaction.err.lines, text "Error: " <+: printed

/-- The command on the line fails with a fault. -/
def FailsWith (table : Table) (line : Bytes) (fault : Fault) : Prop :=
  ∃ command after, Command.ofLine? line = some command ∧ command.run table = .error fault after

/-- The line of a session does nothing but report the fault of its command. One line is printed,
nothing is changed, and the session goes on with the next line. -/
structure OnlyReports (table : Table) (line : Bytes) : Prop where
  report : ∃ fault, FailsWith table line fault ∧ (react table line).out = fault.report
  single : ∃ message : Bytes, message.OneLine ∧
    (react table line).out = asLine (text "Error: " ++ message)
  err : (react table line).err = []
  schema : (react table line).table.schema = table.schema
  tree : (react table line).table.tree = table.tree
  pages : (react table line).table.store.pagesInUse = table.store.pagesInUse
  nodes : ∀ id, (react table line).table.store.peek id = table.store.peek id
  rows : answer Table.rows (react table line).table = answer Table.rows table
  contents : (react table line).table.store.contents = table.store.contents
  goesOn : ∀ lines, overLines table (line :: lines) =
    { overLines (react table line).table lines with
      out := prompt ++ (react table line).out ++ (overLines (react table line).table lines).out }

section Line

variable {table : Table} {cells cells' : List (Key × Bytes)} {line : Bytes} {reaction : Reaction}
  (reacts : Reacts table cells line reaction cells')
  (printable : Table.Printable table.schema cells)
include reacts printable

/-- What an answer prints does not look like a report. -/
theorem Reacts.of_reportsFault (reports : ReportsFault reaction) :
    ∃ fault after, FailsWith table line fault ∧ fault.message.OneLine ∧ table.Unchanged after ∧
      reaction = { table := after, out := fault.report } := by
  obtain ⟨printed, member, begins⟩ := reports
  cases reacts with
  | blank => cases member
  | answered read run done =>
    obtain ⟨lines, output, plain⟩ := done.output printable (Command.quotable_arguments read)
    dsimp only at member
    rw [output, lines_flatMap_asLine fun line inLines => (plain line inLines).1] at member
    rcases List.mem_append.mp member with inOut | inErr
    · exact absurd begins (plain printed inOut).2
    · cases inErr
  | refused read run refused unchanged =>
    exact ⟨_, _, ⟨_, _, read, run⟩,
      refused.oneLine_message printable (Command.quotable_arguments read), unchanged, rfl⟩

/-- A command that fails is reported. -/
theorem Reacts.reportsFault {fault : Fault} (fails : FailsWith table line fault) :
    ReportsFault reaction := by
  obtain ⟨command, after, read, run⟩ := fails
  cases reacts with
  | blank read' => cases read'.symm.trans read
  | answered read' run' =>
    cases read'.symm.trans read
    cases run'.symm.trans run
  | @refused _ fault after read' run' refused =>
    have one := refused.oneLine_message printable (Command.quotable_arguments read')
    refine ⟨text "Error: " ++ fault.message, List.mem_append_left _ ?_, List.prefix_append _ _⟩
    rw [Fault.report, lines_asLine (oneLine_append.mpr ⟨by decide, one⟩)]
    exact List.mem_singleton_self _

end Line

/-- **A line reports a fault exactly if its command fails, and then it does nothing else.** -/
theorem AtPrompt.only_reports {table : Table} (reached : AtPrompt table) (line : Bytes) :
    ((∃ fault, FailsWith table line fault) ↔ ReportsFault (react table line)) ∧
      (ReportsFault (react table line) → OnlyReports table line) := by
  obtain ⟨cells, holds, printable⟩ := reached.ready.current
  obtain ⟨cells', reacts⟩ := holds.react line
  refine ⟨⟨fun ⟨fault, fails⟩ => reacts.reportsFault printable fails, fun reports => ?_⟩,
    fun reports => ?_⟩
  · obtain ⟨fault, -, fails, -⟩ := reacts.of_reportsFault printable reports
    exact ⟨fault, fails⟩
  · obtain ⟨fault, after, fails, one, unchanged, reaction⟩ :=
      reacts.of_reportsFault printable reports
    have isTable : (react table line).table = after := congrArg Reaction.table reaction
    have out : (react table line).out = fault.report := congrArg Reaction.out reaction
    have err : (react table line).err = [] := congrArg Reaction.err reaction
    have goesOn : (react table line).status = none := congrArg Reaction.status reaction
    have same : table.Unchanged (react table line).table := isTable ▸ unchanged
    exact {
      report := ⟨fault, fails, out⟩
      single := ⟨fault.message, one, out⟩
      err
      schema := same.schema
      tree := same.tree
      pages := congrArg View.pagesInUse same.view
      nodes := fun id => congrFun (congrArg View.nodes same.view) id
      rows := Table.answer_rows_congr holds (same.holds holds) same.schema
      contents := same.contents
      goesOn := fun lines => by rw [overLines_cons goesOn, err]; rfl }

/-- A table with one row, which two lines of a session made. -/
def tableOfLines : Table :=
  (react (react (Table.fresh 1) (text "create int")).table (text "insert 5")).table

/-- Inserting the row once more is reported. -/
theorem only_reports_duplicate :
    (react tableOfLines (text "insert 5")).out = asLine (text "Error: Duplicate key 5") ∧
      OnlyReports tableOfLines (text "insert 5") := by
  have created : AtPrompt (Table.fresh 1) :=
    .opened (Table.ofContents_empty (by decide : (1 : UInt32) ≠ 0))
  have reached : AtPrompt tableOfLines :=
    (created.reacted (text "create int")).reacted (text "insert 5")
  obtain ⟨reported, only⟩ := reached.only_reports (text "insert 5")
  exact ⟨rfl, only (reported.mp ⟨.duplicateKey 5, .insert [text "5"], _, rfl, rfl⟩)⟩

end Session

end RowStore
