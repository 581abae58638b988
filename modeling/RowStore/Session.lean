import RowStore.Command

/-!
# Sessions

A session prompts for a line, runs the command on it, and goes on until a
command ends it or the input does. At the end of the input the table is saved.

A fault that concerns a page ends the session, since what is in memory is not
to be trusted any more: its message goes to the error output and the status is
one. The message of any other fault is part of the output, and the session goes
on. A fault while saving at the end of the input is left to the caller.

An undefined fault is none that could be reported, and what a session does after
it has no meaning. Files of fewer than `2 ^ 32` bytes do not lead to one.
-/

set_option autoImplicit false

namespace RowStore

/-- What a session prints before it reads a line. -/
def prompt : Bytes := text "db > "

/-- The line that reports a fault. -/
def Fault.report (fault : Fault) : Bytes := asLine (text "Error: " ++ fault.message)

/-- What a line of input leads to: the table after it, what goes to the output and to the error
output, and the exit status, if the session is over. -/
structure Reaction where
  table : Table
  out : Bytes := []
  err : Bytes := []
  status : Option UInt32 := none

/-- How a session ends: with an exit status, or with the fault of its last save. -/
inductive Ending where
  | status (code : UInt32)
  | fault (fault : Fault)
  deriving DecidableEq

/-- A whole session: the table after it, all that was written to the two outputs, and its end. -/
structure Transcript where
  table : Table
  out : Bytes
  err : Bytes := []
  ending : Ending

namespace Session

/-- What a line leads to. -/
def react (table : Table) (line : Bytes) : Reaction :=
  match Command.ofLine? line with
  | none => { table }
  | some command =>
    match command.run table with
    | .ok response table =>
      { table, out := response.output, status := if response.isLast then some 0 else none }
    | .error fault table =>
      if fault.isAboutPage then { table, err := fault.report, status := some 1 }
      else { table, out := fault.report }

/-- The end of the input. -/
def finish (table : Table) : Table × Ending :=
  match Table.save table with
  | .ok _ table => (table, .status 0)
  | .error fault table => (table, .fault fault)

/-- A session over lines of input. -/
def overLines (table : Table) : List Bytes → Transcript
  | [] =>
    let (table, ending) := finish table
    { table, out := prompt, ending }
  | line :: lines =>
    let reaction := react table line
    match reaction.status with
    | some code =>
      { table := reaction.table
        out := prompt ++ reaction.out
        err := reaction.err
        ending := .status code }
    | none =>
      let later := overLines reaction.table lines
      { later with
        out := prompt ++ reaction.out ++ later.out
        err := reaction.err ++ later.err }

/-- A session over an input. -/
def run (table : Table) (input : Bytes) : Transcript := overLines table input.lines

end Session

end RowStore
