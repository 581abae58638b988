import RowStore.Bytes.Words
import RowStore.Table

/-!
# Commands

A command is a line of words, and its first word says which command it is.
Words that a command has no use for are ignored. Running a command answers with
what is to be printed and whether the session is over; a command that fails
answers nothing.
-/

set_option autoImplicit false

namespace RowStore

/-- What can be asked of a table: to save it and end the session, to save it, to start again without
rows and columns, to add the columns of some definitions, to insert the row of some words, or to
print all rows. A first word that names none of these is kept as it is. -/
inductive Command where
  | exit
  | save
  | clear
  | create (definitions : List Bytes)
  | insert (words : List Bytes)
  | select
  | unknown (word : Bytes)
  deriving DecidableEq

/-- What a command answers: what is to be printed, and whether the session is over. -/
structure Response where
  output : Bytes := []
  isLast : Bool := false
  deriving DecidableEq

/-- A text as a line of its own. -/
def asLine (line : Bytes) : Bytes := line ++ [10]

namespace Command

/-- The command with the given first word and the words after it. -/
def ofWords (word : Bytes) (arguments : List Bytes) : Command :=
  if word = text ".exit" then exit
  else if word = text ".save" then save
  else if word = text ".clear" then clear
  else if word = text "create" then create arguments
  else if word = text "insert" then insert arguments
  else if word = text "select" then select
  else unknown word

/-- The command on a line, unless the line is blank. -/
def ofLine? (line : Bytes) : Option Command :=
  match line.words with
  | [] => none
  | word :: arguments => some (ofWords word arguments)

/-- Run a command. -/
def run : Command → TableM Response
  | exit => do
    Table.save
    return { isLast := true }
  | save => do
    Table.save
    return {}
  | clear => do
    Table.clear
    return { output := asLine (text "table reset.") }
  | create definitions => do
    let position := (← get).schema.columns.length
    let columns ← Table.lift ((Column.ofDefinitions position definitions).mapError Fault.schema)
    Table.extendSchema columns
    return {}
  | insert words => do
    Table.insert words
    return {}
  | select => do
    let rows ← Table.rows
    return { output := rows.flatMap fun row => asLine (Row.toText row) }
  | unknown word =>
    return { output := asLine (text "Unrecognized command '" ++ word ++ text "'.") }

end Command

end RowStore
