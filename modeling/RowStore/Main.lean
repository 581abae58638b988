import RowStore.CommandLine

/-!
# The program

The loop that reads lines from the standard input, lets the session react to
them and writes the file whenever its bytes have changed. Nothing is decided
here: what a line leads to is `Session.react`, and what the program answers to
its arguments is in `RowStore.CommandLine`.
-/

set_option autoImplicit false

namespace RowStore

namespace Program

/-- The name under which the program tells how to call it. -/
def name : Bytes := text "rowstore"

/-- Write a string of bytes and pass it on at once. -/
def put (stream : IO.FS.Stream) (bytes : Bytes) : IO Unit := do
  stream.write bytes.toByteArray
  stream.flush

/-- Make an empty file where there is nothing. -/
def makeFile (path : String) : IO Place := do
  try
    IO.FS.writeBinFile path .empty
    return .vacant
  catch _ => return .unreachable

/-- What is at a path. Nothing is there when a directory on the way is missing, or is not a
directory; a path that the system does not accept is too long; what can be found but not read is
no file. -/
def look (path : String) : IO Place := do
  try
    return .file (← IO.FS.readBinFile path).toList
  catch
    | .noFileOrDirectory .. => makeFile path
    | .inappropriateType (some _) .. => makeFile path
    | .invalidArgument (some _) .. => return .tooLong
    | _ => return .notFile

/-- Bring the file up to date with the table, if it is not. -/
def writeBack (path : String) (before after : Table) : IO Unit := do
  let contents := after.store.contents
  unless before.store.contents = contents do
    IO.FS.writeBinFile path contents.toByteArray

/-- The next line of the standard input, and what was read beyond it. -/
partial def readLine (ahead : Bytes) : IO (Option Bytes × Bytes) := do
  match ahead.dropWhile (· != 10) with
  | _ :: rest => return (some (ahead.takeWhile (· != 10)), rest)
  | [] =>
    let more ← (← IO.getStdin).read 4096
    if more.isEmpty then
      return (if ahead.isEmpty then none else some ahead, [])
    else
      readLine (ahead ++ more.toList)

/-- Hold the session on a table from some point on. -/
partial def converse (path : String) (table : Table) (ahead : Bytes) : IO UInt32 := do
  let out ← IO.getStdout
  let err ← IO.getStderr
  put out prompt
  match ← readLine ahead with
  | (some line, ahead) =>
    let reaction := Session.react table line
    put out reaction.out
    put err reaction.err
    writeBack path table reaction.table
    match reaction.status with
    | some status => return status
    | none => converse path reaction.table ahead
  | (none, _) =>
    let (saved, ending) := Session.finish table
    writeBack path table saved
    match ending with
    | .status status => return status
    | .fault fault =>
      put err fault.report
      return 1

/-- Run the program with the given arguments. -/
def run (arguments : List String) : IO UInt32 := do
  let err ← IO.getStderr
  match arguments with
  | [path] =>
    let place ← look path
    match place.openFile (text path) >>= (Table.ofContents · Store.defaultLimit) with
    | .error fault =>
      put err fault.report
      return 1
    | .ok opened =>
      put err (CommandLine.notices opened)
      converse path opened.table []
  | _ =>
    put err (CommandLine.usage name)
    return 1

end Program

end RowStore

/-- Run the program. -/
def main (arguments : List String) : IO UInt32 := RowStore.Program.run arguments
