import RowStore.Session

/-!
# The command line

The program takes one argument, the path of a file, and holds a session on the
table in it. A file that does not exist is made. The status is zero unless the
arguments are wrong, the file cannot be opened as a table, or the session ends
with a fault.
-/

set_option autoImplicit false

namespace RowStore

/-- What is found at a path: a file, nothing where a file can be made, nothing where none can be
made, or something that cannot be opened as a file. A path is too long to be looked for if it is so
itself, or a name in it. -/
inductive Place where
  | file (contents : Bytes)
  | vacant
  | unreachable
  | notFile
  | tooLong
  deriving DecidableEq

namespace Place

/-- The bytes of the file at a place, which is made if need be. -/
def openFile (place : Place) (path : Bytes) : Except Fault Bytes :=
  match place with
  | file contents => .ok contents
  | vacant => .ok []
  | unreachable => .error (.fileNotCreated path)
  | notFile => .error (.fileNotOpened path)
  | tooLong => .error (.pathTooLong path)

end Place

/-- What a run of the program leads to: the exit status, all that was written to the two outputs,
and the bytes of the file at the path, if the program opened one. -/
structure Outcome where
  status : UInt32
  out : Bytes := []
  err : Bytes := []
  file : Option Bytes := none
  deriving DecidableEq

namespace CommandLine

/-- How the program is to be called. -/
def usage (program : Bytes) : Bytes :=
  asLine (text "usage: " ++ program ++ text " <database file>")

/-- The notices about a table that was opened, each as a line. -/
def notices (opened : Table.Opened) : Bytes :=
  match opened.unmarkedRoot with
  | some root => asLine (Table.unmarkedRootNotice root)
  | none => []

/-- A session on the table in a file. -/
def runOnFile (contents input : Bytes) : Outcome :=
  match Table.ofContents contents Store.defaultLimit with
  | .error fault => { status := 1, err := fault.report, file := some contents }
  | .ok opened =>
    let session := Session.run opened.table input
    let err := notices opened ++ session.err
    let file := some session.table.store.contents
    match session.ending with
    | .status status => { status, out := session.out, err, file }
    | .fault fault => { status := 1, out := session.out, err := err ++ fault.report, file }

/-- A run of the program, given what is found at every path. -/
def run (program : Bytes) (arguments : List Bytes) (placeOf : Bytes → Place) (input : Bytes) :
    Outcome :=
  match arguments with
  | [path] =>
    match (placeOf path).openFile path with
    | .ok contents => runOnFile contents input
    | .error fault => { status := 1, err := fault.report }
  | _ => { status := 1, err := usage program }

end CommandLine

end RowStore
