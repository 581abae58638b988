import RowStore.Fault

/-!
# Columns and their definitions

A column has a name and holds integers or texts. The width of a column is the
number of bytes that it takes in a row: four for integers, and for texts the
largest length that it allows.

A definition is a type, `int` or `text(n)`, with or without a name and a colon
in front. The name ends at the first colon, so the type of a definition with a
name may hold further colons and the name none. A column that has no name is
called after its position. The printed form of a column is a definition with a
name.
-/

set_option autoImplicit false

namespace RowStore

/-- What a column holds: signed integers of 32 bits, or strings of bytes up to a length. -/
inductive Column.Kind where
  | integer
  | text
  deriving DecidableEq

/-- A column of a table: its name, what it holds, and the number of bytes that it takes in a row. -/
structure Column where
  name : Bytes
  kind : Column.Kind
  width : UInt32
  deriving DecidableEq

namespace Column

/-- The width of a column of integers. -/
def integerWidth : UInt32 := 4

/-- A column of integers. -/
def integers (name : Bytes) : Column := { name, kind := .integer, width := integerWidth }

/-- A column of texts up to the given length. -/
def texts (name : Bytes) (width : UInt32) : Column := { name, kind := .text, width }

/-- The name of a column without a name of its own. -/
def defaultName (position : Nat) : Bytes := text "column" ++ Decimal.ofNat position

/-- What stands between `text(` and the closing parenthesis of a text type, which is never
nothing. -/
def textWidthNumeral? (type : Bytes) : Option Bytes :=
  if 6 < type.length && (text "text(").isPrefixOf type && type.getLast? == some 41 then
    some (type.drop 5).dropLast
  else
    none

/-- The column with a given name and type. The whole definition is only quoted. -/
def ofType (definition name type : Bytes) : Except SchemaDefect Column :=
  if type = text "int" then
    .ok (integers name)
  else
    match textWidthNumeral? type with
    | none => .error (.unknownType type)
    | some numeral =>
      match Decimal.toUInt32? numeral with
      | none => .error (.textSize definition)
      | some width =>
        if width = 0 then .error (.textSize definition)
        else if maxValueLength < width.toNat then .error (.textTooLarge width)
        else .ok (texts name width)

/-- The column that a definition describes, at the given position of its table. -/
def ofDefinition (position : Nat) (definition : Bytes) : Except SchemaDefect Column :=
  match definition.dropWhile (· != 58) with
  | [] => ofType definition (defaultName position) definition
  | _ :: type =>
    let name := definition.takeWhile (· != 58)
    if name.isEmpty then .error (.emptyName definition) else ofType definition name type

/-- The columns that consecutive definitions describe, the first one at the given position. -/
def ofDefinitions : Nat → List Bytes → Except SchemaDefect (List Column)
  | _, [] => .ok []
  | position, definition :: definitions => do
    let column ← ofDefinition position definition
    let columns ← ofDefinitions (position + 1) definitions
    return column :: columns

/-- The printed form of what a column holds. -/
def typeToText (column : Column) : Bytes :=
  match column.kind with
  | .integer => text "int"
  | .text => text "text(" ++ Decimal.ofNat column.width.toNat ++ text ")"

/-- The printed form of a column. -/
def toText (column : Column) : Bytes := column.name ++ 58 :: column.typeToText

end Column

end RowStore
