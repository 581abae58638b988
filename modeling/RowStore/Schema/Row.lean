import RowStore.Bytes.Reader
import RowStore.Schema.Basic

/-!
# Rows: words, values and bytes

A row is read from words, one for each column, and printed with its values
between parentheses. Its bytes are those of its values one after the other:
integers as words, texts filled up with zero bytes to the width of their column.
All rows of a schema therefore have the same number of bytes. Reading the bytes
of a text drops the zero bytes at its end, so a text that ends in zero bytes
comes back without them, and every other row comes back as it was.
-/

set_option autoImplicit false

namespace RowStore

/-- A value in a row. -/
inductive Value where
  | integer (number : Int32)
  | text (bytes : Bytes)
  deriving DecidableEq

/-- A row of a table. -/
abbrev Row := List Value

/-- The printed form of a value: a numeral, or the bytes of a text as they are. -/
def Value.toText : Value → Bytes
  | integer number => Decimal.ofInt number.toInt
  | text bytes => bytes

/-- The printed form of a row. -/
def Row.toText (row : Row) : Bytes :=
  text "(" ++ (text ", ").intercalate (row.map Value.toText) ++ text ")"

/-! ## One column -/

namespace Column

/-- The value that a word has in a column. -/
def valueOfWord (column : Column) (word : Bytes) : Except RowDefect Value :=
  match column.kind with
  | .integer =>
    match Decimal.toInt32? word with
    | some number => .ok (.integer number)
    | none => .error (.notInteger word column.name)
  | .text =>
    if word.length ≤ column.width.toNat then .ok (.text word)
    else .error (.tooLong column.name column.width)

/-- The bytes of a value in a column. -/
def valueToBytes (column : Column) (value : Value) : Except RowDefect Bytes :=
  match column.kind, value with
  | .integer, .integer number => .ok (Word.signedToBytes number)
  | .integer, .text _ => .error (.expectsInteger column.name)
  | .text, .text bytes =>
    if bytes.length ≤ column.width.toNat then .ok (bytes.padTo column.width.toNat)
    else .error (.expectsText column.name column.width)
  | .text, .integer _ => .error (.expectsText column.name column.width)

/-- The value of a column at the front of what is left of a row. -/
def readValue (column : Column) : Reader RowDefect Value :=
  match column.kind with
  | .integer => do
    return .integer (← Reader.signed (.unreadable column.name))
  | .text => do
    let bytes ← Reader.block column.width.toNat (.unreadable column.name)
    return .text bytes.withoutPadding

/-- The values of words, column by column. -/
def valuesOfWords : List Column → List Bytes → Except RowDefect Row
  | column :: columns, word :: words => do
    let value ← column.valueOfWord word
    let row ← valuesOfWords columns words
    return value :: row
  | _, _ => .ok []

/-- The bytes of values, column by column. -/
def valuesToBytes : List Column → Row → Except RowDefect Bytes
  | column :: columns, value :: row => do
    let front ← column.valueToBytes value
    let back ← valuesToBytes columns row
    return front ++ back
  | _, _ => .ok []

/-- The values of all columns, one after the other. -/
def readValues : List Column → Reader RowDefect Row
  | [] => pure []
  | column :: columns => do
    let value ← column.readValue
    let row ← readValues columns
    return value :: row

end Column

/-! ## Whole rows -/

namespace Schema

/-- The row that a list of words describes. -/
def rowOfWords (schema : Schema) (words : List Bytes) : Except RowDefect Row :=
  if words.length = schema.columns.length then Column.valuesOfWords schema.columns words
  else .error (.wordCount schema.columns.length words.length)

/-- The bytes of a row. -/
def rowToBytes (schema : Schema) (row : Row) : Except RowDefect Bytes :=
  if row.length = schema.columns.length then do
    let bytes ← Column.valuesToBytes schema.columns row
    if bytes.length ≤ schema.rowWidth then return bytes.padTo schema.rowWidth
    else throw .oversized
  else
    .error (.valueCount row.length schema.columns.length)

/-- The row that a string of bytes describes. -/
def rowOfBytes (schema : Schema) (bytes : Bytes) : Except RowDefect Row :=
  if bytes.length = schema.rowWidth then (Column.readValues schema.columns).result bytes
  else .error (.byteCount bytes.length schema.rowWidth)

end Schema

end RowStore
