import RowStore.Bytes.Reader
import RowStore.Schema.Basic

/-!
# Column lists as bytes

A column list starts with the number of columns. Each column is a tag, 0 for
integers and 1 for texts, its width, the length of its name and its name. Bytes
after the last column are ignored, so a list may stand at the front of a header
page.

Reading refuses a count or a name length that the bytes at hand cannot hold,
columns of integers whose width is not four, and columns whose rows would
not fit a page.
-/

set_option autoImplicit false

namespace RowStore

namespace Column

/-- The tag of what a column holds. -/
def Kind.tag : Kind → UInt8
  | integer => 0
  | text => 1

/-- What a tag says that a column holds. -/
def Kind.ofTag? (tag : UInt8) : Option Kind :=
  if tag = 0 then some integer else if tag = 1 then some text else none

/-- The bytes of a column. -/
def toBytes (column : Column) : Bytes :=
  column.kind.tag :: Word.toBytes column.width ++ Word.countToBytes column.name.length ++
    column.name

/-- The fewest bytes that a column takes. -/
def smallestSize : Nat := 9

/-- The column at a position of a list that takes `total` bytes. -/
def read (total position : Nat) : Reader SchemaDefect Column := do
  let tag ← Reader.byte (.truncatedColumn position)
  let width ← Reader.word (.truncatedColumn position)
  let length ← Reader.word (.truncatedColumn position)
  match Kind.ofTag? tag with
  | none => Reader.fail (.unknownTag tag)
  | some kind =>
    if kind = .integer ∧ width ≠ integerWidth then
      Reader.fail (.integerSize position width)
    else if total < length.toNat then
      Reader.fail (.nameTooLong length)
    else
      let name ← Reader.block length.toNat (.truncatedName position)
      return { name, kind, width }

end Column

namespace Schema

/-- The bytes of a schema. -/
def toBytes (schema : Schema) : Bytes :=
  Word.countToBytes schema.columns.length ++ schema.columns.flatMap Column.toBytes

/-- A schema followed by as many columns as said, from a list that takes `total` bytes. -/
def readColumns (total : Nat) : Nat → Schema → Reader SchemaDefect Schema
  | 0, schema => pure schema
  | count + 1, schema => do
    let column ← Column.read total schema.columns.length
    match schema.push column with
    | .ok more => readColumns total count more
    | .error defect => Reader.fail defect

/-- The schema at the front of `total` bytes. -/
def read (total : Nat) : Reader SchemaDefect Schema := do
  let count ← Reader.word .truncatedList
  if count.toNat ≤ total / Column.smallestSize then readColumns total count.toNat empty
  else Reader.fail (.columnCount count)

/-- The schema at the front of a string of bytes. -/
def ofBytes (bytes : Bytes) : Except SchemaDefect Schema := (read bytes.length).result bytes

end Schema

end RowStore
