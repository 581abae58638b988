import RowStore.Bytes.Decimal
import RowStore.Page

/-!
# Faults

Everything that can go wrong, as causes: what about a page is damaged, which
limit a value or the store would pass, why a row or a column list is refused.
`Fault.message` is the one place where a cause becomes a text.

A fault that concerns a page names it, and its message starts with the page. A
message ends at its first zero byte, which can come from a name or a value that
the message quotes.
-/

set_option autoImplicit false

namespace RowStore

/-- What could not be read from the file: a page, or the header that comes before all pages. -/
inductive ReadFailure where
  | page
  | header
  deriving DecidableEq

/-- What is wrong with a file, with a page, or with the way the pages refer to each other. The file
does not consist of whole pages, a page ends within what it should hold or counts more than it can
hold, it is no leaf or no branch where one is expected, its references lead back to where they
started, or the parent of a page that was split does not have it where its keys belong. -/
inductive PageDefect where
  | fileSize
  | unknownTag (tag : UInt8)
  | branchHeader
  | separatorCount (count : UInt32)
  | separators
  | childCountMissing
  | childCountMismatch
  | children
  | leafHeader
  | cellCount (count : UInt32)
  | cell
  | valueTooLong
  | value
  | notLeaf
  | notBranch
  | parentCycle
  | referenceCycle
  | strayChild (child : PageNumber)
  deriving DecidableEq

/-- Which limit would be passed. A value, a node or a column list is too large for a page, a leaf
cannot be cut in two so that a new value fits or has too few cells to make two of it, or all pages
are in use, or more of them than a cut leaves room for. -/
inductive Shortage where
  | value (length : Nat)
  | node (size : Nat)
  | leaf (id : PageNumber)
  | cells (id : PageNumber)
  | pages (limit : UInt32)
  | split (needed : Nat)
  | header (size : Nat)
  deriving DecidableEq

/-- Why a row is refused, as words, as values or as bytes. Columns are given by name. -/
inductive RowDefect where
  | wordCount (expected : Nat) (found : Nat)
  | notInteger (word : Bytes) (column : Bytes)
  | tooLong (column : Bytes) (limit : UInt32)
  | valueCount (found : Nat) (expected : Nat)
  | expectsInteger (column : Bytes)
  | expectsText (column : Bytes) (limit : UInt32)
  | oversized
  | byteCount (found : Nat) (expected : Nat)
  | unreadable (column : Bytes)
  deriving DecidableEq

/-- Why a column, or a list of columns, is refused: as a definition, because of the rows that are
or would be stored, or as the bytes of a header. -/
inductive SchemaDefect where
  | emptyName (definition : Bytes)
  | textSize (definition : Bytes)
  | textTooLarge (size : UInt32)
  | unknownType (type : Bytes)
  | rowTooLarge (column : Bytes) (size : Nat)
  | rowsStored
  | truncatedList
  | columnCount (count : UInt32)
  | truncatedColumn (position : Nat)
  | unknownTag (tag : UInt8)
  | integerSize (position : Nat) (size : UInt32)
  | nameTooLong (length : UInt32)
  | truncatedName (position : Nat)
  deriving DecidableEq

/-- What can go wrong. The fault `undefined` is not one that is reported: an entry of a page is used
that the page does not have, and what a program does then is undefined. -/
inductive Fault where
  | unreadable (page : PageNumber) (failure : ReadFailure)
  | corrupt (page : PageNumber) (defect : PageDefect)
  | shortage (shortage : Shortage)
  | undefined (page : PageNumber)
  | duplicateKey (key : Key)
  | schemaUndefined
  | keyNotInteger
  | row (defect : RowDefect)
  | schema (defect : SchemaDefect)
  | pathTooLong (path : Bytes)
  | fileNotCreated (path : Bytes)
  | fileNotOpened (path : Bytes)
  deriving DecidableEq

/-! ## Wording -/

/-- The wording of a read failure. -/
def ReadFailure.message : ReadFailure → Bytes
  | page => text "Failed to read"
  | header => text "Failed to read the meta page"

/-- The wording of a page defect. -/
def PageDefect.message : PageDefect → Bytes
  | fileSize => text "File size is not a multiple of the page size"
  | unknownTag tag => text "Unknown node tag " ++ Decimal.ofNat tag.toNat
  | branchHeader => text "Truncated internal node header"
  | separatorCount count => text "Implausible key count " ++ Decimal.ofNat count.toNat
  | separators => text "Truncated internal node keys"
  | childCountMissing => text "Truncated internal node child count"
  | childCountMismatch => text "Internal node child count does not match key count"
  | children => text "Truncated internal node children"
  | leafHeader => text "Truncated leaf node header"
  | cellCount count => text "Implausible cell count " ++ Decimal.ofNat count.toNat
  | cell => text "Truncated leaf cell"
  | valueTooLong => text "Leaf value length runs past the page"
  | value => text "Truncated leaf value"
  | notLeaf => text "Expected a leaf node"
  | notBranch => text "Expected an internal node"
  | parentCycle => text "Parent references form a cycle"
  | referenceCycle => text "Page references form a cycle"
  | strayChild child =>
    text "Split page " ++ Decimal.ofNat child.toNat ++ text " is not a child at its key position"

/-- The wording of a shortage. -/
def Shortage.message : Shortage → Bytes
  | value length =>
    text "Value of " ++ Decimal.ofNat length ++ text " bytes can not fit in a page"
  | node size => text "Node of " ++ Decimal.ofNat size ++ text " bytes does not fit in a page"
  | leaf id =>
    text "Leaf " ++ Decimal.ofNat id.toNat ++ text " can not be split to fit the value"
  | cells id => text "Leaf " ++ Decimal.ofNat id.toNat ++ text " has too few cells to split"
  | pages limit =>
    text "Table is full, " ++ Decimal.ofNat limit.toNat ++ text " pages in use"
  | split needed =>
    text "Table is full, inserting needs " ++ Decimal.ofNat needed ++ text " more pages"
  | header size =>
    text "Schema of " ++ Decimal.ofNat size ++ text " bytes does not fit in the meta page"

/-- The wording of a row defect. -/
def RowDefect.message : RowDefect → Bytes
  | wordCount expected found =>
    text "Expected " ++ Decimal.ofNat expected ++ text " values but got " ++ Decimal.ofNat found
  | notInteger word column =>
    text "Invalid integer '" ++ word ++ text "' for column " ++ column
  | tooLong column limit =>
    text "Value for column " ++ column ++ text " is longer than " ++
      Decimal.ofNat limit.toNat ++ text " bytes"
  | valueCount found expected =>
    text "Row has " ++ Decimal.ofNat found ++ text " values but the schema has " ++
      Decimal.ofNat expected ++ text " columns"
  | expectsInteger column => text "Column " ++ column ++ text " expects an integer"
  | expectsText column limit =>
    text "Column " ++ column ++ text " expects text of at most " ++
      Decimal.ofNat limit.toNat ++ text " bytes"
  | oversized => text "Failed to serialise row"
  | byteCount found expected =>
    text "Row has " ++ Decimal.ofNat found ++ text " bytes, expected " ++ Decimal.ofNat expected
  | unreadable column => text "Failed to read column " ++ column

/-- The wording of a schema defect. -/
def SchemaDefect.message : SchemaDefect → Bytes
  | emptyName definition => text "Column name is empty in '" ++ definition ++ text "'"
  | textSize definition => text "Invalid text size in '" ++ definition ++ text "'"
  | textTooLarge size =>
    text "Text size " ++ Decimal.ofNat size.toNat ++
      text " is larger than the maximum row size " ++ Decimal.ofNat maxValueLength
  | unknownType type => text "Unknown column type '" ++ type ++ text "'"
  | rowTooLarge column size =>
    text "Adding column " ++ column ++ text " makes rows of " ++ Decimal.ofNat size ++
      text " bytes, the maximum is " ++ Decimal.ofNat maxValueLength
  | rowsStored => text "Cannot change the schema of a table that has rows"
  | truncatedList => text "Truncated column list"
  | columnCount count => text "Implausible column count " ++ Decimal.ofNat count.toNat
  | truncatedColumn position => text "Truncated column " ++ Decimal.ofNat position
  | unknownTag tag => text "Unknown column type tag " ++ Decimal.ofNat tag.toNat
  | integerSize position size =>
    text "Integer column " ++ Decimal.ofNat position ++ text " has size " ++
      Decimal.ofNat size.toNat
  | nameTooLong length =>
    text "Implausible column name length " ++ Decimal.ofNat length.toNat
  | truncatedName position => text "Truncated column name " ++ Decimal.ofNat position

/-- A text about a page, with the page in front. -/
def aboutPage (page : PageNumber) (message : Bytes) : Bytes :=
  text "Page " ++ Decimal.ofNat page.toNat ++ text ": " ++ message

/-- The full wording of a fault. -/
def Fault.wording : Fault → Bytes
  | unreadable page failure => aboutPage page failure.message
  | corrupt page defect => aboutPage page defect.message
  | shortage cause => cause.message
  | undefined page => aboutPage page (text "Missing entry")
  | duplicateKey key => text "Duplicate key " ++ Decimal.ofInt key.toInt
  | schemaUndefined => text "Schema is not defined"
  | keyNotInteger => text "Primary key must be an integer"
  | row defect => defect.message
  | schema defect => defect.message
  | pathTooLong path =>
    text "filesystem error: status: File name too long [" ++ path ++ text "]"
  | fileNotCreated path => text "Failed to create database file " ++ path
  | fileNotOpened path => text "Failed to open database file " ++ path

/-- The message of a fault, which ends at the first zero byte of its wording. -/
def Fault.message (fault : Fault) : Bytes := fault.wording.untilZero

/-- Whether the fault concerns a page, after which what is in memory is not to be trusted. -/
def Fault.isAboutPage : Fault → Bool
  | unreadable _ _ => true
  | corrupt _ _ => true
  | _ => false

end RowStore
