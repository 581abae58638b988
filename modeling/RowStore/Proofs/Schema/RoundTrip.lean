import RowStore.Proofs.Node.RoundTrip
import RowStore.Schema.Codec
import RowStore.Schema.Row

/-!
# Schemas and rows come back from their bytes

The format allows integers of four bytes only, so a schema is ordinary if its
columns of integers are four bytes wide. An ordinary schema is read back from the
front of any string that starts with its bytes, as long as no count is too large for its
word (`Schema.ofBytes_append_of_wordSized`): in particular from the header page, where
zeros follow it.

A row is read back from its bytes without the zero bytes at the end of its texts
(`Schema.rowOfBytes_of_rowToBytes`), since these look like padding. Every row that words
describe has bytes (`Schema.exists_rowToBytes`).
-/

set_option autoImplicit false

namespace RowStore

/-- Integers are four bytes wide. -/
def Column.Ordinary (column : Column) : Prop :=
  column.kind = .integer → column.width = Column.integerWidth

/-- Every column of the schema is one that the format allows. -/
def Schema.Ordinary (schema : Schema) : Prop := ∀ column ∈ schema.columns, column.Ordinary

theorem exists_of_bind_eq_ok {fault α β : Type} {first : Except fault α}
    {next : α → Except fault β} {result : β} (done : first >>= next = .ok result) :
    ∃ value, first = .ok value ∧ next value = .ok result := by
  cases first with
  | error fault => cases done
  | ok value => exact ⟨value, rfl, done⟩

/-! ## Columns -/

namespace Column

theorem ofTag?_tag (kind : Kind) : Kind.ofTag? kind.tag = some kind := by
  cases kind <;> rfl

theorem length_toBytes (column : Column) : column.toBytes.length = 9 + column.name.length := by
  simp only [toBytes, Word.toBytes, Word.countToBytes, List.length_append, List.length_cons,
    List.length_nil]

theorem read_toBytes {column : Column} (ordinary : column.Ordinary) {total : Nat}
    (named : column.name.length < UInt32.size) (fits : column.name.length ≤ total) (position : Nat)
    (rest : Bytes) : read total position (column.toBytes ++ rest) = .ok (column, rest) := by
  have length : (UInt32.ofNat column.name.length).toNat = column.name.length := by
    rw [UInt32.toNat_ofNat']
    exact Nat.mod_eq_of_lt named
  have allowed : ¬(column.kind = .integer ∧ column.width ≠ integerWidth) :=
    fun refused => refused.2 (ordinary refused.1)
  simp only [toBytes, List.cons_append, List.append_assoc]
  unfold read
  rw [Reader.bind_of (Reader.byte_cons ..), Reader.bind_of (Reader.word_toBytes ..),
    Word.countToBytes, Reader.bind_of (Reader.word_toBytes ..), ofTag?_tag]
  dsimp only
  rw [if_neg allowed, length, if_neg (Nat.not_lt.mpr fits), Reader.bind_of (Reader.block_append ..)]
  rfl

theorem length_flatMap_toBytes (columns : List Column) :
    (columns.flatMap toBytes).length =
      9 * columns.length + (columns.flatMap Column.name).length := by
  induction columns with
  | nil => rfl
  | cons column columns ih =>
    rw [List.flatMap_cons, List.flatMap_cons, List.length_append, List.length_append, ih,
      length_toBytes, List.length_cons]
    omega

theorem name_le_flatMap {columns : List Column} {column : Column} (member : column ∈ columns) :
    column.name.length ≤ (columns.flatMap Column.name).length :=
  (List.sublist_flatten_of_mem (List.mem_map_of_mem member)).length_le

end Column

/-! ## Schemas -/

namespace Schema

theorem ext_columns {schema other : Schema} (same : schema.columns = other.columns) :
    schema = other := by
  cases schema
  cases other
  cases same
  rfl

/-- A column is added if the rows still fit with it. -/
theorem exists_push {schema final : Schema} {column : Column} {columns : List Column}
    (columnsOf : final.columns = schema.columns ++ column :: columns) :
    ∃ more, schema.push column = .ok more ∧ final.columns = more.columns ++ columns := by
  have fits : schema.rowWidth + column.width.toNat ≤ maxValueLength := by
    have whole := final.totalWidth_le
    rw [columnsOf, List.append_cons, Column.totalWidth_append,
      totalWidth_append_singleton] at whole
    exact Nat.le_trans (Nat.le_add_right ..) whole
  cases added : schema.push column with
  | error defect =>
    rw [push, dif_pos fits] at added
    cases added
  | ok more => exact ⟨more, rfl, by rw [columns_of_push added, ← List.append_cons, columnsOf]⟩

/-- Columns are added at the end. -/
theorem columns_of_pushAll {schema more : Schema} {columns : List Column}
    (added : schema.pushAll columns = .ok more) : more.columns = schema.columns ++ columns := by
  induction columns generalizing schema with
  | nil =>
    cases added
    rw [List.append_nil]
  | cons column columns ih =>
    obtain ⟨next, first, others⟩ := exists_of_bind_eq_ok added
    rw [ih others, columns_of_push first, ← List.append_cons]

/-- The columns that are added determine the schema. -/
theorem pushAll_eq_ok_iff {schema more : Schema} {columns : List Column} :
    schema.pushAll columns = .ok more ↔ more.columns = schema.columns ++ columns := by
  refine ⟨columns_of_pushAll, fun columnsOf => ?_⟩
  induction columns generalizing schema with
  | nil =>
    rw [List.append_nil] at columnsOf
    cases ext_columns columnsOf
    rfl
  | cons column columns ih =>
    obtain ⟨next, added, columnsOf'⟩ := exists_push columnsOf
    rw [pushAll, added]
    exact ih columnsOf'

/-- Columns are added exactly if the rows still fit with all of them. -/
theorem exists_pushAll_iff {schema : Schema} {columns : List Column} :
    (∃ more, schema.pushAll columns = .ok more) ↔
      schema.rowWidth + Column.totalWidth columns ≤ maxValueLength := by
  rw [rowWidth, ← Column.totalWidth_append]
  constructor
  · rintro ⟨more, added⟩
    rw [← columns_of_pushAll added]
    exact more.totalWidth_le
  · intro fits
    exact ⟨{ columns := schema.columns ++ columns, totalWidth_le := fits },
      pushAll_eq_ok_iff.mpr rfl⟩

/-- Columns are read back one after the other, onto those that were read before. Reading goes on
with those that are left. -/
theorem readColumns_append {total : Nat} {columns : List Column} (schema middle : Schema)
    (columnsOf : middle.columns = schema.columns ++ columns)
    (readable : ∀ column ∈ columns, ∀ position rest,
      Column.read total position (column.toBytes ++ rest) = .ok (column, rest)) (left : Nat)
    (rest : Bytes) :
    readColumns total (columns.length + left) schema (columns.flatMap Column.toBytes ++ rest) =
      readColumns total left middle rest := by
  induction columns generalizing schema with
  | nil =>
    rw [List.append_nil] at columnsOf
    cases ext_columns columnsOf
    rw [List.length_nil, Nat.zero_add, List.flatMap_nil, List.nil_append]
  | cons column columns ih =>
    obtain ⟨more, added, columnsOf'⟩ := exists_push columnsOf
    rw [List.length_cons, Nat.succ_add, readColumns, List.flatMap_cons, List.append_assoc,
      Reader.bind_of (readable column List.mem_cons_self ..), added]
    exact ih more columnsOf' fun other later => readable other (List.mem_cons_of_mem _ later)

/-- The counts in the bytes of the schema fit their words, so they are the true ones. -/
def WordSized (schema : Schema) : Prop :=
  schema.columns.length < UInt32.size ∧
    ∀ column ∈ schema.columns, column.name.length < UInt32.size

/-- A column list takes four bytes, nine bytes for each column, and the names. -/
theorem length_toBytes (schema : Schema) :
    schema.toBytes.length =
      4 + 9 * schema.columns.length + (schema.columns.flatMap Column.name).length := by
  rw [toBytes, List.length_append, Word.countToBytes, Word.length_toBytes,
    Column.length_flatMap_toBytes, Nat.add_assoc]

/-- A count that does not fit its word takes that many bytes. -/
theorem wordSized_of_lt {schema : Schema} (small : schema.toBytes.length < UInt32.size) :
    schema.WordSized := by
  rw [length_toBytes] at small
  refine ⟨by omega, fun column member => ?_⟩
  have named := Column.name_le_flatMap member
  omega

/-- The number of columns is believed, and that many columns are read. -/
theorem read_toBytes_append {schema : Schema} (sized : schema.WordSized) (rest : Bytes) :
    read (schema.toBytes ++ rest).length (schema.toBytes ++ rest) =
      readColumns (schema.toBytes ++ rest).length schema.columns.length empty
        (schema.columns.flatMap Column.toBytes ++ rest) := by
  have count : (UInt32.ofNat schema.columns.length).toNat = schema.columns.length := by
    rw [UInt32.toNat_ofNat']
    exact Nat.mod_eq_of_lt sized.1
  have believable : schema.columns.length ≤
      (schema.toBytes ++ rest).length / Column.smallestSize := by
    rw [List.length_append, length_toBytes, Column.smallestSize]
    omega
  rw [read]
  generalize (schema.toBytes ++ rest).length = total at *
  rw [toBytes, List.append_assoc, Word.countToBytes, Reader.bind_of (Reader.word_toBytes ..), count,
    if_pos believable]

/-- The name of a column of the schema is not longer than any string that starts with the bytes of
the schema. -/
theorem name_le {schema : Schema} {column : Column} (member : column ∈ schema.columns)
    (rest : Bytes) : column.name.length ≤ (schema.toBytes ++ rest).length := by
  have named := Column.name_le_flatMap member
  rw [List.length_append, length_toBytes]
  omega

/-- **A schema is read back from any string that starts with its bytes**, if its counts fit their
words. -/
theorem ofBytes_append_of_wordSized {schema : Schema} (ordinary : schema.Ordinary)
    (sized : schema.WordSized) (rest : Bytes) : ofBytes (schema.toBytes ++ rest) = .ok schema := by
  have columns := readColumns_append empty schema rfl (fun column member position rest' =>
    Column.read_toBytes (ordinary column member) (sized.2 column member) (name_le member rest)
      position rest') 0 rest
  rw [Nat.add_zero] at columns
  rw [ofBytes, Reader.result, read_toBytes_append sized, columns]
  rfl

theorem ofBytes_toBytes_append {schema : Schema} (ordinary : schema.Ordinary)
    (small : schema.toBytes.length < UInt32.size) (rest : Bytes) :
    ofBytes (schema.toBytes ++ rest) = .ok schema :=
  ofBytes_append_of_wordSized ordinary (wordSized_of_lt small) rest

/-- The header page holds the schema. -/
theorem ofBytes_page {schema : Schema} (ordinary : schema.Ordinary)
    (fits : schema.toBytes.length ≤ Page.size) :
    ofBytes (Page.ofBytes schema.toBytes).bytes = .ok schema := by
  rw [Page.bytes_ofBytes_of_le _ fits]
  refine ofBytes_toBytes_append ordinary ?_ _
  exact Nat.lt_of_le_of_lt fits (by decide)

end Schema

/-! ## Rows -/

/-- Padding is dropped together with the zero bytes that were there. -/
theorem Bytes.withoutPadding_padTo (size : Nat) (bytes : Bytes) :
    (bytes.padTo size).withoutPadding = bytes.withoutPadding := by
  rw [withoutPadding, padTo, List.reverse_append, List.reverse_replicate,
    List.dropWhile_append_of_pos, ← withoutPadding]
  intro byte zero
  rw [List.eq_of_mem_replicate zero]
  rfl

/-- A value as it comes back from its bytes. -/
def Value.unpadded : Value → Value
  | integer number => .integer number
  | text bytes => .text bytes.withoutPadding

namespace Column

/-- A value that was written takes the width of its column and is read back. -/
theorem readValue_of_valueToBytes {column : Column} (ordinary : column.Ordinary) {value : Value}
    {bytes : Bytes} (written : column.valueToBytes value = .ok bytes) :
    bytes.length = column.width.toNat ∧
      ∀ rest, column.readValue (bytes ++ rest) = .ok (value.unpadded, rest) := by
  unfold valueToBytes at written
  unfold readValue
  split at written
  next number integers =>
    cases written
    rw [integers, ordinary integers]
    refine ⟨rfl, fun rest => ?_⟩
    dsimp only
    rw [Reader.bind_of (Reader.signed_toBytes ..)]
    rfl
  next => cases written
  next text texts =>
    split at written
    next fits =>
      cases written
      have length : (text.padTo column.width.toNat).length = column.width.toNat := by
        rw [Bytes.length_padTo, Nat.max_eq_left fits]
      refine ⟨length, fun rest => ?_⟩
      rw [texts]
      dsimp only
      have block := Reader.block_append (RowDefect.unreadable column.name)
        (text.padTo column.width.toNat) rest
      rw [length] at block
      rw [Reader.bind_of block, Bytes.withoutPadding_padTo]
      rfl
    next => cases written
  next => cases written

theorem readValues_of_valuesToBytes {columns : List Column}
    (ordinary : ∀ column ∈ columns, column.Ordinary) {row : Row} {bytes : Bytes}
    (matched : row.length = columns.length) (written : valuesToBytes columns row = .ok bytes) :
    bytes.length = totalWidth columns ∧
      ∀ rest, readValues columns (bytes ++ rest) = .ok (row.map Value.unpadded, rest) := by
  induction columns generalizing row bytes with
  | nil =>
    cases List.eq_nil_of_length_eq_zero matched
    cases written
    exact ⟨rfl, fun rest => rfl⟩
  | cons column columns ih =>
    cases row with
    | nil => cases matched
    | cons value row =>
      obtain ⟨front, here, more⟩ := exists_of_bind_eq_ok written
      obtain ⟨back, later, done⟩ := exists_of_bind_eq_ok more
      cases done
      obtain ⟨width, reads⟩ := readValue_of_valueToBytes (ordinary column List.mem_cons_self) here
      obtain ⟨widths, readsAll⟩ := ih (fun other member =>
        ordinary other (List.mem_cons_of_mem _ member)) (Nat.succ.inj matched) later
      refine ⟨?_, fun rest => ?_⟩
      · rw [List.length_append, width, widths]
        rfl
      · rw [readValues, List.append_assoc, Reader.bind_of (reads _),
          Reader.bind_of (readsAll rest)]
        rfl

end Column

/-- **A row is read back from its bytes**, without the zero bytes at the end of its texts. -/
theorem Schema.rowOfBytes_of_rowToBytes {schema : Schema} (ordinary : schema.Ordinary) {row : Row}
    {bytes : Bytes} (written : schema.rowToBytes row = .ok bytes) :
    bytes.length = schema.rowWidth ∧ schema.rowOfBytes bytes = .ok (row.map Value.unpadded) := by
  unfold rowToBytes at written
  split at written
  next matched =>
    obtain ⟨values, together, done⟩ := exists_of_bind_eq_ok written
    obtain ⟨width, reads⟩ := Column.readValues_of_valuesToBytes ordinary matched together
    have whole : values.length = schema.rowWidth := width
    rw [if_pos (Nat.le_of_eq whole), Bytes.padTo, whole, Nat.sub_self, List.replicate_zero,
      List.append_nil] at done
    cases done
    refine ⟨whole, ?_⟩
    have result := reads []
    rw [List.append_nil] at result
    rw [rowOfBytes, if_pos whole, Reader.result, result]
  next => cases written

/-! ## Rows of words -/

namespace Column

theorem exists_valueToBytes {column : Column} {word : Bytes} {value : Value}
    (parsed : column.valueOfWord word = .ok value) :
    ∃ bytes, column.valueToBytes value = .ok bytes := by
  unfold valueOfWord at parsed
  unfold valueToBytes
  split at parsed
  next integers =>
    rw [integers]
    split at parsed
    next number reads =>
      cases parsed
      exact ⟨_, rfl⟩
    next => cases parsed
  next texts =>
    rw [texts]
    split at parsed
    next fits =>
      cases parsed
      exact ⟨_, if_pos fits⟩
    next => cases parsed

theorem exists_valuesToBytes {columns : List Column} {words : List Bytes} {row : Row}
    (matched : words.length = columns.length) (parsed : valuesOfWords columns words = .ok row) :
    row.length = columns.length ∧ ∃ bytes, valuesToBytes columns row = .ok bytes := by
  induction columns generalizing words row with
  | nil =>
    cases parsed
    exact ⟨rfl, [], rfl⟩
  | cons column columns ih =>
    cases words with
    | nil => cases matched
    | cons word words =>
      obtain ⟨value, here, more⟩ := exists_of_bind_eq_ok parsed
      obtain ⟨others, later, done⟩ := exists_of_bind_eq_ok more
      cases done
      obtain ⟨front, first⟩ := exists_valueToBytes here
      obtain ⟨count, back, rest⟩ := ih (Nat.succ.inj matched) later
      refine ⟨congrArg Nat.succ count, front ++ back, ?_⟩
      rw [valuesToBytes, first, rest]
      rfl

end Column

/-- **Every row that words describe can be written**, and takes as many bytes as a row takes. -/
theorem Schema.exists_rowToBytes {schema : Schema} (ordinary : schema.Ordinary)
    {words : List Bytes} {row : Row} (parsed : schema.rowOfWords words = .ok row) :
    ∃ bytes, schema.rowToBytes row = .ok bytes ∧ bytes.length = schema.rowWidth := by
  unfold rowOfWords at parsed
  split at parsed
  next matched =>
    obtain ⟨count, values, together⟩ := Column.exists_valuesToBytes matched parsed
    have width : values.length = schema.rowWidth :=
      (Column.readValues_of_valuesToBytes ordinary count together).1
    have written : schema.rowToBytes row = .ok (values.padTo schema.rowWidth) := by
      rw [rowToBytes, if_pos count, together]
      exact if_pos (Nat.le_of_eq width)
    exact ⟨_, written, (rowOfBytes_of_rowToBytes ordinary written).1⟩
  next => cases parsed

end RowStore
