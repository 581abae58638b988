import Mathlib.Data.List.DropRight
import Mathlib.Data.List.Forall2
import RowStore.Proofs.Schema.RoundTrip

/-!
# Rows and the strings of bytes of their width

Every string of bytes that has the width of a row is a row, and that row is written as
this very string: no two strings stand for the same row, and nothing that a file can hold
in the place of a row is beyond what the schema can write. In the other direction a row
loses the zero bytes at the end of its texts, so the rows that come back as they were are
those whose texts do not end in zero bytes.

A row is written if every column admits its value (`Column.Admits`). Else the first column
that does not is what is complained about (`Column.Refuses`).
-/

set_option autoImplicit false

namespace RowStore

/-! ## Padding -/

namespace Bytes

/-- Only zero bytes are dropped from the end. -/
theorem exists_eq_withoutPadding_append (bytes : Bytes) :
    ∃ count, bytes = bytes.withoutPadding ++ List.replicate count 0 := by
  let dropped := bytes.rtakeWhile (· == 0)
  have zeros : dropped = List.replicate dropped.length 0 := by
    refine List.eq_replicate_of_mem fun byte member => ?_
    exact eq_of_beq (List.mem_rtakeWhile_imp (p := (· == 0)) member)
  refine ⟨dropped.length, ?_⟩
  rw [← zeros]
  exact List.rdropWhile_append_rtakeWhile.symm

theorem length_withoutPadding_le (bytes : Bytes) : bytes.withoutPadding.length ≤ bytes.length :=
  (List.rdropWhile_prefix _ bytes).length_le

/-- What was dropped comes back as padding. -/
theorem padTo_withoutPadding (bytes : Bytes) :
    bytes.withoutPadding.padTo bytes.length = bytes := by
  obtain ⟨count, split⟩ := exists_eq_withoutPadding_append bytes
  have length := congrArg List.length split
  rw [List.length_append, List.length_replicate] at length
  rw [padTo, length, Nat.add_sub_cancel_left]
  exact split.symm

/-- Nothing is dropped from a string that does not end in a zero byte. -/
theorem withoutPadding_eq_self_iff {bytes : Bytes} :
    bytes.withoutPadding = bytes ↔ bytes.getLast? ≠ some 0 := by
  refine List.rdropWhile_eq_self_iff.trans ?_
  cases bytes with
  | nil => simp
  | cons byte bytes => simp [List.getLast?_eq_getLast_of_ne_nil]

end Bytes

/-- A value comes back as it was unless it is a text that ends in a zero byte. -/
theorem Value.unpadded_eq_self_iff {value : Value} :
    value.unpadded = value ↔ ∀ bytes, value = .text bytes → bytes.getLast? ≠ some 0 := by
  cases value with
  | integer number => simp [unpadded]
  | text bytes => simp [unpadded, Bytes.withoutPadding_eq_self_iff]

theorem Row.map_unpadded_eq_self_iff {row : Row} :
    row.map Value.unpadded = row ↔
      ∀ bytes, Value.text bytes ∈ row → bytes.getLast? ≠ some 0 := by
  have pointwise : row.map Value.unpadded = row ↔ ∀ value ∈ row, value.unpadded = value := by
    conv_lhs => rhs; rw [← List.map_id row]
    exact List.map_inj_left
  rw [pointwise]
  constructor
  · intro kept bytes member
    exact Value.unpadded_eq_self_iff.mp (kept _ member) bytes rfl
  · rintro unpadded value member
    refine Value.unpadded_eq_self_iff.mpr ?_
    rintro bytes rfl
    exact unpadded bytes member

/-! ## One value in its column -/

namespace Column

/-- The column can hold the value. -/
def Admits (column : Column) : Value → Prop
  | .integer _ => column.kind = .integer
  | .text bytes => column.kind = .text ∧ bytes.length ≤ column.width.toNat

/-- What is wrong with a value that the column cannot hold. -/
def mismatch (column : Column) : RowDefect :=
  match column.kind with
  | .integer => .expectsInteger column.name
  | .text => .expectsText column.name column.width

theorem exists_valueToBytes_of_admits {column : Column} {value : Value}
    (admitted : column.Admits value) : ∃ bytes, column.valueToBytes value = .ok bytes := by
  unfold valueToBytes
  cases value with
  | integer number =>
    have integers : column.kind = .integer := admitted
    rw [integers]
    exact ⟨_, rfl⟩
  | text bytes =>
    obtain ⟨texts, fits⟩ := admitted
    rw [texts]
    exact ⟨_, if_pos fits⟩

theorem valueToBytes_of_not_admits {column : Column} {value : Value}
    (refused : ¬column.Admits value) : column.valueToBytes value = .error column.mismatch := by
  unfold valueToBytes mismatch
  cases kind : column.kind <;> cases value with
  | integer number => first | rfl | exact absurd kind refused
  | text bytes => first | rfl | exact if_neg fun fits => refused ⟨kind, fits⟩

/-- Any bytes that take the width of the column are those of a value, which is read from them. -/
theorem exists_readValue {column : Column} (ordinary : column.Ordinary) {front : Bytes}
    (width : front.length = column.width.toNat) :
    ∃ value, column.valueToBytes value = .ok front ∧
      ∀ rest, column.readValue (front ++ rest) = .ok (value, rest) := by
  unfold valueToBytes readValue
  cases kind : column.kind with
  | integer =>
    rw [ordinary kind] at width
    obtain ⟨first, second, third, fourth, rfl⟩ : ∃ first second third fourth,
        front = [first, second, third, fourth] := List.length_eq_four.mp width
    refine ⟨.integer (Word.ofBytes first second third fourth).toInt32, ?_, fun rest => rfl⟩
    exact congrArg Except.ok (Word.toBytes_ofBytes ..)
  | text =>
    refine ⟨.text front.withoutPadding, ?_, fun rest => ?_⟩
    · rw [← width]
      dsimp only
      rw [if_pos front.length_withoutPadding_le, front.padTo_withoutPadding]
    · have block := Reader.block_append (RowDefect.unreadable column.name) front rest
      rw [width] at block
      dsimp only
      rw [Reader.bind_of block]
      rfl

/-! ## All columns -/

/-- The first of the columns that cannot hold their values, and what is wrong there. -/
inductive Refuses : List Column → Row → RowDefect → Prop
  | here {column : Column} {columns : List Column} {value : Value} {row : Row}
      (refused : ¬column.Admits value) : Refuses (column :: columns) (value :: row) column.mismatch
  | later {column : Column} {columns : List Column} {value : Value} {row : Row}
      {defect : RowDefect} (admitted : column.Admits value) (later : Refuses columns row defect) :
      Refuses (column :: columns) (value :: row) defect

/-- If there is a value for every column, then all are held or one is the first that is not. -/
theorem exists_refuses {columns : List Column} {row : Row} (matched : row.length = columns.length)
    (unfit : ¬List.Forall₂ Admits columns row) : ∃ defect, Refuses columns row defect := by
  induction columns generalizing row with
  | nil =>
    cases List.eq_nil_of_length_eq_zero matched
    exact absurd List.Forall₂.nil unfit
  | cons column columns ih =>
    cases row with
    | nil => cases matched
    | cons value row =>
      by_cases admitted : column.Admits value
      · have others : ¬List.Forall₂ Admits columns row := fun fit => unfit (.cons admitted fit)
        obtain ⟨defect, refused⟩ := ih (Nat.succ.inj matched) others
        exact ⟨defect, .later admitted refused⟩
      · exact ⟨column.mismatch, .here admitted⟩

theorem exists_valuesToBytes_of_admits {columns : List Column} {row : Row}
    (fit : List.Forall₂ Admits columns row) : ∃ bytes, valuesToBytes columns row = .ok bytes := by
  induction fit with
  | nil => exact ⟨[], rfl⟩
  | cons admitted fit ih =>
    obtain ⟨front, here⟩ := exists_valueToBytes_of_admits admitted
    obtain ⟨back, later⟩ := ih
    refine ⟨front ++ back, ?_⟩
    rw [valuesToBytes, here, later]
    rfl

theorem valuesToBytes_of_refuses {columns : List Column} {row : Row} {defect : RowDefect}
    (refused : Refuses columns row defect) : valuesToBytes columns row = .error defect := by
  induction refused with
  | here refused =>
    rw [valuesToBytes, valueToBytes_of_not_admits refused]
    rfl
  | later admitted _ ih =>
    obtain ⟨front, here⟩ := exists_valueToBytes_of_admits admitted
    rw [valuesToBytes, here, ih]
    rfl

/-- Any bytes that take the width of all columns are those of a row, which is read from them. -/
theorem exists_readValues {columns : List Column} (ordinary : ∀ column ∈ columns, column.Ordinary)
    {bytes : Bytes} (width : bytes.length = totalWidth columns) :
    ∃ row : Row, row.length = columns.length ∧ valuesToBytes columns row = .ok bytes ∧
      ∀ rest, readValues columns (bytes ++ rest) = .ok (row, rest) := by
  induction columns generalizing bytes with
  | nil =>
    cases List.eq_nil_of_length_eq_zero width
    exact ⟨[], rfl, rfl, fun rest => rfl⟩
  | cons column columns ih =>
    have enough : column.width.toNat ≤ bytes.length := by
      rw [width, totalWidth]
      exact Nat.le_add_right ..
    obtain ⟨value, here, reads⟩ := exists_readValue (ordinary column List.mem_cons_self)
      (List.length_take_of_le enough)
    have others : (bytes.drop column.width.toNat).length = totalWidth columns := by
      rw [List.length_drop, width, totalWidth, Nat.add_sub_cancel_left]
    obtain ⟨row, count, later, readsAll⟩ :=
      ih (fun other member => ordinary other (List.mem_cons_of_mem _ member)) others
    refine ⟨value :: row, congrArg Nat.succ count, ?_, fun rest => ?_⟩
    · rw [valuesToBytes, here, later]
      exact congrArg Except.ok (List.take_append_drop ..)
    · conv_lhs => rw [← List.take_append_drop column.width.toNat bytes, List.append_assoc]
      rw [readValues, Reader.bind_of (reads _), Reader.bind_of (readsAll rest)]
      rfl

end Column

/-! ## Rows -/

namespace Schema

/-- How the rows of a schema and the strings of bytes belong together. Every string that has the
width of a row is read as a row, and written back as it was. A row whose values all fit is written
as a string of that width, and read back without the zero bytes at the end of its texts, so as it
was if no text ends in one.

Whatever else is asked for is refused: a row of another number of values, a row with a value that
does not fit, which is refused for the first such value, and a string of another length. -/
structure CodesRows (schema : Schema) : Prop where
  written_of_read : ∀ bytes : Bytes, bytes.length = schema.rowWidth →
    ∃ row, schema.rowOfBytes bytes = .ok row ∧ schema.rowToBytes row = .ok bytes
  read_of_written : ∀ row, List.Forall₂ Column.Admits schema.columns row →
    ∃ bytes, schema.rowToBytes row = .ok bytes ∧ bytes.length = schema.rowWidth ∧
      schema.rowOfBytes bytes = .ok (row.map Value.unpadded) ∧
      (schema.rowOfBytes bytes = .ok row ↔
        ∀ text, Value.text text ∈ row → text.getLast? ≠ some 0)
  refuses_count : ∀ row : Row, row.length ≠ schema.columns.length →
    schema.rowToBytes row = .error (.valueCount row.length schema.columns.length)
  refuses_value : ∀ row : Row, row.length = schema.columns.length →
    ¬List.Forall₂ Column.Admits schema.columns row →
    ∃ defect, Column.Refuses schema.columns row defect ∧ schema.rowToBytes row = .error defect
  refuses_size : ∀ bytes : Bytes, bytes.length ≠ schema.rowWidth →
    schema.rowOfBytes bytes = .error (.byteCount bytes.length schema.rowWidth)

variable {schema : Schema}

/-- The bytes of all values are those of the row if they take its width. -/
theorem rowToBytes_of_valuesToBytes {row : Row} {bytes : Bytes}
    (matched : row.length = schema.columns.length) (width : bytes.length = schema.rowWidth)
    (together : Column.valuesToBytes schema.columns row = .ok bytes) :
    schema.rowToBytes row = .ok bytes := by
  have full : bytes.padTo schema.rowWidth = bytes := by
    rw [Bytes.padTo, width, Nat.sub_self, List.replicate_zero, List.append_nil]
  rw [rowToBytes, if_pos matched, together]
  refine (if_pos (Nat.le_of_eq width)).trans ?_
  rw [full]
  rfl

/-- **Rows and the strings of bytes of their width belong together**, but for the zero bytes at the
end of texts. -/
theorem Ordinary.codesRows (ordinary : schema.Ordinary) : schema.CodesRows where
  written_of_read bytes width := by
    obtain ⟨row, count, together, reads⟩ := Column.exists_readValues ordinary width
    refine ⟨row, ?_, rowToBytes_of_valuesToBytes count width together⟩
    have result := reads []
    rw [List.append_nil] at result
    rw [rowOfBytes, if_pos width, Reader.result, result]
  read_of_written row fit := by
    obtain ⟨bytes, together⟩ := Column.exists_valuesToBytes_of_admits fit
    have width := (Column.readValues_of_valuesToBytes ordinary fit.length_eq.symm together).1
    have written := rowToBytes_of_valuesToBytes fit.length_eq.symm width together
    have reads := (rowOfBytes_of_rowToBytes ordinary written).2
    refine ⟨bytes, written, width, reads, ?_⟩
    rw [reads, Except.ok.injEq]
    exact Row.map_unpadded_eq_self_iff
  refuses_count row odd := if_neg odd
  refuses_value row matched unfit := by
    obtain ⟨defect, refused⟩ := Column.exists_refuses matched unfit
    refine ⟨defect, refused, ?_⟩
    rw [rowToBytes, if_pos matched, Column.valuesToBytes_of_refuses refused]
    rfl
  refuses_size bytes odd := if_neg odd

/-- A schema with a text column of three bytes in front of an integer column. -/
def labelled : Schema where
  columns := [Column.texts [108] 3, Column.integers [110]]

theorem codesRows_labelled : labelled.CodesRows := by
  have ordinary : labelled.Ordinary := by
    simp [Schema.Ordinary, Column.Ordinary, labelled, Column.texts, Column.integers]
  exact Ordinary.codesRows ordinary

/-- The zero byte at the end of a text cannot be told from padding. -/
example : (labelled.rowToBytes [.text [97, 0], .integer (-2)]).bind labelled.rowOfBytes =
    .ok [.text [97], .integer (-2)] := by decide

end Schema

end RowStore
