import RowStore.Schema.Column

/-!
# Schemas

A schema is a list of columns whose rows fit a leaf as a single value. The
bound is part of the type, so every schema there is has it. Columns are only
ever added, one after the other at the end.
-/

set_option autoImplicit false

namespace RowStore

namespace Column

/-- The bytes of a row with the given columns. -/
def totalWidth : List Column → Nat
  | [] => 0
  | column :: columns => column.width.toNat + totalWidth columns

theorem totalWidth_append (front back : List Column) :
    totalWidth (front ++ back) = totalWidth front + totalWidth back := by
  induction front with
  | nil => exact (Nat.zero_add _).symm
  | cons column front ih => rw [List.cons_append, totalWidth, totalWidth, ih, Nat.add_assoc]

end Column

/-- The columns of a table, in order. A row is stored as one value, so its width is bounded by that
of a value. -/
structure Schema where
  columns : List Column := []
  totalWidth_le : Column.totalWidth columns ≤ maxValueLength := by decide

namespace Schema

instance : DecidableEq Schema := fun first second =>
  if same : first.columns = second.columns then
    isTrue (by cases first; cases second; simp_all)
  else
    isFalse (fun equal => same (congrArg columns equal))

/-- The schema without columns, with which every table starts. -/
def empty : Schema := {}

/-- The schema has a column. -/
def hasColumns (schema : Schema) : Bool := !schema.columns.isEmpty

/-- The bytes of a row. -/
def rowWidth (schema : Schema) : Nat := Column.totalWidth schema.columns

/-- A column at the end adds its width to every row. -/
theorem totalWidth_append_singleton (columns : List Column) (column : Column) :
    Column.totalWidth (columns ++ [column]) = Column.totalWidth columns + column.width.toNat := by
  rw [Column.totalWidth_append]
  rfl

/-- The schema with one more column at the end, if the rows still fit. -/
def push (schema : Schema) (column : Column) : Except SchemaDefect Schema :=
  if fits : schema.rowWidth + column.width.toNat ≤ maxValueLength then
    .ok {
      columns := schema.columns ++ [column]
      totalWidth_le := by rw [totalWidth_append_singleton]; exact fits }
  else
    .error (.rowTooLarge column.name (schema.rowWidth + column.width.toNat))

/-- The schema with more columns at the end, if the rows still fit with all of them. -/
def pushAll (schema : Schema) : List Column → Except SchemaDefect Schema
  | [] => .ok schema
  | column :: columns => do
    let more ← schema.push column
    more.pushAll columns

/-- The schema with the given columns. -/
def ofColumns (columns : List Column) : Except SchemaDefect Schema := empty.pushAll columns

/-- Adding a column succeeds exactly when the rows still fit, and puts it at the end. -/
theorem columns_of_push {schema more : Schema} {column : Column}
    (added : schema.push column = .ok more) :
    more.columns = schema.columns ++ [column] := by
  unfold push at added
  split at added
  · cases added
    rfl
  · cases added

end Schema

end RowStore
