import Mathlib.Data.List.TakeWhile
import RowStore.Proofs.Bytes.Lines
import RowStore.Proofs.Schema.Definitions
import RowStore.Proofs.Schema.RoundTrip

/-!
# Messages and printed rows stay on one line

A message quotes words of a command and names of columns (`Fault.quotes`), and otherwise
consists of fixed texts and numbers. So it has no newline if what it quotes has none
(`Fault.oneLine_message`). Definitions and rows that come as words are refused with
quotes from these words and from the names of the columns, and the columns and rows that
are made of them can be printed on one line each.
-/

set_option autoImplicit false

namespace RowStore

open Bytes

/-- A computation that fails does so in its first part or in the rest. -/
theorem of_bind_eq_error {fault α β : Type} {first : Except fault α} {next : α → Except fault β}
    {refused : fault} (failed : first >>= next = .error refused) :
    first = .error refused ∨ ∃ value, first = .ok value ∧ next value = .error refused := by
  cases first with
  | error other =>
    cases failed
    exact .inl rfl
  | ok value => exact .inr ⟨value, rfl, failed⟩

/-! ## Messages -/

/-- What the wording of a row defect quotes. -/
def RowDefect.quotes : RowDefect → List Bytes
  | notInteger word column => [word, column]
  | tooLong column _ => [column]
  | expectsInteger column => [column]
  | expectsText column _ => [column]
  | unreadable column => [column]
  | _ => []

/-- What the wording of a schema defect quotes. -/
def SchemaDefect.quotes : SchemaDefect → List Bytes
  | emptyName definition => [definition]
  | textSize definition => [definition]
  | unknownType type => [type]
  | rowTooLarge column _ => [column]
  | _ => []

/-- What the wording of a fault quotes. -/
def Fault.quotes : Fault → List Bytes
  | row defect => defect.quotes
  | schema defect => defect.quotes
  | pathTooLong path => [path]
  | fileNotCreated path => [path]
  | fileNotOpened path => [path]
  | _ => []

/-- The quotes have no newline. -/
def Quotable (quotes : List Bytes) : Prop := ∀ quote ∈ quotes, quote.OneLine

@[simp]
theorem quotable_nil : Quotable [] := List.forall_mem_nil _

@[simp]
theorem quotable_cons {quote : Bytes} {quotes : List Bytes} :
    Quotable (quote :: quotes) ↔ quote.OneLine ∧ Quotable quotes :=
  List.forall_mem_cons

theorem ReadFailure.oneLine_message (failure : ReadFailure) : failure.message.OneLine := by
  cases failure <;> decide

theorem PageDefect.oneLine_message (defect : PageDefect) : defect.message.OneLine := by
  cases defect <;> simp +decide [message]

theorem Shortage.oneLine_message (shortage : Shortage) : shortage.message.OneLine := by
  cases shortage <;> simp +decide [message]

theorem RowDefect.oneLine_message {defect : RowDefect} (quotable : Quotable defect.quotes) :
    defect.message.OneLine := by
  cases defect <;> simp_all +decide [quotes, message]

theorem SchemaDefect.oneLine_message {defect : SchemaDefect} (quotable : Quotable defect.quotes) :
    defect.message.OneLine := by
  cases defect <;> simp_all +decide [quotes, message]

/-- **A message has no newline if what it quotes has none.** -/
theorem Fault.oneLine_message {fault : Fault} (quotable : Quotable fault.quotes) :
    fault.message.OneLine := by
  refine oneLine_untilZero ?_
  cases fault with
  | unreadable page failure => simp +decide [wording, aboutPage, failure.oneLine_message]
  | corrupt page defect => simp +decide [wording, aboutPage, defect.oneLine_message]
  | shortage cause => exact cause.oneLine_message
  | undefined page => simp +decide [wording, aboutPage]
  | duplicateKey key => simp +decide [wording]
  | schemaUndefined => decide
  | keyNotInteger => decide
  | row defect => exact RowDefect.oneLine_message quotable
  | schema defect => exact SchemaDefect.oneLine_message quotable
  | pathTooLong path => simp_all +decide [wording, quotes]
  | fileNotCreated path => simp_all +decide [wording, quotes]
  | fileNotOpened path => simp_all +decide [wording, quotes]

/-- A shortage is worded without a zero byte, so its message is all of the wording. -/
theorem Fault.message_shortage (cause : Shortage) :
    (Fault.shortage cause).message = cause.message := by
  have numeral : ∀ number, 0 ∉ Decimal.ofNat number := by
    intro number zero
    cases List.all_eq_true.mp (Decimal.all_isDigit_ofNat number) 0 zero
  have solid : 0 ∉ cause.message := by
    cases cause <;> simp +decide [Shortage.message, numeral]
  refine List.takeWhile_eq_self_iff.mpr fun byte member => ?_
  rw [bne_iff_ne]
  rintro rfl
  exact solid member

/-! ## Columns from definitions -/

namespace Column

variable {definition name type : Bytes} {position : Nat} {column : Column} {defect : SchemaDefect}

theorem Typed.ordinary (typed : Typed name type column) : column.Ordinary := by
  cases typed with
  | integers => exact fun _ => rfl
  | texts => exact nofun

theorem Mistyped.quotable (whole : definition.OneLine) (one : type.OneLine)
    (mistyped : Mistyped definition type defect) : Quotable defect.quotes := by
  cases mistyped with
  | unknownType => simpa [SchemaDefect.quotes] using one
  | textSize => simpa [SchemaDefect.quotes] using whole
  | textTooLarge => simp [SchemaDefect.quotes]

theorem oneLine_defaultName (position : Nat) : (defaultName position).OneLine :=
  oneLine_append.mpr ⟨by decide, Decimal.oneLine_ofNat position⟩

/-- A definition gives a column that the format allows, with a name that has no newline if the
definition has none. -/
theorem ordinary_of_ofDefinition (read : ofDefinition position definition = .ok column) :
    column.Ordinary ∧ (definition.OneLine → column.name.OneLine) := by
  cases ofDefinition_eq_ok_iff.mp read with
  | named _ _ typed =>
    refine ⟨typed.ordinary, fun one => ?_⟩
    rw [typed.name_eq]
    exact (oneLine_append.mp one).1
  | unnamed _ typed =>
    refine ⟨typed.ordinary, fun _ => ?_⟩
    rw [typed.name_eq]
    exact oneLine_defaultName position

theorem quotable_of_ofDefinition (one : definition.OneLine)
    (refused : ofDefinition position definition = .error defect) : Quotable defect.quotes := by
  cases misdefines_of_ofDefinition refused with
  | emptyName type => simpa [SchemaDefect.quotes] using one
  | named _ _ mistyped =>
    exact mistyped.quotable one (oneLine_cons.mp (oneLine_append.mp one).2).2
  | unnamed _ mistyped => exact mistyped.quotable one one

/-- **Definitions give columns that the format allows**, with names on one line if the definitions
are. -/
theorem ordinary_of_ofDefinitions {definitions : List Bytes} {columns : List Column}
    (read : ofDefinitions position definitions = .ok columns) :
    (∀ column ∈ columns, column.Ordinary) ∧
      (Quotable definitions → ∀ column ∈ columns, column.name.OneLine) := by
  induction definitions generalizing position columns with
  | nil =>
    cases read
    exact ⟨List.forall_mem_nil _, fun _ => List.forall_mem_nil _⟩
  | cons definition definitions ih =>
    obtain ⟨column, here, more⟩ := exists_of_bind_eq_ok read
    obtain ⟨others, later, done⟩ := exists_of_bind_eq_ok more
    cases done
    obtain ⟨ordinary, named⟩ := ordinary_of_ofDefinition here
    obtain ⟨ordinary', named'⟩ := ih later
    refine ⟨List.forall_mem_cons.mpr ⟨ordinary, ordinary'⟩, fun quotable => ?_⟩
    obtain ⟨one, quotable⟩ := quotable_cons.mp quotable
    exact List.forall_mem_cons.mpr ⟨named one, named' quotable⟩

theorem quotable_of_ofDefinitions {definitions : List Bytes} (quotable : Quotable definitions)
    (refused : ofDefinitions position definitions = .error defect) : Quotable defect.quotes := by
  induction definitions generalizing position with
  | nil => cases refused
  | cons definition definitions ih =>
    obtain ⟨one, quotable⟩ := quotable_cons.mp quotable
    rcases of_bind_eq_error refused with here | ⟨column, -, more⟩
    · exact quotable_of_ofDefinition one here
    · rcases of_bind_eq_error more with later | ⟨columns, -, never⟩
      · exact ih quotable later
      · cases never

end Column

/-- The names of the columns have no newline. -/
def Schema.Printable (schema : Schema) : Prop := ∀ column ∈ schema.columns, column.name.OneLine

theorem Schema.quotable_of_pushAll {schema : Schema} {columns : List Column} {defect : SchemaDefect}
    (named : ∀ column ∈ columns, column.name.OneLine)
    (refused : schema.pushAll columns = .error defect) : Quotable defect.quotes := by
  induction columns generalizing schema with
  | nil => cases refused
  | cons column columns ih =>
    obtain ⟨one, named⟩ := List.forall_mem_cons.mp named
    rcases of_bind_eq_error refused with here | ⟨more, -, later⟩
    · unfold push at here
      split at here
      · cases here
      · cases here
        simpa [SchemaDefect.quotes] using one
    · exact ih named later

/-! ## Rows from words -/

/-- Every value can be printed on one line. -/
def Row.Printable (row : Row) : Prop := ∀ value ∈ row, value.toText.OneLine

theorem Row.Printable.oneLine_toText {row : Row} (printable : row.Printable) :
    row.toText.OneLine := by
  rw [Row.toText, oneLine_append, oneLine_append]
  refine ⟨⟨by decide, oneLine_intercalate (by decide) fun part member => ?_⟩, by decide⟩
  obtain ⟨value, inRow, rfl⟩ := List.mem_map.mp member
  exact printable value inRow

theorem Row.Printable.unpadded {row : Row} (printable : row.Printable) :
    Row.Printable (row.map Value.unpadded) := by
  intro value member
  obtain ⟨original, inRow, rfl⟩ := List.mem_map.mp member
  cases original with
  | integer number => exact printable _ inRow
  | text bytes => exact oneLine_withoutPadding (printable _ inRow)

namespace Column

variable {columns : List Column} {words : List Bytes} {row : Row} {defect : RowDefect}

theorem oneLine_of_valueOfWord {column : Column} {word : Bytes} {value : Value}
    (one : word.OneLine) (read : column.valueOfWord word = .ok value) : value.toText.OneLine := by
  unfold valueOfWord at read
  repeat' split at read
  all_goals cases read
  · exact Decimal.oneLine_ofInt _
  · exact one

theorem quotable_of_valueOfWord {column : Column} {word : Bytes} (named : column.name.OneLine)
    (one : word.OneLine) (refused : column.valueOfWord word = .error defect) :
    Quotable defect.quotes := by
  unfold valueOfWord at refused
  repeat' split at refused
  all_goals cases refused
  · simp [RowDefect.quotes, one, named]
  · simpa [RowDefect.quotes] using named

theorem quotable_of_valueToBytes {column : Column} {value : Value} (named : column.name.OneLine)
    (refused : column.valueToBytes value = .error defect) : Quotable defect.quotes := by
  unfold valueToBytes at refused
  repeat' split at refused
  all_goals cases refused
  all_goals simpa [RowDefect.quotes] using named

theorem printable_of_valuesOfWords (quotable : Quotable words)
    (read : valuesOfWords columns words = .ok row) : row.Printable := by
  induction columns generalizing words row with
  | nil =>
    cases read
    exact List.forall_mem_nil _
  | cons column columns ih =>
    cases words with
    | nil =>
      cases read
      exact List.forall_mem_nil _
    | cons word words =>
      obtain ⟨one, quotable⟩ := quotable_cons.mp quotable
      obtain ⟨value, here, more⟩ := exists_of_bind_eq_ok read
      obtain ⟨others, later, done⟩ := exists_of_bind_eq_ok more
      cases done
      exact List.forall_mem_cons.mpr ⟨oneLine_of_valueOfWord one here, ih quotable later⟩

theorem quotable_of_valuesOfWords (named : ∀ column ∈ columns, column.name.OneLine)
    (quotable : Quotable words) (refused : valuesOfWords columns words = .error defect) :
    Quotable defect.quotes := by
  induction columns generalizing words with
  | nil => cases refused
  | cons column columns ih =>
    obtain ⟨first, named⟩ := List.forall_mem_cons.mp named
    cases words with
    | nil => cases refused
    | cons word words =>
      obtain ⟨one, quotable⟩ := quotable_cons.mp quotable
      rcases of_bind_eq_error refused with here | ⟨value, -, more⟩
      · exact quotable_of_valueOfWord first one here
      · rcases of_bind_eq_error more with later | ⟨values, -, never⟩
        · exact ih named quotable later
        · cases never

theorem quotable_of_valuesToBytes (named : ∀ column ∈ columns, column.name.OneLine)
    (refused : valuesToBytes columns row = .error defect) : Quotable defect.quotes := by
  induction columns generalizing row with
  | nil => cases refused
  | cons column columns ih =>
    obtain ⟨first, named⟩ := List.forall_mem_cons.mp named
    cases row with
    | nil => cases refused
    | cons value row =>
      rcases of_bind_eq_error refused with here | ⟨bytes, -, more⟩
      · exact quotable_of_valueToBytes first here
      · rcases of_bind_eq_error more with later | ⟨values, -, never⟩
        · exact ih named later
        · cases never

end Column

namespace Schema

variable {schema : Schema} {words : List Bytes} {row : Row} {defect : RowDefect}

theorem printable_of_rowOfWords (quotable : Quotable words)
    (read : schema.rowOfWords words = .ok row) : row.Printable := by
  unfold rowOfWords at read
  split at read
  · exact Column.printable_of_valuesOfWords quotable read
  · cases read

theorem Printable.quotable_of_rowOfWords (printable : schema.Printable) (quotable : Quotable words)
    (refused : schema.rowOfWords words = .error defect) : Quotable defect.quotes := by
  unfold rowOfWords at refused
  split at refused
  · exact Column.quotable_of_valuesOfWords printable quotable refused
  · cases refused
    simp [RowDefect.quotes]

theorem Printable.quotable_of_rowToBytes (printable : schema.Printable)
    (refused : schema.rowToBytes row = .error defect) : Quotable defect.quotes := by
  unfold rowToBytes at refused
  split at refused
  · rcases of_bind_eq_error refused with values | ⟨bytes, -, more⟩
    · exact Column.quotable_of_valuesToBytes printable values
    · split at more
      · cases more
      · cases more
        simp [RowDefect.quotes]
  · cases refused
    simp [RowDefect.quotes]

end Schema

end RowStore
