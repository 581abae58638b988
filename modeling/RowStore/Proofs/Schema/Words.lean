import RowStore.Proofs.Bytes.Numerals
import RowStore.Proofs.Schema.Rows

/-!
# Rows from words

A row is read from words if there is one word for each column and every column takes its word
(`Column.Takes`). A column of integers takes the numerals of the integers of 32 bits, with or
without zeros in front, and a column of texts takes every word that is not too long. The row
consists of the values that the words spell (`Column.Spells`).

The reader and the writer of rows check different things, and agree: every row that is read
from words can be written, and every row that can be written is read from its printed values
(`Schema.readsRows`).
-/

set_option autoImplicit false

namespace RowStore

namespace Column

/-! ## Column by column -/

/-- The relation holds of every column, its word, and what has become of that word. -/
inductive Aligned {α : Type} (relates : Column → Bytes → α → Prop) :
    List Column → List Bytes → List α → Prop where
  | nil : Aligned relates [] [] []
  | cons {column : Column} {columns : List Column} {word : Bytes} {words : List Bytes}
      {result : α} {results : List α} (here : relates column word result)
      (later : Aligned relates columns words results) :
      Aligned relates (column :: columns) (word :: words) (result :: results)

section Aligned

variable {α β : Type} {relates : Column → Bytes → α → Prop} {columns : List Column}
  {words : List Bytes} {results : List α}

theorem Aligned.length_words (aligned : Aligned relates columns words results) :
    words.length = columns.length := by
  induction aligned with
  | nil => rfl
  | cons _ _ ih => exact congrArg Nat.succ ih

theorem Aligned.map {relates' : Column → Bytes → β → Prop} {convert : α → β}
    (each : ∀ column word result, relates column word result →
      relates' column word (convert result))
    (aligned : Aligned relates columns words results) :
    Aligned relates' columns words (results.map convert) := by
  induction aligned with
  | nil => exact .nil
  | cons here _ ih => exact .cons (each _ _ _ here) ih

theorem exists_aligned_iff :
    (∃ results, Aligned relates columns words results) ↔
      List.Forall₂ (fun column word => ∃ result, relates column word result) columns words := by
  constructor
  · rintro ⟨results, aligned⟩
    induction aligned with
    | nil => exact .nil
    | cons here _ ih => exact .cons ⟨_, here⟩ ih
  · intro each
    induction each with
    | nil => exact ⟨[], .nil⟩
    | cons here _ ih =>
      obtain ⟨result, here⟩ := here
      obtain ⟨results, later⟩ := ih
      exact ⟨result :: results, .cons here later⟩

end Aligned

/-! ## One word in its column -/

/-- The word stands for the value in the column. -/
inductive Spells (column : Column) : Bytes → Value → Prop where
  | integer {word : Bytes} {number : Int32} : column.kind = .integer →
      Decimal.Denotes word number.toInt → Spells column word (.integer number)
  | text {word : Bytes} : column.kind = .text → word.length ≤ column.width.toNat →
      Spells column word (.text word)

/-- The word is one that the column takes. -/
def Takes (column : Column) (word : Bytes) : Prop :=
  match column.kind with
  | .integer => ∃ number : Int, Decimal.Denotes word number ∧ -2 ^ 31 ≤ number ∧ number < 2 ^ 31
  | .text => word.length ≤ column.width.toNat

/-- What is wrong with a word that the column does not take. -/
def misfit (column : Column) (word : Bytes) : RowDefect :=
  match column.kind with
  | .integer => .notInteger word column.name
  | .text => .tooLong column.name column.width

variable {column : Column} {word : Bytes} {value : Value}

theorem exists_spells_iff : (∃ value, column.Spells word value) ↔ column.Takes word := by
  unfold Takes
  constructor
  · rintro ⟨value, spells⟩
    cases spells with
    | @integer number integers denotes =>
      rw [integers]
      exact ⟨number.toInt, denotes, number.le_toInt, number.toInt_lt⟩
    | text texts fits =>
      rw [texts]
      exact fits
  · intro takes
    cases kind : column.kind with
    | integer =>
      rw [kind] at takes
      obtain ⟨number, denotes, least, greatest⟩ := takes
      rw [← Int32.toInt_ofInt_of_le least greatest] at denotes
      exact ⟨_, .integer kind denotes⟩
    | text =>
      rw [kind] at takes
      exact ⟨_, .text kind takes⟩

theorem valueOfWord_eq_ok_iff : column.valueOfWord word = .ok value ↔ column.Spells word value := by
  unfold valueOfWord
  constructor
  · intro read
    split at read
    next integers =>
      split at read
      next number denoted =>
        cases read
        exact .integer integers (Decimal.toInt32?_eq_some_iff.mp denoted)
      next => cases read
    next texts =>
      split at read
      next fits =>
        cases read
        exact .text texts fits
      next => cases read
  · intro spells
    cases spells with
    | integer integers denotes => rw [integers, Decimal.toInt32?_eq_some_iff.mpr denotes]
    | text texts fits =>
      rw [texts]
      exact if_pos fits

theorem valueOfWord_of_not_takes (declined : ¬column.Takes word) :
    column.valueOfWord word = .error (column.misfit word) := by
  unfold valueOfWord misfit
  cases kind : column.kind with
  | integer =>
    cases denoted : Decimal.toInt32? word with
    | none => rfl
    | some number =>
      have spells := Spells.integer kind (Decimal.toInt32?_eq_some_iff.mp denoted)
      exact absurd (exists_spells_iff.mp ⟨_, spells⟩) declined
  | text => exact if_neg fun fits => declined (exists_spells_iff.mp ⟨_, .text kind fits⟩)

/-- What is printed of a value spells the value. -/
theorem Admits.spells_toText (admitted : column.Admits value) :
    column.Spells value.toText value := by
  cases value with
  | integer number => exact .integer admitted (Decimal.denotes_ofInt _)
  | text bytes => exact .text admitted.1 admitted.2

/-! ## All columns -/

/-- The first of the columns that do not take their words, and what is wrong there. -/
inductive Declines : List Column → List Bytes → RowDefect → Prop where
  | here {column : Column} {columns : List Column} {word : Bytes} {words : List Bytes}
      (declined : ¬column.Takes word) :
      Declines (column :: columns) (word :: words) (column.misfit word)
  | later {column : Column} {columns : List Column} {word : Bytes} {words : List Bytes}
      {defect : RowDefect} (taken : column.Takes word) (later : Declines columns words defect) :
      Declines (column :: columns) (word :: words) defect

variable {columns : List Column} {words : List Bytes} {row : Row}

theorem valuesOfWords_eq_ok_iff (matched : words.length = columns.length) :
    valuesOfWords columns words = .ok row ↔ Aligned Spells columns words row := by
  constructor
  · intro read
    induction columns generalizing words row with
    | nil =>
      cases List.eq_nil_of_length_eq_zero matched
      cases read
      exact .nil
    | cons column columns ih =>
      cases words with
      | nil => cases matched
      | cons word words =>
        obtain ⟨value, here, more⟩ := exists_of_bind_eq_ok read
        obtain ⟨others, later, done⟩ := exists_of_bind_eq_ok more
        cases done
        exact .cons (valueOfWord_eq_ok_iff.mp here) (ih (Nat.succ.inj matched) later)
  · intro spells
    clear matched
    induction spells with
    | nil => rfl
    | cons here _ ih =>
      rw [valuesOfWords, valueOfWord_eq_ok_iff.mpr here, ih]
      rfl

/-- If there is a word for every column, then all are taken or one is the first that is not. -/
theorem exists_declines (matched : words.length = columns.length)
    (unfit : ¬List.Forall₂ Takes columns words) :
    ∃ defect, Declines columns words defect ∧ valuesOfWords columns words = .error defect := by
  induction columns generalizing words with
  | nil =>
    cases List.eq_nil_of_length_eq_zero matched
    exact absurd List.Forall₂.nil unfit
  | cons column columns ih =>
    cases words with
    | nil => cases matched
    | cons word words =>
      by_cases taken : column.Takes word
      · have others : ¬List.Forall₂ Takes columns words := fun fit => unfit (.cons taken fit)
        obtain ⟨defect, declined, refused⟩ := ih (Nat.succ.inj matched) others
        obtain ⟨value, spells⟩ := exists_spells_iff.mpr taken
        refine ⟨defect, .later taken declined, ?_⟩
        rw [valuesOfWords, valueOfWord_eq_ok_iff.mpr spells, refused]
        rfl
      · refine ⟨column.misfit word, .here taken, ?_⟩
        rw [valuesOfWords, valueOfWord_of_not_takes taken]
        rfl

theorem aligned_toText (fit : List.Forall₂ Admits columns row) :
    Aligned Spells columns (row.map Value.toText) row := by
  induction fit with
  | nil => exact .nil
  | cons admitted _ ih => exact .cons admitted.spells_toText ih

end Column

/-! ## Rows -/

namespace Schema

variable {schema : Schema} {words : List Bytes} {row : Row}

theorem rowOfWords_eq_ok_iff :
    schema.rowOfWords words = .ok row ↔
      Column.Aligned Column.Spells schema.columns words row := by
  unfold rowOfWords
  constructor
  · intro read
    split at read
    next matched => exact (Column.valuesOfWords_eq_ok_iff matched).mp read
    next => cases read
  · intro aligned
    rw [if_pos aligned.length_words]
    exact (Column.valuesOfWords_eq_ok_iff aligned.length_words).mpr aligned

/-- How a schema reads rows from words. Words are accepted if there is one for each column, and the
column takes it; the row consists of the values that the words spell. A row that is read can be
written, and a row whose values all fit is read from its printed values. Another number of words is
refused, and words of which some column does not take its own are refused for the first such one. -/
structure ReadsRows (schema : Schema) : Prop where
  accepts_iff : ∀ words : List Bytes, (∃ row, schema.rowOfWords words = .ok row) ↔
    List.Forall₂ Column.Takes schema.columns words
  spelled_iff : ∀ (words : List Bytes) (row : Row), schema.rowOfWords words = .ok row ↔
    Column.Aligned Column.Spells schema.columns words row
  writable : schema.Ordinary → ∀ (words : List Bytes) (row : Row),
    schema.rowOfWords words = .ok row → ∃ bytes, schema.rowToBytes row = .ok bytes
  printed : ∀ row : Row, List.Forall₂ Column.Admits schema.columns row →
    schema.rowOfWords (row.map Value.toText) = .ok row
  refuses_count : ∀ words : List Bytes, words.length ≠ schema.columns.length →
    schema.rowOfWords words = .error (.wordCount schema.columns.length words.length)
  refuses_word : ∀ words : List Bytes, words.length = schema.columns.length →
    ¬List.Forall₂ Column.Takes schema.columns words →
    ∃ defect, Column.Declines schema.columns words defect ∧
      schema.rowOfWords words = .error defect

/-- **Rows are read from exactly the words that the columns take**, and each row that can be
written from its printed values. -/
theorem readsRows (schema : Schema) : schema.ReadsRows where
  accepts_iff words := by
    simp only [rowOfWords_eq_ok_iff, Column.exists_aligned_iff, Column.exists_spells_iff]
  spelled_iff words row := rowOfWords_eq_ok_iff
  writable ordinary words row read := by
    obtain ⟨bytes, written, -⟩ := exists_rowToBytes ordinary read
    exact ⟨bytes, written⟩
  printed row fit := rowOfWords_eq_ok_iff.mpr (Column.aligned_toText fit)
  refuses_count words odd := if_neg odd
  refuses_word words matched unfit := by
    obtain ⟨defect, declined, refused⟩ := Column.exists_declines matched unfit
    exact ⟨defect, declined, (if_pos matched).trans refused⟩

/-- Zeros in front of an integer are accepted, and the row prints without them. -/
example : (labelled.rowOfWords [text "ab", text "-007"]).map Row.toText =
    .ok (text "(ab, -7)") := by decide

end Schema

end RowStore
