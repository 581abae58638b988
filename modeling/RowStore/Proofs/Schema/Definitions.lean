import Mathlib.Data.List.TakeWhile
import RowStore.Proofs.Bytes.Numerals
import RowStore.Schema.Column

/-!
# The language of column definitions

A definition is a type, or a name and a type with a colon between them (`Column.Defines`).
The name is not empty and ends at the first colon. The type is `int`, or has the length of
the texts in parentheses, in digits of which the first may be zeros (`Column.Typed`).

A column is read from exactly the strings of this language, and every other string is refused
for one of four reasons (`Column.Misdefines`). What is printed of a column that was read is a
definition of that column, wherever it stands (`Column.readsDefinition`): the name that is given
to a column without one contains no colon, so the printed form is cut where it was put together.
-/

set_option autoImplicit false

namespace RowStore

namespace Column

/-! ## The grammar -/

/-- A type, and the column of this type with the given name. -/
inductive Typed (name : Bytes) : Bytes → Column → Prop where
  | integers : Typed name (text "int") (integers name)
  | texts {digits : Bytes} {width : UInt32} : Decimal.Digits digits →
      Decimal.number digits = width.toNat → 1 ≤ width.toNat → width.toNat ≤ maxValueLength →
      Typed name (text "text(" ++ digits ++ text ")") (texts name width)

/-- A definition, and the column that it describes at the given position. -/
inductive Defines (position : Nat) : Bytes → Column → Prop where
  | named {name type : Bytes} {column : Column} : name ≠ [] → 58 ∉ name →
      Typed name type column → Defines position (name ++ 58 :: type) column
  | unnamed {type : Bytes} {column : Column} : 58 ∉ type →
      Typed (text "column" ++ Decimal.ofNat position) type column → Defines position type column

/-- What is wrong with a string in the place of a type. -/
inductive Mistyped (definition : Bytes) : Bytes → SchemaDefect → Prop where
  | unknownType {type : Bytes} : type ≠ text "int" →
      (∀ numeral, numeral ≠ [] → type ≠ text "text(" ++ numeral ++ text ")") →
      Mistyped definition type (.unknownType type)
  | textSize {numeral : Bytes} : numeral ≠ [] →
      (Decimal.Digits numeral → Decimal.number numeral = 0 ∨
        UInt32.size ≤ Decimal.number numeral) →
      Mistyped definition (text "text(" ++ numeral ++ text ")") (.textSize definition)
  | textTooLarge {digits : Bytes} {width : UInt32} : Decimal.Digits digits →
      Decimal.number digits = width.toNat → maxValueLength < width.toNat →
      Mistyped definition (text "text(" ++ digits ++ text ")") (.textTooLarge width)

/-- What is wrong with a string in the place of a definition. -/
inductive Misdefines : Bytes → SchemaDefect → Prop where
  | emptyName (type : Bytes) : Misdefines (58 :: type) (.emptyName (58 :: type))
  | named {name type : Bytes} {defect : SchemaDefect} : name ≠ [] → 58 ∉ name →
      Mistyped (name ++ 58 :: type) type defect → Misdefines (name ++ 58 :: type) defect
  | unnamed {type : Bytes} {defect : SchemaDefect} : 58 ∉ type →
      Mistyped type type defect → Misdefines type defect

/-! ## Types -/

/-- A type of texts is what stands between the parentheses, with the parentheses around it. -/
theorem textWidthNumeral?_eq_some_iff {type numeral : Bytes} :
    textWidthNumeral? type = some numeral ↔
      numeral ≠ [] ∧ type = text "text(" ++ numeral ++ text ")" := by
  have size : (text "text(").length = 5 := by decide
  unfold textWidthNumeral?
  constructor
  · intro found
    split at found
    next shaped =>
      simp only [Bool.and_eq_true, decide_eq_true_eq, List.isPrefixOf_iff_prefix,
        beq_iff_eq] at shaped
      obtain ⟨⟨long, rest, rfl⟩, last⟩ := shaped
      cases found
      rw [List.drop_left' size]
      rw [List.length_append, size] at long
      rcases List.eq_nil_or_concat rest with rfl | ⟨front, byte, rfl⟩
      · simp at long
      · rw [List.concat_eq_append, ← List.append_assoc, List.getLast?_concat] at last
        cases last
        rw [List.concat_eq_append, List.dropLast_concat]
        refine ⟨?_, (List.append_assoc ..).symm⟩
        rintro rfl
        simp at long
    next => cases found
  · rintro ⟨nonempty, rfl⟩
    have long := List.length_pos_of_ne_nil nonempty
    have begins : text "text(" <+: text "text(" ++ numeral ++ text ")" := by
      rw [List.append_assoc]
      exact List.prefix_append _ _
    have last : (text "text(" ++ numeral ++ text ")").getLast? = some 41 := List.getLast?_concat
    have inside : ((text "text(" ++ numeral ++ text ")").drop 5).dropLast = numeral := by
      rw [List.append_assoc, List.drop_left' size]
      exact List.dropLast_concat
    have shaped : 6 < (text "text(" ++ numeral ++ text ")").length := by
      rw [List.length_append, List.length_append, size, show (text ")").length = 1 from rfl]
      omega
    rw [inside, if_pos]
    simp only [Bool.and_eq_true, decide_eq_true_eq, List.isPrefixOf_iff_prefix, beq_iff_eq]
    exact ⟨⟨shaped, begins⟩, last⟩

variable {definition name type : Bytes} {column : Column} {defect : SchemaDefect} {position : Nat}

theorem ofType_eq_ok_iff : ofType definition name type = .ok column ↔ Typed name type column := by
  unfold ofType
  constructor
  · intro read
    split at read
    next isInteger =>
      cases read
      rw [isInteger]
      exact .integers
    next =>
      split at read
      next => cases read
      next numeral shaped =>
        obtain ⟨-, rfl⟩ := textWidthNumeral?_eq_some_iff.mp shaped
        split at read
        next => cases read
        next width denoted =>
          obtain ⟨digits, number⟩ := Decimal.toUInt32?_eq_some_iff.mp denoted
          split at read
          next => cases read
          next positive =>
            split at read
            next => cases read
            next fits =>
              cases read
              refine .texts digits number ?_ (Nat.not_lt.mp fits)
              exact Nat.pos_of_ne_zero fun zero => positive (UInt32.toNat_inj.mp zero)
  · intro typed
    cases typed with
    | integers => exact if_pos rfl
    | @texts digits width all number positive fits =>
      have shaped : textWidthNumeral? (text "text(" ++ digits ++ text ")") = some digits :=
        textWidthNumeral?_eq_some_iff.mpr ⟨all.1, rfl⟩
      have other : text "text(" ++ digits ++ text ")" ≠ text "int" := by
        intro same
        cases congrArg List.head? same
      have nonzero : width ≠ 0 := by
        rintro rfl
        exact absurd positive (by decide)
      rw [if_neg other, shaped]
      dsimp only
      rw [Decimal.toUInt32?_eq_some_iff.mpr ⟨all, number⟩]
      dsimp only
      rw [if_neg nonzero, if_neg (Nat.not_lt.mpr fits)]

theorem mistyped_of_ofType (refused : ofType definition name type = .error defect) :
    Mistyped definition type defect := by
  unfold ofType at refused
  split at refused
  next => cases refused
  next other =>
    split at refused
    next unshaped =>
      cases refused
      refine .unknownType other fun numeral nonempty same => ?_
      cases unshaped.symm.trans (textWidthNumeral?_eq_some_iff.mpr ⟨nonempty, same⟩)
    next numeral shaped =>
      obtain ⟨nonempty, rfl⟩ := textWidthNumeral?_eq_some_iff.mp shaped
      split at refused
      next undenoted =>
        cases refused
        refine .textSize nonempty fun digits => .inr (Nat.not_lt.mp fun small => ?_)
        have denoted := Decimal.toUInt32?_eq_some_iff.mpr
          ⟨digits, (UInt32.toNat_ofNat_of_lt' small).symm⟩
        cases undenoted.symm.trans denoted
      next width denoted =>
        obtain ⟨digits, number⟩ := Decimal.toUInt32?_eq_some_iff.mp denoted
        split at refused
        next zero =>
          cases refused
          refine .textSize nonempty fun _ => .inl ?_
          rw [number, zero]
          rfl
        next =>
          split at refused
          next large =>
            cases refused
            exact .textTooLarge digits number large
          next => cases refused

/-! ## Names -/

theorem ofDefinition_unnamed (plain : 58 ∉ type) :
    ofDefinition position type = ofType type (defaultName position) type := by
  have none : type.dropWhile (· != 58) = [] := by
    refine List.dropWhile_eq_nil_iff.mpr fun byte member => ?_
    rw [bne_iff_ne]
    rintro rfl
    exact plain member
  rw [ofDefinition, none]

theorem ofDefinition_named (nonempty : name ≠ []) (plain : 58 ∉ name) :
    ofDefinition position (name ++ 58 :: type) = ofType (name ++ 58 :: type) name type := by
  have inName : ∀ byte ∈ name, (byte != 58) = true := by
    intro byte member
    rw [bne_iff_ne]
    rintro rfl
    exact plain member
  have front : (name ++ 58 :: type).takeWhile (· != 58) = name := by
    rw [List.takeWhile_append_of_pos inName]
    exact List.append_nil name
  have back : (name ++ 58 :: type).dropWhile (· != 58) = 58 :: type :=
    List.dropWhile_append_of_pos inName
  rw [ofDefinition, back, front]
  exact if_neg fun empty => nonempty (List.isEmpty_iff.mp empty)

/-- A string has no colon, or is cut in two at its first colon, with or without a name in front. -/
theorem unnamed_or_named (definition : Bytes) :
    58 ∉ definition ∨ (∃ type, definition = 58 :: type) ∨
      ∃ name type : Bytes, name ≠ [] ∧ 58 ∉ name ∧ definition = name ++ 58 :: type := by
  by_cases plain : 58 ∈ definition
  · obtain ⟨name, type, split, first⟩ := List.eq_append_cons_of_mem plain
    by_cases empty : name = []
    · rw [empty] at split
      exact .inr (.inl ⟨type, split⟩)
    · exact .inr (.inr ⟨name, type, empty, first, split⟩)
  · exact .inl plain

/-! ## Definitions -/

theorem ofDefinition_eq_ok_iff :
    ofDefinition position definition = .ok column ↔ Defines position definition column := by
  constructor
  · intro read
    rcases unnamed_or_named definition with plain | ⟨type, rfl⟩ | ⟨name, type, nonempty, plain, rfl⟩
    · rw [ofDefinition_unnamed plain] at read
      exact .unnamed plain (ofType_eq_ok_iff.mp read)
    · cases read
    · rw [ofDefinition_named nonempty plain] at read
      exact .named nonempty plain (ofType_eq_ok_iff.mp read)
  · intro defines
    cases defines with
    | named nonempty plain typed =>
      rw [ofDefinition_named nonempty plain]
      exact ofType_eq_ok_iff.mpr typed
    | unnamed plain typed =>
      rw [ofDefinition_unnamed plain]
      exact ofType_eq_ok_iff.mpr typed

theorem misdefines_of_ofDefinition (refused : ofDefinition position definition = .error defect) :
    Misdefines definition defect := by
  rcases unnamed_or_named definition with plain | ⟨type, rfl⟩ | ⟨name, type, nonempty, plain, rfl⟩
  · rw [ofDefinition_unnamed plain] at refused
    exact .unnamed plain (mistyped_of_ofType refused)
  · cases refused
    exact .emptyName type
  · rw [ofDefinition_named nonempty plain] at refused
    exact .named nonempty plain (mistyped_of_ofType refused)

/-! ## What is printed -/

theorem Typed.name_eq (typed : Typed name type column) : column.name = name := by
  cases typed <;> rfl

/-- The type is printed with the digits that are written for its length. -/
theorem Typed.typeToText (typed : Typed name type column) :
    Typed name column.typeToText column := by
  cases typed with
  | integers => exact .integers
  | @texts _ width _ _ positive fits =>
    exact .texts (Decimal.digits_ofNat _) (Decimal.number_ofNat _) positive fits

theorem Defines.toText (defines : Defines position definition column) (other : Nat) :
    Defines other column.toText column := by
  cases defines with
  | named nonempty plain typed =>
    rw [Column.toText, typed.name_eq]
    exact .named nonempty plain typed.typeToText
  | unnamed _ typed =>
    have nonempty : text "column" ++ Decimal.ofNat position ≠ [] :=
      List.append_ne_nil_of_right_ne_nil _ (Decimal.ofNat_ne_nil _)
    have plain : 58 ∉ text "column" ++ Decimal.ofNat position := by
      rw [List.mem_append, not_or]
      exact ⟨by decide, (Decimal.digits_ofNat _).not_mem (by decide)⟩
    rw [Column.toText, typed.name_eq]
    exact .named nonempty plain typed.typeToText

/-- How a string is read as a definition at a position. The column that the definition describes is
read, and nothing is read from other strings: these are refused for what is wrong with them. What is
printed of the column is read as the same column at every position. -/
structure ReadsDefinition (position : Nat) (definition : Bytes) : Prop where
  defines_iff : ∀ column, ofDefinition position definition = .ok column ↔
    Defines position definition column
  refuses : (¬∃ column, Defines position definition column) →
    ∃ defect, Misdefines definition defect ∧ ofDefinition position definition = .error defect
  printed : ∀ column, ofDefinition position definition = .ok column →
    ∀ other, ofDefinition other column.toText = .ok column

/-- **Columns are read from exactly the definitions of the language**, and are the same again when
they are printed and read. -/
theorem readsDefinition (position : Nat) (definition : Bytes) :
    ReadsDefinition position definition where
  defines_iff column := ofDefinition_eq_ok_iff
  refuses undefined := by
    cases read : ofDefinition position definition with
    | ok column => exact absurd ⟨column, ofDefinition_eq_ok_iff.mp read⟩ undefined
    | error defect => exact ⟨defect, misdefines_of_ofDefinition read, rfl⟩
  printed column read other :=
    ofDefinition_eq_ok_iff.mpr ((ofDefinition_eq_ok_iff.mp read).toText other)

/-- A length may have zeros in front, and the name ends at the first colon. -/
example : (ofDefinition 2 (text "text(007)")).map toText = .ok (text "column2:text(7)") ∧
    ofDefinition 0 (text "a:b:int") = .error (.unknownType (text "b:int")) := by decide

end Column

end RowStore
