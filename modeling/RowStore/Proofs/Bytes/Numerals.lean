import Mathlib.Data.List.Basic
import Mathlib.Data.List.Induction
import Mathlib.Data.Nat.Digits.Defs
import RowStore.Bytes.Decimal

/-!
# What numerals denote

A numeral is one or more digits, with or without a minus sign in front, and denotes the
integer that has these digits in base ten (`Decimal.Denotes`). It may begin with zeros. The
readers accept exactly the numerals of numbers that their words can hold
(`Decimal.toInt32?_eq_some_iff`, `Decimal.toUInt32?_eq_some_iff`), however long they are.

The numeral that is written for a number denotes that number, and has no zero in front that
could be left out and no minus sign in front of zero (`Decimal.Canonical`).
-/

set_option autoImplicit false

namespace RowStore

namespace Decimal

/-! ## The grammar -/

/-- One or more of the bytes `0` to `9`. -/
def Digits (bytes : Bytes) : Prop := bytes ≠ [] ∧ ∀ byte ∈ bytes, 48 ≤ byte ∧ byte ≤ 57

/-- The number with the given digits in base ten, of which the last counts ones. -/
def number (digits : Bytes) : Nat :=
  Nat.ofDigits 10 (digits.reverse.map fun digit => digit.toNat - 48)

/-- A numeral and the integer that it denotes. -/
inductive Denotes : Bytes → Int → Prop where
  | unsigned {digits : Bytes} : Digits digits → Denotes digits (number digits)
  | negative {digits : Bytes} : Digits digits → Denotes (45 :: digits) (-(number digits : Int))

/-- No zero stands in front of another digit, and no minus sign in front of a zero. -/
def Canonical (numeral : Bytes) : Prop :=
  ([48] <+: numeral → numeral = [48]) ∧ ¬[45, 48] <+: numeral

theorem Digits.not_signed {digits : Bytes} : ¬Digits (45 :: digits) :=
  fun all => absurd (all.2 45 List.mem_cons_self).1 (by decide)

theorem Digits.not_mem {digits : Bytes} (all : Digits digits) {byte : UInt8}
    (other : ¬(48 ≤ byte ∧ byte ≤ 57)) : byte ∉ digits :=
  fun member => other (all.2 byte member)

/-- Adding up the digits from the left gives the number. -/
theorem value_eq_number (digits : Bytes) : value digits = number digits := by
  induction digits using List.reverseRecOn with
  | nil => rfl
  | append_singleton digits digit ih =>
    rw [value_append_singleton, ih, number, number, List.reverse_append, List.reverse_singleton,
      List.singleton_append, List.map_cons, Nat.ofDigits_cons, Nat.add_comm]

/-! ## What the readers accept -/

theorem all_isDigit_iff {bytes : Bytes} :
    bytes.all isDigit = true ↔ ∀ byte ∈ bytes, 48 ≤ byte ∧ byte ≤ 57 := by
  simp only [List.all_eq_true, isDigit, Bool.and_eq_true, decide_eq_true_eq]

theorem toNat?_eq_some_iff {numeral : Bytes} {result : Nat} :
    toNat? numeral = some result ↔ Digits numeral ∧ number numeral = result := by
  rw [Digits, ← all_isDigit_iff, ← value_eq_number, toNat?]
  cases none : numeral.isEmpty <;> cases all : numeral.all isDigit <;>
    simp_all [List.isEmpty_iff]

theorem toInt?_negative (digits : Bytes) :
    toInt? (45 :: digits) = (toNat? digits).map fun result : Nat => -(result : Int) := by
  rw [toInt?]
  cases toNat? digits <;> rfl

theorem toInt?_unsigned {numeral : Bytes} (unsigned : ∀ digits, numeral ≠ 45 :: digits) :
    toInt? numeral = (toNat? numeral).map fun result : Nat => (result : Int) := by
  unfold toInt?
  split
  next digits => exact absurd rfl (unsigned digits)
  next => cases toNat? numeral <;> rfl

theorem toInt?_eq_some_iff {numeral : Bytes} {result : Int} :
    toInt? numeral = some result ↔ Denotes numeral result := by
  constructor
  · intro read
    by_cases negative : ∃ digits, numeral = 45 :: digits
    · obtain ⟨digits, rfl⟩ := negative
      rw [toInt?_negative] at read
      obtain ⟨_, denoted, rfl⟩ := Option.map_eq_some_iff.mp read
      obtain ⟨all, rfl⟩ := toNat?_eq_some_iff.mp denoted
      exact .negative all
    · rw [toInt?_unsigned (not_exists.mp negative)] at read
      obtain ⟨_, denoted, rfl⟩ := Option.map_eq_some_iff.mp read
      obtain ⟨all, rfl⟩ := toNat?_eq_some_iff.mp denoted
      exact .unsigned all
  · intro denotes
    cases denotes with
    | unsigned all =>
      have unsigned : ∀ digits, numeral ≠ 45 :: digits := by
        rintro digits rfl
        exact all.not_signed
      rw [toInt?_unsigned unsigned, toNat?_eq_some_iff.mpr ⟨all, rfl⟩, Option.map_some]
    | negative all =>
      rw [toInt?_negative, toNat?_eq_some_iff.mpr ⟨all, rfl⟩, Option.map_some]

/-- **A signed word is read from the numerals of the integer that it holds, and no others.** -/
theorem toInt32?_eq_some_iff {numeral : Bytes} {word : Int32} :
    toInt32? numeral = some word ↔ Denotes numeral word.toInt := by
  rw [← toInt?_eq_some_iff]
  unfold toInt32?
  constructor
  · intro read
    split at read
    next found denoted =>
      split at read
      next inside =>
        cases read
        rw [Int32.toInt_ofInt_of_le inside.1 (Int.lt_of_le_of_lt inside.2 (by decide))]
        exact denoted
      next => cases read
    next => cases read
  · intro denoted
    rw [denoted]
    dsimp only
    rw [if_pos ⟨word.le_toInt, word.toInt_le⟩, Int32.ofInt_toInt]

/-- **An unsigned word is read from the digits of the number that it holds**, and from nothing
else. -/
theorem toUInt32?_eq_some_iff {numeral : Bytes} {word : UInt32} :
    toUInt32? numeral = some word ↔ Digits numeral ∧ number numeral = word.toNat := by
  rw [← toNat?_eq_some_iff]
  unfold toUInt32?
  constructor
  · intro read
    split at read
    next found denoted =>
      split at read
      next inside =>
        cases read
        rw [UInt32.toNat_ofNat_of_lt' inside]
        exact denoted
      next => cases read
    next => cases read
  · intro denoted
    rw [denoted]
    dsimp only
    rw [if_pos word.toNat_lt, UInt32.ofNat_toNat]

/-! ## What is written -/

theorem digits_ofNat (number : Nat) : Digits (ofNat number) :=
  (toNat?_eq_some_iff.mp (toNat?_ofNat number)).1

theorem number_ofNat (total : Nat) : number (ofNat total) = total :=
  (toNat?_eq_some_iff.mp (toNat?_ofNat total)).2

theorem denotes_ofInt (total : Int) : Denotes (ofInt total) total := by
  cases total with
  | ofNat total =>
    have denotes := Denotes.unsigned (digits_ofNat total)
    rwa [number_ofNat] at denotes
  | negSucc total =>
    have denotes := Denotes.negative (digits_ofNat (total + 1))
    rwa [number_ofNat] at denotes

/-- A number of more than one digit begins as the number without its last digit. -/
theorem head?_ofNat_of_le {total : Nat} (large : 10 ≤ total) :
    (ofNat total).head? = (ofNat (total / 10)).head? := by
  have split : ofNat total =
      ofNat (total / 10) ++ [UInt8.ofNat (total % 10).digitChar.toNat] := by
    rw [ofNat, Nat.toDigits_eq_if (by decide), if_neg (Nat.not_lt.mpr large), List.map_append]
    rfl
  rw [split]
  exact List.head?_append_of_ne_nil _ (ofNat_ne_nil _)

/-- The numeral of a positive number begins with another digit than zero. -/
theorem head?_ofNat_ne {total : Nat} (positive : total ≠ 0) : (ofNat total).head? ≠ some 48 := by
  induction total using Nat.strongRecOn with
  | ind total ih =>
    by_cases small : total < 10
    · have single : ∀ d < 10, d ≠ 0 → (ofNat d).head? ≠ some 48 := by decide
      exact single total small positive
    · rw [head?_ofNat_of_le (Nat.not_lt.mp small)]
      exact ih (total / 10) (by omega) (by omega)

/-- **The numeral that is written has no zero that could be left out.** -/
theorem canonical_ofInt (total : Int) : Canonical (ofInt total) := by
  have first : ∀ {bytes : Bytes}, [48] <+: bytes → bytes.head? = some 48 := by
    rintro _ ⟨rest, rfl⟩
    rfl
  cases total with
  | ofNat total =>
    refine ⟨fun zero => ?_, fun signed => ?_⟩
    · by_cases positive : total = 0
      · rw [positive]
        rfl
      · exact absurd (first zero) (head?_ofNat_ne positive)
    · obtain ⟨rest, whole⟩ := signed
      have digits := digits_ofNat total
      rw [show ofNat total = 45 :: 48 :: rest from whole.symm] at digits
      exact digits.not_signed
  | negSucc total =>
    refine ⟨fun zero => ?_, fun signed => ?_⟩
    · cases (List.cons_prefix_cons.mp zero).1
    · exact head?_ofNat_ne (Nat.succ_ne_zero total) (first (List.cons_prefix_cons.mp signed).2)

end Decimal

end RowStore
