import RowStore.Bytes.Basic

/-!
# Decimal numerals

Numbers are written in decimal without leading zeros, with a minus sign in front
of the negative ones. A numeral that is read may have leading zeros; it has at
least one digit and nothing else, no plus sign and no blank. The signed reader
takes one minus sign in front, the unsigned reader none. Reading into a word of
32 bits refuses the numerals whose value is out of range.
-/

set_option autoImplicit false

namespace RowStore

namespace Decimal

/-- The numeral of a natural number. -/
def ofNat (number : Nat) : Bytes :=
  (Nat.toDigits 10 number).map fun digit => UInt8.ofNat digit.toNat

/-- The numeral of an integer. -/
def ofInt : Int → Bytes
  | .ofNat number => ofNat number
  | .negSucc number => 45 :: ofNat (number + 1)

/-- The bytes `0` to `9`. -/
def isDigit (byte : UInt8) : Bool := 48 ≤ byte && byte ≤ 57

/-- The value of a string of digits. -/
def value (digits : Bytes) : Nat :=
  digits.foldl (fun total digit => 10 * total + (digit.toNat - 48)) 0

/-- The number that a string of one or more digits denotes. -/
def toNat? (numeral : Bytes) : Option Nat :=
  if numeral.isEmpty || !numeral.all isDigit then none else some (value numeral)

/-- The integer that a string of digits denotes, with or without a minus sign in front. -/
def toInt? : Bytes → Option Int
  | 45 :: digits => (toNat? digits).map fun number => -(number : Int)
  | digits => (toNat? digits).map fun number => (number : Int)

/-- The unsigned word that a numeral denotes, when the word can hold it. -/
def toUInt32? (numeral : Bytes) : Option UInt32 :=
  match toNat? numeral with
  | some number => if number < UInt32.size then some (UInt32.ofNat number) else none
  | none => none

/-- The signed word that a numeral denotes, when the word can hold it. -/
def toInt32? (numeral : Bytes) : Option Int32 :=
  match toInt? numeral with
  | some number =>
    if Int32.minValue.toInt ≤ number ∧ number ≤ Int32.maxValue.toInt then
      some (Int32.ofInt number)
    else none
  | none => none

/-- The digits of a numeral, without a sign. -/
theorem all_isDigit_ofNat (number : Nat) : (ofNat number).all isDigit = true := by
  simp only [ofNat, List.all_map, List.all_eq_true]
  intro digit mem
  have decimal := Nat.isDigit_of_mem_toDigits (by decide) (by decide) mem
  simp only [Char.isDigit, Bool.and_eq_true, decide_eq_true_eq] at decimal
  obtain ⟨low, high⟩ := decimal
  have low' : 48 ≤ digit.toNat := low
  have high' : digit.toNat ≤ 57 := high
  simp only [Function.comp_apply, isDigit, Bool.and_eq_true, decide_eq_true_eq,
    UInt8.le_iff_toNat_le, UInt8.toNat_ofNat']
  constructor <;> simp <;> omega

/-- A numeral has at least one digit. -/
theorem ofNat_ne_nil (number : Nat) : ofNat number ≠ [] := by
  simp [ofNat, Nat.toDigits_ne_nil]

/-- One more digit at the end counts ten times what stands before it. -/
theorem value_append_singleton (digits : Bytes) (digit : UInt8) :
    value (digits ++ [digit]) = 10 * value digits + (digit.toNat - 48) := by
  simp [value]

/-- The numeral of a number has that number as its value. -/
theorem value_ofNat (number : Nat) : value (ofNat number) = number := by
  induction number using Nat.strongRecOn with
  | ind number ih =>
    have last : ∀ d < 10, (UInt8.ofNat d.digitChar.toNat).toNat - 48 = d := by decide
    rw [ofNat, Nat.toDigits_eq_if (by decide)]
    split
    next small =>
      simpa [value] using last number small
    next large =>
      simp only [List.map_append, List.map_cons, List.map_nil]
      rw [value_append_singleton, last _ (Nat.mod_lt _ (by decide))]
      have smaller := ih (number / 10) (by omega)
      rw [ofNat] at smaller
      rw [smaller]
      omega

/-- A written number is read back. -/
theorem toNat?_ofNat (number : Nat) : toNat? (ofNat number) = some number := by
  simp [toNat?, all_isDigit_ofNat, ofNat_ne_nil, value_ofNat]

end Decimal

end RowStore
