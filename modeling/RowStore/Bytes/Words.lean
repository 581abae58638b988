import RowStore.Bytes.Basic

/-!
# Lines and words

A line ends at a newline byte; the last line may lack its newline, and nothing
follows a newline at the very end. A word is a run of bytes that are not blank.
The blank bytes are the six ASCII ones and no other: the zero byte and every
byte from 128 up belong to words.
-/

set_option autoImplicit false

namespace RowStore

namespace Bytes

/-- Space, tab, newline, vertical tab, form feed and carriage return separate words. -/
def isBlank (byte : UInt8) : Bool := byte == 32 || (9 ≤ byte && byte ≤ 13)

/-- The words of a line, in order. -/
def words (line : Bytes) : List Bytes :=
  (line.splitOnP isBlank).filter (!·.isEmpty)

/-- The lines of a text, each without its newline. -/
def lines (input : Bytes) : List Bytes :=
  let pieces := input.splitOn 10
  if pieces.getLast? = some [] then pieces.dropLast else pieces

/-- A blank byte in front of a line adds no word. -/
theorem words_cons_of_isBlank (byte : UInt8) (line : Bytes) (blank : isBlank byte = true) :
    words (byte :: line) = words line := by
  simp [words, List.splitOnP_cons_eq_if_modifyHead, blank]

/-- A word followed by a blank byte is the first word of the line. -/
theorem words_append_cons (word : Bytes) (byte : UInt8) (line : Bytes)
    (solid : ∀ b ∈ word, isBlank b = false) (nonempty : word ≠ [])
    (blank : isBlank byte = true) :
    words (word ++ byte :: line) = word :: words line := by
  simp [words, List.splitOnP_append_cons_of_forall_mem solid byte blank, nonempty]

end Bytes

end RowStore
