/-!
# Strings of bytes

Names, values, messages, pages and files are all strings of bytes, with no
encoding assumed. A string is kept as a list, so that what is written is a
concatenation and what is read is a prefix.

Fixed-size fields are filled up with zero bytes (`padTo`) and read back
without them (`withoutPadding`); a message ends at its first zero byte
(`untilZero`).
-/

set_option autoImplicit false

namespace RowStore

/-- A string of bytes. -/
abbrev Bytes := List UInt8

/-- The bytes of a text in UTF-8. -/
def text (string : String) : Bytes := string.toUTF8.data.toList

namespace Bytes

/-- The string followed by as many zero bytes as it takes to reach the given size. -/
def padTo (size : Nat) (bytes : Bytes) : Bytes :=
  bytes ++ List.replicate (size - bytes.length) 0

/-- The string without the zero bytes at its end. -/
def withoutPadding (bytes : Bytes) : Bytes :=
  (bytes.reverse.dropWhile (· == 0)).reverse

/-- The string up to its first zero byte. -/
def untilZero (bytes : Bytes) : Bytes :=
  bytes.takeWhile (· != 0)

/-- The first `size` bytes and the bytes after them, when there are that many. -/
def splitAt? : Nat → Bytes → Option (Bytes × Bytes)
  | 0, rest => some ([], rest)
  | _ + 1, [] => none
  | size + 1, byte :: rest =>
    match splitAt? size rest with
    | some (front, back) => some (byte :: front, back)
    | none => none

/-! ## What the operations do to length and content -/

/-- A padded string is at least as long as asked for. -/
theorem length_padTo (size : Nat) (bytes : Bytes) :
    (padTo size bytes).length = max size bytes.length := by
  simp only [padTo, List.length_append, List.length_replicate]
  omega

/-- Cutting a string in two succeeds exactly when it is long enough. -/
theorem splitAt?_eq (size : Nat) (bytes : Bytes) :
    splitAt? size bytes =
      if size ≤ bytes.length then some (bytes.take size, bytes.drop size) else none := by
  induction size generalizing bytes with
  | zero => simp [splitAt?]
  | succ size ih =>
    cases bytes with
    | nil => simp [splitAt?]
    | cons byte rest =>
      by_cases fits : size ≤ rest.length
      · simp [splitAt?, ih, fits]
      · simp [splitAt?, ih, fits]

/-- A string in front of any other is what is cut off at its own length. -/
theorem splitAt?_append (front back : Bytes) :
    splitAt? front.length (front ++ back) = some (front, back) := by
  simp [splitAt?_eq]

end Bytes

end RowStore
