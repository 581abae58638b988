import RowStore.Bytes.Word

/-!
# Windows over a fixed memory

A window reads and writes a fixed stretch of memory through two positions that
move independently. A write that runs past the end stores what fits and fails;
from then on every write fails and stores nothing. A read that runs past the
end fails, and from then on every read fails. Reads see what was written
before, at the same place.

A window that only reads is one whose writing has failed from the start.
-/

set_option autoImplicit false

namespace RowStore

/-- A fixed stretch of memory with a reading and a writing position. The next write starts behind
the bytes that have been written. After the first read that fails, or write, no further one
succeeds. -/
structure Window where
  memory : Bytes
  readPosition : Nat := 0
  canRead : Bool := true
  written : Nat := 0
  canWrite : Bool := true
  deriving DecidableEq

namespace Window

/-- A window for reading only. -/
def readOnly (memory : Bytes) : Window := { memory, canWrite := false }

/-- Write a string of bytes; the answer says whether all of it was stored. -/
def write (window : Window) (bytes : Bytes) : Bool × Window :=
  if window.canWrite then
    let stored := bytes.take (window.memory.length - window.written)
    let fits := stored.length == bytes.length
    (fits,
      { window with
        memory := window.memory.take window.written ++ stored ++
          window.memory.drop (window.written + stored.length)
        written := window.written + stored.length
        canWrite := fits })
  else
    (false, window)

/-- Write strings of bytes one after the other, up to the first that is not all stored. -/
def writeAll (window : Window) : List Bytes → Bool × Window
  | [] => (true, window)
  | bytes :: rest =>
    match window.write bytes with
    | (true, after) => after.writeAll rest
    | (false, after) => (false, after)

/-- Read the given number of bytes. -/
def read (window : Window) (size : Nat) : Option Bytes × Window :=
  if window.canRead && window.readPosition + size ≤ window.memory.length then
    (some ((window.memory.drop window.readPosition).take size),
      { window with readPosition := window.readPosition + size })
  else
    (none, { window with canRead := false })

/-- Write one byte. -/
def writeByte (window : Window) (byte : UInt8) : Bool × Window := window.write [byte]

/-- Write a word, least significant byte first. -/
def writeWord (window : Window) (word : UInt32) : Bool × Window :=
  window.write (Word.toBytes word)

/-- Write a signed word as its two's complement bit pattern. -/
def writeSigned (window : Window) (word : Int32) : Bool × Window :=
  window.write (Word.signedToBytes word)

/-- Read one byte. -/
def readByte (window : Window) : Option UInt8 × Window :=
  match window.read 1 with
  | (some [byte], after) => (some byte, after)
  | (_, after) => (none, after)

/-- Read a word, least significant byte first. -/
def readWord (window : Window) : Option UInt32 × Window :=
  match window.read 4 with
  | (some [first, second, third, fourth], after) =>
    (some (Word.ofBytes first second third fourth), after)
  | (_, after) => (none, after)

/-- Read a signed word from its two's complement bit pattern. -/
def readSigned (window : Window) : Option Int32 × Window :=
  match window.readWord with
  | (word?, after) => (word?.map UInt32.toInt32, after)

/-- Writing never changes the size of the memory. -/
theorem length_memory_write (window : Window) (bytes : Bytes)
    (inside : window.written ≤ window.memory.length) :
    (window.write bytes).2.memory.length = window.memory.length := by
  unfold write
  split
  · simp only [List.length_append, List.length_take, List.length_drop]
    omega
  · rfl

/-- Strings that fit what is left of the memory are stored there one behind the other. -/
theorem writeAll_of_le (pieces : List Bytes) (front rest : Bytes)
    (fits : pieces.flatten.length ≤ rest.length) :
    writeAll { memory := front ++ rest, written := front.length } pieces =
      (true, {
        memory := front ++ pieces.flatten ++ rest.drop pieces.flatten.length
        written := front.length + pieces.flatten.length }) := by
  induction pieces generalizing front rest with
  | nil => simp [writeAll]
  | cons piece pieces ih =>
    rw [List.flatten_cons, List.length_append] at fits
    have stored : write { memory := front ++ rest, written := front.length } piece =
        (true, {
          memory := (front ++ piece) ++ rest.drop piece.length
          written := (front ++ piece).length }) := by
      have room : piece.take (front.length + rest.length - front.length) = piece :=
        List.take_of_length_le (by omega)
      simp only [write, if_true, List.length_append, room, beq_self_eq_true, List.take_left,
        List.drop_length_add_append]
    have later : pieces.flatten.length ≤ (rest.drop piece.length).length := by
      rw [List.length_drop]
      omega
    rw [writeAll, stored]
    dsimp only
    rw [ih (front ++ piece) _ later]
    simp only [List.flatten_cons, List.length_append, List.append_assoc, List.drop_drop,
      Nat.add_assoc]

/-- Reading leaves the memory alone. -/
theorem memory_read (window : Window) (size : Nat) :
    (window.read size).2.memory = window.memory := by
  unfold read
  split <;> rfl

end Window

end RowStore
