import RowStore.Bytes.Word

/-!
# Reading fields from the front of a string

A reader takes fields off the front of a string of bytes and stops at the first
field that is not there. Each field names the fault that its absence is, so a
format says in one place what it expects and what is wrong when it ends early.

For every field there is a lemma that reads it back from what the writing side
puts in front of any further bytes, and one that says that a field which was
read stood in front. Both pass from one field to a list of fields.
-/

set_option autoImplicit false

namespace RowStore

/-- A computation that takes fields off the front of a string of bytes. -/
abbrev Reader (fault : Type) := StateT Bytes (Except fault)

namespace Reader

variable {fault α : Type}

/-- What is there is not what is expected. -/
def fail (defect : fault) : Reader fault α := fun _ => .error defect

/-- The next byte. -/
def byte (missing : fault) : Reader fault UInt8
  | [] => .error missing
  | next :: rest => .ok (next, rest)

/-- The next word of four bytes. -/
def word (missing : fault) : Reader fault UInt32
  | first :: second :: third :: fourth :: rest =>
    .ok (Word.ofBytes first second third fourth, rest)
  | _ => .error missing

/-- The next word, as a signed integer. -/
def signed (missing : fault) : Reader fault Int32 := do
  return (← word missing).toInt32

/-- The next `size` bytes. -/
def block (size : Nat) (missing : fault) : Reader fault Bytes := fun input =>
  match Bytes.splitAt? size input with
  | some (front, rest) => .ok (front, rest)
  | none => .error missing

/-- The same kind of field `count` times. -/
def times (field : Reader fault α) : Nat → Reader fault (List α)
  | 0 => pure []
  | count + 1 => do
    let first ← field
    let others ← times field count
    return first :: others

/-- What the fields say about the whole string; bytes after the last field are ignored. -/
def result (fields : Reader fault α) (input : Bytes) : Except fault α :=
  match fields input with
  | .ok (value, _) => .ok value
  | .error missing => .error missing

/-! ## Reading back what was written -/

/-- A byte is read back. -/
theorem byte_cons (missing : fault) (next : UInt8) (rest : Bytes) :
    byte missing (next :: rest) = .ok (next, rest) := rfl

/-- A word is read back from its bytes. -/
theorem word_toBytes (missing : fault) (value : UInt32) (rest : Bytes) :
    word missing (Word.toBytes value ++ rest) = .ok (value, rest) := by
  simp only [Word.toBytes, List.cons_append, List.nil_append, word, Word.ofBytes_toBytes]

/-- A signed word is read back from its bytes. -/
theorem signed_toBytes (missing : fault) (value : Int32) (rest : Bytes) :
    signed missing (Word.signedToBytes value ++ rest) = .ok (value, rest) := by
  simp only [signed, Word.signedToBytes, bind, StateT.bind, word_toBytes, Except.bind]
  exact congrArg (fun found => Except.ok (found, rest)) value.toInt32_toUInt32

/-- A block is read back. -/
theorem block_append (missing : fault) (front rest : Bytes) :
    block front.length missing (front ++ rest) = .ok (front, rest) := by
  simp [block, Bytes.splitAt?_append]

/-- A list of fields is read back when each field in it is. -/
theorem times_flatMap (field : Reader fault α) (write : α → Bytes) (values : List α)
    (reads : ∀ value ∈ values, ∀ rest, field (write value ++ rest) = .ok (value, rest))
    (rest : Bytes) :
    times field values.length (values.flatMap write ++ rest) = .ok (values, rest) := by
  induction values with
  | nil => rfl
  | cons value values ih =>
    have head := reads value List.mem_cons_self
    have tail := ih fun other member => reads other (List.mem_cons_of_mem value member)
    simp only [List.length_cons, List.flatMap_cons, List.append_assoc, times, bind, StateT.bind,
      head, Except.bind, tail]
    rfl

/-! ## What was read is what stood there -/

/-- The byte that was read stood in front. -/
theorem eq_cons_of_byte {missing : fault} {input rest : Bytes} {next : UInt8}
    (found : byte missing input = .ok (next, rest)) : input = next :: rest := by
  cases input with
  | nil => cases found
  | cons first others =>
    cases found
    rfl

/-- The word that was read stood in front. -/
theorem eq_toBytes_append_of_word {missing : fault} {input rest : Bytes} {value : UInt32}
    (found : word missing input = .ok (value, rest)) : input = Word.toBytes value ++ rest := by
  unfold word at found
  split at found
  · cases found
    rw [Word.toBytes_ofBytes]
    rfl
  · cases found

/-- The block that was read stood in front and has the size that was asked for. -/
theorem eq_append_of_block {size : Nat} {missing : fault} {input front rest : Bytes}
    (found : block size missing input = .ok (front, rest)) :
    input = front ++ rest ∧ front.length = size := by
  unfold block at found
  rw [Bytes.splitAt?_eq] at found
  by_cases enough : size ≤ input.length
  · simp only [enough, if_true, Except.ok.injEq, Prod.mk.injEq] at found
    obtain ⟨rfl, rfl⟩ := found
    exact ⟨(List.take_append_drop size input).symm, List.length_take_of_le enough⟩
  · simp [enough] at found

/-- The fields that were read stood in front and are as many as were asked for. -/
theorem eq_flatMap_append_of_times {field : Reader fault α} {write : α → Bytes}
    (sound : ∀ input value rest, field input = .ok (value, rest) → input = write value ++ rest)
    {count : Nat} {input rest : Bytes} {values : List α}
    (found : times field count input = .ok (values, rest)) :
    input = values.flatMap write ++ rest ∧ values.length = count := by
  induction count generalizing input values with
  | zero =>
    cases found
    exact ⟨rfl, rfl⟩
  | succ count ih =>
    simp only [times, bind, StateT.bind, Except.bind] at found
    cases first : field input with
    | error missing => simp [first] at found
    | ok pair =>
      obtain ⟨value, middle⟩ := pair
      simp only [first] at found
      cases others : times field count middle with
      | error missing => simp [others] at found
      | ok pair =>
        obtain ⟨tail, last⟩ := pair
        simp only [others] at found
        cases found
        obtain ⟨split, length⟩ := ih others
        refine ⟨?_, by simp [length]⟩
        rw [sound input value middle first, split]
        simp

end Reader

end RowStore
