import RowStore.Bytes.Basic

/-!
# Words of four bytes

Every integer in a file is a word of four bytes, least significant byte first.
Signed integers keep their two's complement bit pattern. Writing and reading
are inverse to each other (`ofBytes_toBytes`, `toBytes_ofBytes`).
-/

set_option autoImplicit false

namespace RowStore

namespace Word

/-- The four bytes of a word, least significant first. -/
def toBytes (word : UInt32) : Bytes :=
  [UInt8.ofNat word.toNat, UInt8.ofNat (word.toNat / 256),
    UInt8.ofNat (word.toNat / 65536), UInt8.ofNat (word.toNat / 16777216)]

/-- The word of four bytes, least significant first. -/
def ofBytes (first second third fourth : UInt8) : UInt32 :=
  UInt32.ofNat (first.toNat + 256 * second.toNat + 65536 * third.toNat + 16777216 * fourth.toNat)

/-- The four bytes of a signed word. -/
def signedToBytes (word : Int32) : Bytes := toBytes word.toUInt32

/-- The four bytes of a count, as it stands in front of a list. -/
def countToBytes (count : Nat) : Bytes := toBytes (UInt32.ofNat count)

/-- A word takes four bytes. -/
theorem length_toBytes (word : UInt32) : (toBytes word).length = 4 := rfl

/-- The value of four bytes, as a number. -/
theorem toNat_ofBytes (first second third fourth : UInt8) :
    (ofBytes first second third fourth).toNat =
      first.toNat + 256 * second.toNat + 65536 * third.toNat + 16777216 * fourth.toNat := by
  have := first.toNat_lt
  have := second.toNat_lt
  have := third.toNat_lt
  have := fourth.toNat_lt
  simp only [ofBytes, UInt32.toNat_ofNat']
  omega

/-- A word is read back from its four bytes. -/
theorem ofBytes_toBytes (word : UInt32) :
    ofBytes (UInt8.ofNat word.toNat) (UInt8.ofNat (word.toNat / 256))
      (UInt8.ofNat (word.toNat / 65536)) (UInt8.ofNat (word.toNat / 16777216)) = word := by
  have := word.toNat_lt
  apply UInt32.toNat_inj.mp
  rw [toNat_ofBytes]
  simp only [UInt8.toNat_ofNat']
  omega

/-- Four bytes are written back from their word. -/
theorem toBytes_ofBytes (first second third fourth : UInt8) :
    toBytes (ofBytes first second third fourth) = [first, second, third, fourth] := by
  have := first.toNat_lt
  have := second.toNat_lt
  have := third.toNat_lt
  have := fourth.toNat_lt
  simp only [toBytes, toNat_ofBytes, List.cons.injEq, and_true]
  refine ⟨?_, ?_, ?_, ?_⟩ <;>
    · apply UInt8.toNat_inj.mp
      simp only [UInt8.toNat_ofNat']
      omega

end Word

end RowStore
