import RowStore.Node.Codec

/-!
# Nodes come back from their pages

A node that is written to a page is read back from it (`Node.exists_page`), if
it has the right shape and no reference is the word that stands for a reference to
nothing. Fields are read one after the other from the front of what is left, so each
step of the proof takes one field off the string.
-/

set_option autoImplicit false

namespace RowStore

namespace Reader

variable {fault α β : Type}

/-- A field that is there passes on what it found. -/
theorem bind_of {field : Reader fault α} {next : α → Reader fault β} {input rest : Bytes}
    {value : α} (reads : field input = .ok (value, rest)) :
    (field >>= next) input = next value rest := by
  simp only [bind, StateT.bind, reads, Except.bind]

theorem pure_apply (value : α) (input : Bytes) :
    (pure value : Reader fault α) input = .ok (value, input) := rfl

end Reader

namespace Node

/-- No reference of the node is the word that stands for nothing. -/
def Ordinary : Node → Prop
  | branch node => node.parent ≠ some noReference
  | leaf node => node.parent ≠ some noReference ∧ node.next ≠ some noReference

theorem markToByte_ne_zero (mark : Bool) : (markToByte mark != 0) = mark := by
  cases mark <;> rfl

theorem toNat_count {count : Nat} (small : count ≤ Page.size) :
    (UInt32.ofNat count).toNat = count := by
  rw [UInt32.toNat_ofNat']
  rw [Page.size] at small
  omega

theorem boundedCount_of {count : Nat} (small : count ≤ Page.size)
    (defect : UInt32 → PageDefect) (input : Bytes) :
    boundedCount (UInt32.ofNat count) defect input = .ok (count, input) := by
  rw [boundedCount, toNat_count small, if_pos small]
  rfl

/-! ## Branches -/

section Branches

variable {branch : Branch} {mark : UInt8}

/-- A branch is read up to its children, and whether they are as many as they should be. -/
theorem branchBody_append (marked : (mark != 0) = branch.rootMark)
    (small : branch.size ≤ Page.size) (rest : Bytes) :
    branchBody (mark :: (Word.toBytes (referenceToWord branch.parent) ++
      (Word.countToBytes branch.separators.length ++
        (branch.separators.flatMap Word.signedToBytes ++
          (Word.countToBytes branch.children.length ++ rest))))) =
      (if branch.children.length = branch.separators.length + 1 then do
        let children ← Reader.times (Reader.word .children) (branch.separators.length + 1)
        return {
          rootMark := branch.rootMark
          parent := referenceOfWord (referenceToWord branch.parent)
          separators := branch.separators
          children }
      else
        Reader.fail .childCountMismatch : Reader PageDefect Branch) rest := by
  have few : branch.separators.length ≤ Page.size := by
    rw [Branch.size] at small
    omega
  have fewChildren : branch.children.length ≤ Page.size := by
    rw [Branch.size] at small
    omega
  have separators := Reader.times_flatMap (Reader.signed PageDefect.separators) Word.signedToBytes
    branch.separators (fun value _ => Reader.signed_toBytes PageDefect.separators value)
  unfold branchBody
  rw [Reader.bind_of (Reader.byte_cons ..), Reader.bind_of (Reader.word_toBytes ..),
    Word.countToBytes, Reader.bind_of (Reader.word_toBytes ..),
    Reader.bind_of (boundedCount_of few ..), Reader.bind_of (separators _),
    Word.countToBytes, Reader.bind_of (Reader.word_toBytes ..), toNat_count fewChildren,
    marked]

theorem branchBody_of (marked : (mark != 0) = branch.rootMark)
    (matched : branch.children.length = branch.separators.length + 1)
    (small : branch.size ≤ Page.size) (ordinary : branch.parent ≠ some noReference)
    (rest : Bytes) :
    branchBody (mark :: (Word.toBytes (referenceToWord branch.parent) ++
      (Word.countToBytes branch.separators.length ++
        (branch.separators.flatMap Word.signedToBytes ++
          (Word.countToBytes branch.children.length ++
            (branch.children.flatMap Word.toBytes ++ rest)))))) = .ok (branch, rest) := by
  have children := Reader.times_flatMap (Reader.word PageDefect.children) Word.toBytes
    branch.children (fun value _ => Reader.word_toBytes PageDefect.children value)
  rw [branchBody_append marked small, if_pos matched, ← matched, Reader.bind_of (children rest),
    Reader.pure_apply, referenceOfWord_referenceToWord _ ordinary]

/-- A branch whose children do not match its separators is not read. -/
theorem branchBody_of_unmatched (marked : (mark != 0) = branch.rootMark)
    (unmatched : branch.children.length ≠ branch.separators.length + 1)
    (small : branch.size ≤ Page.size) (rest : Bytes) :
    branchBody (mark :: (Word.toBytes (referenceToWord branch.parent) ++
      (Word.countToBytes branch.separators.length ++
        (branch.separators.flatMap Word.signedToBytes ++
          (Word.countToBytes branch.children.length ++ rest))))) =
      .error .childCountMismatch := by
  rw [branchBody_append marked small, if_neg unmatched]
  rfl

end Branches

/-! ## Leaves -/

theorem leafCell_of {cell : Key × Bytes} (ordinary : cell.2.length ≤ maxValueLength)
    (rest : Bytes) : leafCell (Leaf.cellToBytes cell ++ rest) = .ok (cell, rest) := by
  have small : cell.2.length ≤ Page.size := Nat.le_trans ordinary (Nat.sub_le ..)
  have long := toNat_count small
  unfold leafCell
  rw [Leaf.cellToBytes, List.append_assoc, List.append_assoc,
    Reader.bind_of (Reader.signed_toBytes ..), Word.countToBytes,
    Reader.bind_of (Reader.word_toBytes ..), long, if_pos ordinary,
    Reader.bind_of (Reader.block_append ..)]
  rfl

/-- A leaf that fits a page has few cells, and no value longer than a value may be. -/
theorem bounds_of_size {leaf : Leaf} (small : leaf.size ≤ Page.size) :
    leaf.values.length ≤ Page.size ∧ ∀ value ∈ leaf.values, value.length ≤ maxValueLength := by
  have bounds : ∀ lengths : List Nat, 8 * lengths.length ≤ Leaf.cellsSize lengths ∧
      ∀ length ∈ lengths, 8 + length ≤ Leaf.cellsSize lengths := by
    intro lengths
    induction lengths with
    | nil => exact ⟨Nat.le_refl _, fun length member => absurd member List.not_mem_nil⟩
    | cons first lengths ih =>
      have more : Leaf.cellsSize (first :: lengths) = 8 + first + Leaf.cellsSize lengths := rfl
      refine ⟨by rw [more, List.length_cons]; omega, fun length member => ?_⟩
      rcases List.mem_cons.mp member with rfl | later
      · omega
      · have := ih.2 length later
        omega
  obtain ⟨many, long⟩ := bounds (leaf.values.map List.length)
  rw [List.length_map] at many
  rw [Leaf.size, Leaf.headerSize, Page.size] at small
  rw [maxValueLength, Page.size, Page.singleCellFixedSize]
  refine ⟨by omega, fun value member => ?_⟩
  have := long value.length (List.mem_map_of_mem member)
  omega

theorem leafBody_of {leaf : Leaf} {mark : UInt8} (marked : (mark != 0) = leaf.rootMark)
    (matched : leaf.values.length = leaf.keys.length)
    (small : leaf.size ≤ Page.size) (ordinary : leaf.parent ≠ some noReference)
    (ordinaryNext : leaf.next ≠ some noReference) (rest : Bytes) :
    leafBody (mark :: (Word.toBytes (referenceToWord leaf.parent) ++
      (Word.toBytes (referenceToWord leaf.next) ++ (Word.countToBytes leaf.keys.length ++
        (leaf.cells.flatMap Leaf.cellToBytes ++ rest))))) = .ok (leaf, rest) := by
  have count : leaf.cells.length = leaf.keys.length := by
    rw [Leaf.cells, List.length_zip, matched, Nat.min_self]
  obtain ⟨few, short⟩ := bounds_of_size small
  rw [matched] at few
  have cells := Reader.times_flatMap leafCell Leaf.cellToBytes leaf.cells
    (fun cell member => leafCell_of (short cell.2 (List.of_mem_zip member).2))
  rw [count] at cells
  have keys : leaf.cells.map Prod.fst = leaf.keys := List.map_fst_zip (Nat.le_of_eq matched.symm)
  have values : leaf.cells.map Prod.snd = leaf.values := List.map_snd_zip (Nat.le_of_eq matched)
  unfold leafBody
  rw [Reader.bind_of (Reader.byte_cons ..), Reader.bind_of (Reader.word_toBytes ..),
    Reader.bind_of (Reader.word_toBytes ..), Word.countToBytes,
    Reader.bind_of (Reader.word_toBytes ..), Reader.bind_of (boundedCount_of few ..),
    Reader.bind_of (cells rest), Reader.pure_apply, marked, keys, values,
    referenceOfWord_referenceToWord _ ordinary, referenceOfWord_referenceToWord _ ordinaryNext]

/-! ## Pages -/

/-- The second byte of a node says whether it is marked as root. -/
theorem set_toBytes (node : Node) :
    node.toBytes.set 1 (markToByte node.rootMark) = node.toBytes := by
  cases node <;> rfl

/-- A node is read back from the front of a string, whatever follows it, and whichever byte says
how it is marked. -/
theorem read_set_toBytes {node : Node} {mark : UInt8} (marked : (mark != 0) = node.rootMark)
    (shaped : node.WellShaped) (ordinary : node.Ordinary) (small : node.size ≤ Page.size)
    (rest : Bytes) : read (node.toBytes.set 1 mark ++ rest) = .ok (node, rest) := by
  cases node with
  | branch branch =>
    simp only [toBytes, Branch.toBytes, List.cons_append, List.append_assoc, List.set_cons_succ,
      List.set_cons_zero]
    rw [read, Reader.bind_of (Reader.byte_cons ..), if_pos rfl,
      Reader.bind_of (branchBody_of marked shaped small ordinary rest)]
    rfl
  | leaf leaf =>
    simp only [toBytes, Leaf.toBytes, List.cons_append, List.append_assoc, List.set_cons_succ,
      List.set_cons_zero]
    rw [read, Reader.bind_of (Reader.byte_cons ..), if_neg (by decide), if_pos rfl,
      Reader.bind_of (leafBody_of marked shaped small ordinary.1 ordinary.2 rest)]
    rfl

theorem read_toBytes {node : Node} (shaped : node.WellShaped) (ordinary : node.Ordinary)
    (small : node.size ≤ Page.size) (rest : Bytes) :
    read (node.toBytes ++ rest) = .ok (node, rest) := by
  have reads := read_set_toBytes (markToByte_ne_zero node.rootMark) shaped ordinary small rest
  rw [set_toBytes] at reads
  exact reads

theorem length_toBytes {node : Node} (shaped : node.WellShaped) :
    node.toBytes.length = node.size := by
  cases node with
  | branch branch => exact branch.length_toBytes
  | leaf leaf => exact leaf.length_toBytes shaped

/-- **A node is read back from the page that holds it.** -/
theorem exists_page {node : Node} (shaped : node.WellShaped) (ordinary : node.Ordinary)
    (small : node.size ≤ Page.size) :
    ∃ page, node.toPage = .ok page ∧ ofPage page = .ok node := by
  refine ⟨Page.ofBytes node.toBytes, if_pos small, ?_⟩
  have fits : node.toBytes.length ≤ Page.size := by
    rw [length_toBytes shaped]
    exact small
  rw [ofPage, Reader.result, Page.bytes_ofBytes_of_le _ fits,
    read_toBytes shaped ordinary small]

end Node

end RowStore
