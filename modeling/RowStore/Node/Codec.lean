import RowStore.Bytes.Reader
import RowStore.Fault
import RowStore.Node.Basic

/-!
# Nodes as pages

A node starts with a tag, 0 for a branch and 1 for a leaf, a byte for the root
mark and the parent reference. A branch goes on with its separators and its
children, each list with its length in front. A leaf goes on with the reference
to the next leaf, the number of cells and the cells: key, length of the value,
value. A reference to nothing is the largest word. What is left of the page is
zero.

Reading takes any nonzero byte for a root mark and ignores what follows the
node. It checks every count against the size of a page before it follows it, so
that no count leads past the page, and it refuses branches whose lists do not
match.
-/

set_option autoImplicit false

namespace RowStore

/-! ## References and marks -/

/-- The word that stands for a reference to nothing. -/
def noReference : UInt32 := 4294967295

/-- The word of a reference. -/
def referenceToWord (reference : Option PageNumber) : UInt32 := reference.getD noReference

/-- The reference that a word stands for. -/
def referenceOfWord (word : UInt32) : Option PageNumber :=
  if word = noReference then none else some word

/-- The byte of a mark. -/
def markToByte (mark : Bool) : UInt8 := if mark then 1 else 0

/-! ## Writing -/

/-- The bytes of a branch. -/
def Branch.toBytes (branch : Branch) : Bytes :=
  0 :: markToByte branch.rootMark :: Word.toBytes (referenceToWord branch.parent) ++
    Word.countToBytes branch.separators.length ++ branch.separators.flatMap Word.signedToBytes ++
    Word.countToBytes branch.children.length ++ branch.children.flatMap Word.toBytes

/-- The bytes of a cell. -/
def Leaf.cellToBytes (cell : Key × Bytes) : Bytes :=
  Word.signedToBytes cell.1 ++ Word.countToBytes cell.2.length ++ cell.2

/-- The bytes of a leaf. Values without a key are not written. -/
def Leaf.toBytes (leaf : Leaf) : Bytes :=
  1 :: markToByte leaf.rootMark :: Word.toBytes (referenceToWord leaf.parent) ++
    Word.toBytes (referenceToWord leaf.next) ++ Word.countToBytes leaf.keys.length ++
    leaf.cells.flatMap Leaf.cellToBytes

/-- The bytes of a node. -/
def Node.toBytes : Node → Bytes
  | branch node => node.toBytes
  | leaf node => node.toBytes

/-- The page that holds a node, when the node is not larger than a page. What is written of the node
is not longer than its size, so writing it never runs past the page. -/
def Node.toPage (node : Node) : Except Shortage Page :=
  if node.size ≤ Page.size then .ok (Page.ofBytes node.toBytes) else .error (.node node.size)

/-! ## Reading -/

namespace Node

/-- A count that is no larger than a page has bytes. -/
def boundedCount (count : UInt32) (defect : UInt32 → PageDefect) : Reader PageDefect Nat :=
  if count.toNat ≤ Page.size then pure count.toNat else Reader.fail (defect count)

/-- A branch after its tag. -/
def branchBody : Reader PageDefect Branch := do
  let mark ← Reader.byte .branchHeader
  let parent ← Reader.word .branchHeader
  let count ← boundedCount (← Reader.word .branchHeader) .separatorCount
  let separators ← Reader.times (Reader.signed .separators) count
  let childCount ← Reader.word .childCountMissing
  if childCount.toNat = count + 1 then
    let children ← Reader.times (Reader.word .children) (count + 1)
    return { rootMark := mark != 0, parent := referenceOfWord parent, separators, children }
  else
    Reader.fail .childCountMismatch

/-- A cell of a leaf. -/
def leafCell : Reader PageDefect (Key × Bytes) := do
  let key ← Reader.signed .cell
  let length ← Reader.word .cell
  if length.toNat ≤ maxValueLength then
    let value ← Reader.block length.toNat .value
    return (key, value)
  else
    Reader.fail .valueTooLong

/-- A leaf after its tag. -/
def leafBody : Reader PageDefect Leaf := do
  let mark ← Reader.byte .leafHeader
  let parent ← Reader.word .leafHeader
  let next ← Reader.word .leafHeader
  let count ← boundedCount (← Reader.word .leafHeader) .cellCount
  let cells ← Reader.times leafCell count
  return {
    rootMark := mark != 0
    parent := referenceOfWord parent
    next := referenceOfWord next
    keys := cells.map Prod.fst
    values := cells.map Prod.snd }

/-- A node, tag first. -/
def read : Reader PageDefect Node := do
  let tag ← Reader.byte .branchHeader
  if tag = 0 then
    return .branch (← branchBody)
  else if tag = 1 then
    return .leaf (← leafBody)
  else
    Reader.fail (.unknownTag tag)

/-- The node that a page holds. -/
def ofPage (page : Page) : Except PageDefect Node := read.result page.bytes

end Node

/-! ## References survive, with one exception -/

/-- A reference is read back unless it is the word that stands for nothing. -/
theorem referenceOfWord_referenceToWord (reference : Option PageNumber)
    (ordinary : reference ≠ some noReference) :
    referenceOfWord (referenceToWord reference) = reference := by
  cases reference with
  | none => rfl
  | some id =>
    have : id ≠ noReference := fun same => ordinary (congrArg some same)
    simp [referenceToWord, referenceOfWord, this]

/-- Every word that is read as a reference is written back. -/
theorem referenceToWord_referenceOfWord (word : UInt32) :
    referenceToWord (referenceOfWord word) = word := by
  unfold referenceOfWord referenceToWord
  split
  next same => exact same.symm
  next => rfl

/-- The bytes of a branch are as many as its size says. -/
theorem Branch.length_toBytes (branch : Branch) : branch.toBytes.length = branch.size := by
  have words : ∀ list : List UInt32, (list.flatMap Word.toBytes).length = 4 * list.length := by
    intro list
    induction list with
    | nil => rfl
    | cons head tail ih => simp [ih, Word.length_toBytes]; omega
  have signed : ∀ list : List Int32,
      (list.flatMap Word.signedToBytes).length = 4 * list.length := by
    intro list
    induction list with
    | nil => rfl
    | cons head tail ih => simp [ih, Word.signedToBytes, Word.length_toBytes]; omega
  simp only [Branch.toBytes, Word.countToBytes, Branch.size, Branch.headerSize, List.length_append,
    List.length_cons, Word.length_toBytes, words, signed]
  omega

/-- The bytes of a leaf with one value for each key are as many as its size says. -/
theorem Leaf.length_toBytes (leaf : Leaf) (matching : leaf.values.length = leaf.keys.length) :
    leaf.toBytes.length = leaf.size := by
  have cells : ∀ (keys : List Key) (values : List Bytes), values.length = keys.length →
      ((keys.zip values).flatMap Leaf.cellToBytes).length =
        Leaf.cellsSize (values.map List.length) := by
    intro keys values
    induction values generalizing keys with
    | nil => simp [Leaf.cellsSize]
    | cons value values ih =>
      intro matching
      cases keys with
      | nil => simp at matching
      | cons key keys =>
        have tail := ih keys (by simpa using matching)
        simp only [List.zip_cons_cons, List.flatMap_cons, List.length_append, tail,
          Leaf.cellToBytes, Word.signedToBytes, Word.countToBytes, Word.length_toBytes,
          Leaf.cellsSize, Leaf.cellFixedSize, List.map_cons]
  simp only [Leaf.toBytes, Leaf.cells, Word.countToBytes, Leaf.size, Leaf.headerSize,
    List.length_append, List.length_cons, Word.length_toBytes, cells _ _ matching]

end RowStore
