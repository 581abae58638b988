import Mathlib.Data.List.Perm.Basic
import RowStore.Proofs.Tree.Walks

/-!
# Growing and cutting one node

A leaf with a new cell has its old cells and the new one; a branch with a new
separator has its old regions, with one of them cut in two. The halves of a node
have together what the node had, and each stands in its half of the range.

The sizes that are looked at before a change are the sizes after it
(`hasRoomFor_iff`, `canDivideAt_iff_insertAt`), and the halves of a branch that has just
grown too large have room again.
-/

set_option autoImplicit false

namespace RowStore

open KeyRange

/-- Inserting into two lists at one place inserts a pair into the list of pairs. -/
theorem zip_insertIdx {α β : Type} {firsts : List α} {seconds : List β}
    (matched : seconds.length = firsts.length) (place : Nat) (first : α) (second : β) :
    (firsts.insertIdx place first).zip (seconds.insertIdx place second) =
      (firsts.zip seconds).insertIdx place (first, second) := by
  induction place generalizing firsts seconds with
  | zero => rfl
  | succ place ih =>
    cases firsts with
    | nil =>
      rw [List.length_eq_zero_iff.mp matched]
      rfl
    | cons head firsts =>
      cases seconds with
      | nil => cases matched
      | cons head' seconds => exact congrArg (_ :: ·) (ih (Nat.succ.inj matched))

/-! ## Leaves -/

namespace Leaf

variable {leaf : Leaf} {range : KeyRange} {key : Key} {value : Bytes}

theorem cellsSize_insertIdx {lengths : List Nat} {place : Nat} (inside : place ≤ lengths.length)
    (length : Nat) :
    cellsSize (lengths.insertIdx place length) = cellFixedSize + length + cellsSize lengths := by
  induction place generalizing lengths with
  | zero => rfl
  | succ place ih =>
    cases lengths with
    | nil => exact absurd inside (Nat.not_succ_le_zero _)
    | cons first lengths =>
      rw [List.insertIdx_succ_cons, cellsSize, ih (Nat.le_of_succ_le_succ inside), cellsSize]
      exact Nat.add_left_comm ..

/-- The leaf with one more cell, at the given place. -/
def insertAt (leaf : Leaf) (place : Nat) (key : Key) (value : Bytes) : Leaf :=
  { leaf with
    keys := leaf.keys.insertIdx place key
    values := leaf.values.insertIdx place value }

theorem position_le (leaf : Leaf) (key : Key) : leaf.position key ≤ leaf.keys.length :=
  (List.takeWhile_sublist _).length_le

/-- A leaf has a key exactly when it stands at its place. -/
theorem hasKey_iff (ascending : leaf.keys.Pairwise (· < ·)) :
    leaf.hasKey key = true ↔ key ∈ leaf.keys := by
  unfold hasKey position
  generalize leaf.keys = keys at ascending
  rw [beq_iff_eq]
  constructor
  · exact List.mem_of_getElem?
  · intro member
    induction keys with
    | nil => cases member
    | cons first keys ih =>
      obtain ⟨before, ascending⟩ := List.pairwise_cons.mp ascending
      rcases List.mem_cons.mp member with rfl | later
      · rw [List.takeWhile_cons_of_neg (by simp)]
        rfl
      · rw [List.takeWhile_cons_of_pos (by simpa using before key later)]
        exact ih ascending later

/-- A leaf that had a cell has several after an insertion. -/
theorem several_keys_insertAt (nonempty : leaf.keys ≠ []) {place : Nat}
    (inside : place ≤ leaf.keys.length) (key : Key) (value : Bytes) :
    2 ≤ (leaf.insertAt place key value).keys.length := by
  have some := List.length_pos_iff.mpr nonempty
  rw [insertAt, List.length_insertIdx_of_le_length inside]
  exact Nat.succ_le_succ some

theorem several_keys_insert (nonempty : leaf.keys ≠ []) (key : Key) (value : Bytes) :
    2 ≤ (leaf.insert key value).keys.length :=
  several_keys_insertAt nonempty (leaf.position_le key) key value

theorem Fits.cells_ne_nil (fits : leaf.Fits range) (nonempty : leaf.keys ≠ []) :
    leaf.cells ≠ [] := by
  rw [← fits.map_fst_cells] at nonempty
  exact fun empty => nonempty (by rw [empty]; rfl)

section Insert

variable (matched : leaf.values.length = leaf.keys.length)
include matched

theorem size_insert (key : Key) (value : Bytes) :
    (leaf.insert key value).size = leaf.size + cellFixedSize + value.length := by
  have inside : leaf.position key ≤ (leaf.values.map List.length).length := by
    rw [List.length_map, matched]
    exact leaf.position_le key
  simp only [size, insert, List.map_insertIdx, cellsSize_insertIdx inside]
  omega

theorem matched_insertAt {place : Nat} (inside : place ≤ leaf.keys.length) (key : Key)
    (value : Bytes) :
    (leaf.insertAt place key value).values.length =
      (leaf.insertAt place key value).keys.length := by
  have inValues : place ≤ leaf.values.length := matched ▸ inside
  simp only [insertAt, List.length_insertIdx_of_le_length inside,
    List.length_insertIdx_of_le_length inValues, matched]

theorem matched_insert (key : Key) (value : Bytes) :
    (leaf.insert key value).values.length = (leaf.insert key value).keys.length :=
  matched_insertAt matched (leaf.position_le key) key value

/-- The cells of a leaf after an insertion are those before and the new one. -/
theorem cells_insert_perm (key : Key) (value : Bytes) :
    (leaf.insert key value).cells.Perm ((key, value) :: leaf.cells) := by
  rw [cells, insert, zip_insertIdx matched]
  refine List.perm_insertIdx _ _ ?_
  rw [List.length_zip, matched, Nat.min_self]
  exact leaf.position_le key

theorem hasRoomFor_iff (key : Key) (value : Bytes) :
    leaf.hasRoomFor value.length = true ↔ (leaf.insert key value).size ≤ Page.size := by
  rw [hasRoomFor, decide_eq_true_iff, size_insert matched]

/-- The sizes that are computed before an insertion are those of the halves after it. -/
theorem canDivideAt_iff_insertAt {place : Nat} (inside : place ≤ leaf.keys.length) (key : Key)
    (value : Bytes) (page : PageNumber) :
    leaf.canDivideAt place value.length = true ↔
      ((leaf.insertAt place key value).divide page).1.size ≤ Page.size ∧
        ((leaf.insertAt place key value).divide page).2.size ≤ Page.size := by
  have counts := matched_insertAt matched inside key value
  simp only [canDivideAt, size, divide, Bool.and_eq_true, decide_eq_true_iff, List.map_take,
    List.map_drop, ← counts]
  simp only [insertAt, List.length_map, ← List.map_insertIdx]

theorem canDivideAt_iff (key : Key) (value : Bytes) (page : PageNumber) :
    leaf.canDivideAt (leaf.position key) value.length = true ↔
      ((leaf.insert key value).divide page).1.size ≤ Page.size ∧
        ((leaf.insert key value).divide page).2.size ≤ Page.size :=
  canDivideAt_iff_insertAt matched (leaf.position_le key) key value page

/-- A leaf that has no room for a value of an ordinary length has a cell. -/
theorem keys_ne_nil_of_not_hasRoomFor (full : leaf.hasRoomFor value.length ≠ true)
    (ordinary : value.length ≤ maxValueLength) : leaf.keys ≠ [] := by
  intro empty
  rw [empty] at matched
  refine full (decide_eq_true ?_)
  rw [size, List.length_eq_zero_iff.mp matched]
  simp only [maxValueLength, Page.size, Page.singleCellFixedSize] at ordinary
  simp only [List.map_nil, cellsSize, headerSize, cellFixedSize, Page.size]
  omega

end Insert

theorem cells_divide (matched : leaf.values.length = leaf.keys.length) (page : PageNumber) :
    (leaf.divide page).1.cells ++ (leaf.divide page).2.cells = leaf.cells := by
  simp only [divide, cells]
  rw [← List.zip_append (by simp only [List.length_take, matched]), List.take_append_drop,
    List.take_append_drop]

/-- The lower half has half of the keys and of the values, rounded down. -/
theorem length_divide (matched : leaf.values.length = leaf.keys.length) (page : PageNumber) :
    (leaf.divide page).1.keys.length = leaf.keys.length / 2 ∧
      (leaf.divide page).1.values.length = leaf.keys.length / 2 := by
  simp only [divide, List.length_take, matched]
  exact ⟨Nat.min_eq_left (Nat.div_le_self ..), Nat.min_eq_left (Nat.div_le_self ..)⟩

theorem matched_divide (matched : leaf.values.length = leaf.keys.length) (page : PageNumber) :
    (leaf.divide page).1.values.length = (leaf.divide page).1.keys.length ∧
      (leaf.divide page).2.values.length = (leaf.divide page).2.keys.length := by
  simp only [divide, List.length_take, List.length_drop, matched, and_self]

/-- Both halves of a leaf of two cells or more have a key. -/
theorem keys_divide_ne_nil (several : 2 ≤ leaf.keys.length) (page : PageNumber) :
    (leaf.divide page).1.keys ≠ [] ∧ (leaf.divide page).2.keys ≠ [] := by
  rw [← List.length_pos_iff, ← List.length_pos_iff]
  simp only [divide, List.length_take, List.length_drop]
  omega

/-- A leaf of two cells or more is cut at the first key of its upper half, and the keys of the
halves lie on the two sides of it. -/
theorem separates_divide (separates : range.Separates leaf.keys) (several : 2 ≤ leaf.keys.length)
    (page : PageNumber) :
    range.Admits ((leaf.divide page).2.keys.headD 0) ∧
      (range.below ((leaf.divide page).2.keys.headD 0)).Separates (leaf.divide page).1.keys ∧
      (range.above ((leaf.divide page).2.keys.headD 0)).Separates (leaf.divide page).2.keys := by
  have parts : (leaf.divide page).1.keys ++ (leaf.divide page).2.keys = leaf.keys :=
    List.take_append_drop ..
  obtain ⟨lowerNonempty, upperNonempty⟩ := keys_divide_ne_nil several page
  obtain ⟨separator, rest, listed⟩ := List.exists_cons_of_ne_nil upperNonempty
  rw [← parts, listed] at separates
  obtain ⟨before, beyond, -⟩ := separates.parts
  rw [listed]
  exact ⟨separates.admits lowerNonempty, before, beyond⟩

/-- If the halves of a leaf of two cells or more fit their pages, they can stand on the two sides of
the first key of the upper half. -/
theorem fits_divide (matched : leaf.values.length = leaf.keys.length)
    (separates : range.Separates leaf.keys) (several : 2 ≤ leaf.keys.length) {page : PageNumber}
    (small : (leaf.divide page).1.size ≤ Page.size ∧ (leaf.divide page).2.size ≤ Page.size) :
    range.Admits ((leaf.divide page).2.keys.headD 0) ∧
      (leaf.divide page).1.Fits (range.below ((leaf.divide page).2.keys.headD 0)) ∧
      (leaf.divide page).2.Fits (range.above ((leaf.divide page).2.keys.headD 0)) ∧
      (leaf.divide page).1.cells ≠ [] ∧ (leaf.divide page).2.cells ≠ [] := by
  obtain ⟨lowerMatched, upperMatched⟩ := matched_divide matched page
  obtain ⟨lowerNonempty, upperNonempty⟩ := keys_divide_ne_nil several page
  obtain ⟨admits, before, beyond⟩ := separates_divide separates several page
  have lowerFits : (leaf.divide page).1.Fits _ := ⟨lowerMatched, before, small.1⟩
  have upperFits : (leaf.divide page).2.Fits _ := ⟨upperMatched, beyond, small.2⟩
  exact ⟨admits, lowerFits, upperFits, lowerFits.cells_ne_nil lowerNonempty,
    upperFits.cells_ne_nil upperNonempty⟩

end Leaf

/-! ## Branches -/

namespace Branch

variable {branch : Branch} {range part : KeyRange} {separator : Key} {page : PageNumber}
  {front back : List Region}

theorem size_eq (matched : branch.children.length = branch.separators.length + 1) :
    branch.size = 18 + 8 * branch.separators.length := by
  rw [size, matched, headerSize]
  omega

theorem position_le (branch : Branch) (key : Key) :
    branch.position key ≤ branch.separators.length :=
  (List.takeWhile_sublist _).length_le

theorem length_separators_insert (branch : Branch) (separator : Key) (child : PageNumber) :
    (branch.insert separator child).separators.length = branch.separators.length + 1 :=
  List.length_insertIdx_of_le_length (branch.position_le separator) separator

theorem matched_insert (matched : branch.children.length = branch.separators.length + 1)
    (separator : Key) (child : PageNumber) :
    (branch.insert separator child).children.length =
      (branch.insert separator child).separators.length + 1 := by
  have inside := branch.position_le separator
  rw [length_separators_insert, insert, List.length_insertIdx_of_le_length (by omega), matched]

theorem size_insert (matched : branch.children.length = branch.separators.length + 1)
    (separator : Key) (child : PageNumber) :
    (branch.insert separator child).size = branch.size + entrySize := by
  rw [size_eq (matched_insert matched separator child), size_eq matched,
    length_separators_insert, entrySize]
  omega

theorem canGrow_iff (matched : branch.children.length = branch.separators.length + 1)
    (separator : Key) (child : PageNumber) :
    branch.canGrow = true ↔ (branch.insert separator child).size ≤ Page.size := by
  rw [canGrow, decide_eq_true_iff, size_insert matched]

theorem canGrow_eq_false_iff (matched : branch.children.length = branch.separators.length + 1)
    (separator : Key) (child : PageNumber) :
    branch.canGrow = false ↔ Page.size < (branch.insert separator child).size := by
  rw [← Bool.not_eq_true, canGrow_iff matched separator child, Nat.not_le]

section Insert

variable (separates : range.Separates branch.separators) (admits : part.Admits separator)
  (found : branch.regions range = front ++ (page, part) :: back)
include separates admits found

/-- The place of a new separator is behind the child whose range it cuts. -/
theorem getElem?_position : branch.children[branch.position separator]? = some page := by
  obtain ⟨place, child, -⟩ := regions_insertIdx page separates admits found
  rw [position, place]
  exact child

theorem separates_insert (fresh : PageNumber) :
    range.Separates (branch.insert separator fresh).separators := by
  obtain ⟨place, -, inserted, -⟩ := regions_insertIdx fresh separates admits found
  rw [insert, position, place]
  exact inserted

/-- A new separator cuts one region of a branch in two. -/
theorem regions_insert (fresh : PageNumber) :
    (branch.insert separator fresh).regions range =
      front ++ (page, part.below separator) :: (fresh, part.above separator) :: back := by
  obtain ⟨place, -, -, parts⟩ := regions_insertIdx fresh separates admits found
  rw [regions, insert, position, place]
  exact parts

end Insert

section Divide

/-- A branch that is too large has separators to cut it at. -/
theorem several_separators (matched : branch.children.length = branch.separators.length + 1)
    (large : Page.size < branch.size) : 2 ≤ branch.separators.length := by
  rw [size_eq matched, Page.size] at large
  omega

theorem children_divide (branch : Branch) :
    branch.divide.1.children ++ branch.divide.2.children = branch.children :=
  List.take_append_drop ..

variable (several : 2 ≤ branch.separators.length)
include several

theorem separators_divide :
    branch.divide.1.separators ++ branch.median :: branch.divide.2.separators =
      branch.separators := by
  have inside : branch.separators.length / 2 < branch.separators.length := by omega
  simp only [divide, median, List.getD_eq_getElem?_getD, List.getElem?_eq_getElem inside,
    Option.getD_some]
  rw [← List.drop_eq_getElem_cons inside, List.take_append_drop]

theorem separates_divide (separates : range.Separates branch.separators) :
    range.Admits branch.median ∧
      (range.below branch.median).Separates branch.divide.1.separators ∧
      (range.above branch.median).Separates branch.divide.2.separators := by
  rw [← separators_divide several] at separates
  obtain ⟨before, beyond, -⟩ := separates.parts
  refine ⟨separates.admits ?_, before, beyond.tail⟩
  rw [← List.length_pos_iff]
  simp only [divide, List.length_take]
  omega

variable (matched : branch.children.length = branch.separators.length + 1)
include matched

theorem matched_divide :
    branch.divide.1.children.length = branch.divide.1.separators.length + 1 ∧
      branch.divide.2.children.length = branch.divide.2.separators.length + 1 := by
  simp only [divide, List.length_take, List.length_drop, matched]
  omega

/-- The regions of the halves are those of the branch. -/
theorem regions_divide (range : KeyRange) :
    branch.divide.1.regions (range.below branch.median) ++
        branch.divide.2.regions (range.above branch.median) = branch.regions range := by
  rw [regions, regions, regions, ← List.zip_append, ← cut_append, children_divide,
    separators_divide several]
  rw [length_cut, (matched_divide several matched).1]

end Divide

/-- The halves of a branch that has just become too large can both grow. -/
theorem canGrow_divide (matched : branch.children.length = branch.separators.length + 1)
    (large : Page.size < branch.size) (almost : branch.size ≤ Page.size + entrySize) :
    (254 ≤ branch.divide.1.separators.length ∧ branch.divide.1.canGrow = true) ∧
      254 ≤ branch.divide.2.separators.length ∧ branch.divide.2.canGrow = true := by
  have halves := matched_divide (several_separators matched large) matched
  rw [size_eq matched, Page.size] at large almost
  rw [entrySize] at almost
  have lower : branch.divide.1.separators.length = branch.separators.length / 2 := by
    simp only [divide, List.length_take]
    omega
  have upper : branch.divide.2.separators.length =
      branch.separators.length - (branch.separators.length / 2 + 1) := by
    simp only [divide, List.length_drop]
  rw [canGrow, canGrow, decide_eq_true_iff, decide_eq_true_iff, size_eq halves.1,
    size_eq halves.2, lower, upper, entrySize, Page.size]
  omega

end Branch

end RowStore
