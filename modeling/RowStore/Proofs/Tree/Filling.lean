import Mathlib.Algebra.Order.BigOperators.Group.List
import Mathlib.Algebra.Order.Ring.Nat
import RowStore.Proofs.Tree.Room

/-!
# How full a tree is

A branch is cut when it has 510 separators and not before, so both halves have at least
254. Every row of branches therefore has at least 255 times as many regions as the row
above it, but for the first, which the root alone may make two (`Crown.fewestRegions_le`).

A leaf is cut when a cell more would not fit its page. If all values take the same
number of bytes, then its page has room for a certain number of cells, and the halves
have together one more than that (`Leaf.capacity`). Whatever is inserted afterwards, no
leaf loses a cell but by being cut again, so the halves stay at least that full
(`Entered.stocked`).
-/

set_option autoImplicit false

namespace RowStore

open Store

/-! ## How wide a row is -/

/-- How many regions a row has at least, with the given number of rows of branches above it. -/
def fewestRegions : Nat → Nat
  | 0 => 1
  | levels + 1 => fewestRegions levels * (fewestSeparators levels + 1)

theorem fewestRegions_succ (levels : Nat) : fewestRegions (levels + 1) = 2 * 255 ^ levels := by
  induction levels with
  | zero => rfl
  | succ levels ih => rw [fewestRegions, ih, fewestSeparators, Nat.pow_succ, Nat.mul_assoc]

theorem BranchAt.fewest_lt {nodes : Nodes} {fewest : Nat} {region : Region}
    (branchAt : BranchAt nodes fewest region) :
    fewest + 1 ≤ (regionsBelow nodes region).length := by
  obtain ⟨branch, found, fits, several, -⟩ := branchAt
  have count := congrArg List.length fits.map_fst_regions
  rw [List.length_map, fits.matched] at count
  rw [regionsBelow_branch found, count]
  exact Nat.succ_le_succ several

theorem Branch.Fits.separators_le {branch : Branch} {range : KeyRange}
    (fits : branch.Fits range) : branch.separators.length ≤ 509 := by
  have small := fits.small
  rw [Branch.size_eq fits.matched, Page.size] at small
  omega

namespace Crown

variable {nodes : Nodes} {root : PageNumber} {levels : Nat} {row : List Region}
  {above : List PageNumber}

/-- **A row has at least 255 times as many regions as the row above it, but for the first two.** -/
theorem fewestRegions_le (crown : Crown nodes root levels row above) :
    fewestRegions levels ≤ row.length := by
  induction crown with
  | root => exact Nat.le_refl _
  | @row levels upper row above crown branches parts ih =>
    have each : ∀ count ∈ upper.map fun region => (regionsBelow nodes region).length,
        fewestSeparators levels + 1 ≤ count := by
      intro count member
      obtain ⟨region, inUpper, rfl⟩ := List.mem_map.mp member
      exact (branches region inUpper).fewest_lt
    have wide := List.card_nsmul_le_sum _ _ each
    rw [List.length_map, nsmul_eq_mul] at wide
    rw [parts, List.length_flatMap, fewestRegions]
    exact (Nat.mul_le_mul_right _ ih).trans wide

/-- The branches below the root have at least 254 separators. -/
theorem exists_branch (crown : Crown nodes root levels row above) :
    ∀ page ∈ above, ∃ range branch, nodes page = .ok (.branch branch) ∧ branch.Fits range ∧
      1 ≤ branch.separators.length ∧ (page ≠ root → 254 ≤ branch.separators.length) := by
  induction crown with
  | root =>
    intro page member
    cases member
  | @row levels upper row above crown branches parts ih =>
    intro page member
    rcases List.mem_append.mp member with here | higher
    · obtain ⟨region, inUpper, rfl⟩ := List.mem_map.mp here
      obtain ⟨branch, found, fits, several, -⟩ := branches region inUpper
      refine ⟨region.2, branch, found, fits, ?_⟩
      cases levels with
      | zero =>
        cases crown
        rw [List.mem_singleton.mp inUpper]
        exact ⟨several, fun below => absurd rfl below⟩
      | succ levels =>
        have several : 254 ≤ branch.separators.length := several
        exact ⟨Nat.le_trans (by decide) several, fun _ => several⟩
    · exact ih page higher

end Crown

/-! ## How many cells a leaf has -/

namespace Leaf

variable {leaf : Leaf} {length : Nat}

/-- How many cells with values of the given length a page has room for. -/
def capacity (length : Nat) : Nat := (Page.size - headerSize) / (cellFixedSize + length)

theorem length_cells (matched : leaf.values.length = leaf.keys.length) :
    leaf.cells.length = leaf.keys.length := by
  rw [← map_fst_cells matched, List.length_map]

theorem map_snd_cells (matched : leaf.values.length = leaf.keys.length) :
    leaf.cells.map Prod.snd = leaf.values :=
  List.map_snd_zip (Nat.le_of_eq matched)

theorem length_cells_insert (matched : leaf.values.length = leaf.keys.length) (key : Key)
    (value : Bytes) : (leaf.insert key value).cells.length = leaf.cells.length + 1 :=
  (cells_insert_perm matched key value).length_eq

/-- The lower half of a leaf has half of its cells, rounded down. -/
theorem length_cells_divide (matched : leaf.values.length = leaf.keys.length)
    (page : PageNumber) :
    (leaf.divide page).1.cells.length = leaf.cells.length / 2 ∧
      (leaf.divide page).2.cells.length = leaf.cells.length - leaf.cells.length / 2 := by
  have together := congrArg List.length (cells_divide matched page)
  have lower : (leaf.divide page).1.cells.length = leaf.cells.length / 2 := by
    rw [length_cells matched, length_cells (matched_divide matched page).1,
      (length_divide matched page).1]
  rw [List.length_append] at together
  omega

theorem cellsSize_of_even {lengths : List Nat} (even : ∀ other ∈ lengths, other = length) :
    cellsSize lengths = lengths.length * (cellFixedSize + length) := by
  induction lengths with
  | nil => simp [cellsSize]
  | cons first lengths ih =>
    rw [List.forall_mem_cons] at even
    obtain ⟨rfl, even⟩ := even
    rw [cellsSize, ih even, List.length_cons, Nat.succ_mul, Nat.add_comm]

/-- With values of one length, a leaf fits a page exactly if the page has room for its cells. -/
theorem size_le_iff (matched : leaf.values.length = leaf.keys.length)
    (even : ∀ cell ∈ leaf.cells, cell.2.length = length) :
    leaf.size ≤ Page.size ↔ leaf.cells.length ≤ capacity length := by
  have lengths : leaf.values.map List.length =
      leaf.cells.map fun cell => cell.2.length := by
    rw [← map_snd_cells matched, List.map_map]
    rfl
  have same : ∀ other ∈ leaf.values.map List.length, other = length := by
    rw [lengths, List.forall_mem_map]
    exact even
  rw [size, cellsSize_of_even same, lengths, List.length_map, capacity,
    Nat.le_div_iff_mul_le (by rw [cellFixedSize]; omega)]
  simp only [Page.size, headerSize]
  omega

section Even

variable (matched : leaf.values.length = leaf.keys.length)
  (even : ∀ cell ∈ leaf.cells, cell.2.length = length) {value : Bytes}
  (alike : value.length = length)
include matched even alike

theorem even_insert (key : Key) : ∀ cell ∈ (leaf.insert key value).cells,
    cell.2.length = length := by
  intro cell member
  rcases List.mem_cons.mp ((cells_insert_perm matched key value).mem_iff.mp member) with rfl | old
  · exact alike
  · exact even cell old

/-- A leaf without room for one more cell has as many as a page has room for. -/
theorem capacity_le_of_full (full : leaf.hasRoomFor value.length ≠ true) :
    capacity length ≤ leaf.cells.length := by
  have beyond := mt (hasRoomFor_iff matched 0 value).mpr full
  rw [size_le_iff (matched_insert matched 0 value) (even_insert matched even alike 0),
    length_cells_insert matched] at beyond
  omega

/-- **A full leaf of values of one length can be cut**, wherever one more of them belongs: a page
has room for the cells that were there, and a half has no more than these. -/
theorem canDivideAt_of_even (small : leaf.size ≤ Page.size) (key : Key)
    (ordinary : value.length ≤ maxValueLength) (full : leaf.hasRoomFor value.length ≠ true) :
    leaf.canDivideAt (leaf.position key) value.length = true := by
  have few := (size_le_iff matched even).mp small
  have nonempty : 1 ≤ leaf.cells.length := by
    rw [length_cells matched]
    exact List.length_pos_iff.mpr (keys_ne_nil_of_not_hasRoomFor matched full ordinary)
  have matched' := matched_insert matched key value
  have even' := even_insert matched even alike key
  have parts := cells_divide matched' 0
  obtain ⟨lower, upper⟩ := length_cells_divide matched' 0
  rw [length_cells_insert matched] at lower upper
  rw [← parts, List.forall_mem_append] at even'
  -- The leaf had a cell, so with one more each half has at most as many cells as the leaf had.
  obtain ⟨lowerMatched, upperMatched⟩ := matched_divide matched' 0
  refine (canDivideAt_iff matched key value 0).mpr ⟨?_, ?_⟩
  · exact (size_le_iff lowerMatched even'.1).mpr (by omega)
  · exact (size_le_iff upperMatched even'.2).mpr (by omega)

end Even

end Leaf

/-! ## What an insertion leaves in each leaf -/

/-- Every leaf but the root has at least the given number of cells. -/
def Stocked (nodes : Nodes) (root : PageNumber) (fewest : Nat) : Prop :=
  ∀ page leaf, nodes page = .ok (.leaf leaf) → page ≠ root → fewest ≤ leaf.cells.length

/-- The root is a leaf only if it is the whole row. -/
theorem Layout.stocked_iff {view : View} {root : PageNumber} {levels : Nat} {row : List Region}
    {above : List PageNumber} (layout : Layout view root levels row above)
    (closed : view.Closed) (fewest : Nat) :
    Stocked view.nodes root fewest ↔
      (levels = 0 ∨ ∀ region ∈ row, fewest ≤ (cellsAt view.nodes region.1).length) := by
  constructor
  · intro stocked
    refine or_iff_not_imp_left.mpr fun several region inRow => ?_
    obtain ⟨leaf, found, -⟩ := layout.leaves region inRow
    rw [cellsAt_leaf found]
    refine stocked region.1 leaf found fun isRoot => ?_
    have higher := layout.crown.root_mem.2 several
    refine (List.nodup_append'.mp layout.distinct).2.2 ?_ higher
    exact isRoot ▸ List.mem_map_of_mem inRow
  · intro stocked page leaf found below
    rcases List.mem_append.mp ((layout.complete page).mpr (closed page _ found)) with
      inRow | higher
    · obtain ⟨region, listed, rfl⟩ := List.mem_map.mp inRow
      rcases stocked with rfl | stocked
      · cases layout.crown
        exact absurd (congrArg Prod.fst (List.mem_singleton.mp listed)) below
      · rw [← cellsAt_leaf found]
        exact stocked region listed
    · obtain ⟨range, branch, present, -⟩ := layout.crown.exists_branch page higher
      cases found.symm.trans present

section Step

variable {before after : View} {root : PageNumber} {levels levels' : Nat}
  {front back row : List Region} {region : Region} {above : List PageNumber} {leaf : Leaf}
  {key : Key} {value : Bytes} {fewest : Nat}

/-- **An insertion leaves the leaves as full as they were**, if the halves of the leaf that it
cuts are full enough. -/
theorem Entered.stocked
    (entered : Entered before after levels front region back leaf key value levels' row)
    (layout : Layout before root levels (front ++ region :: back) above)
    (found : before.nodes region.1 = .ok (.leaf leaf))
    (stocked : levels = 0 ∨ ∀ place ∈ front ++ region :: back,
      fewest ≤ (cellsAt before.nodes place.1).length)
    (half : leaf.hasRoomFor value.length ≠ true → fewest ≤ (leaf.cells.length + 1) / 2) :
    levels' = 0 ∨ ∀ place ∈ row, fewest ≤ (cellsAt after.nodes place.1).length := by
  have matched := (layout.fits_of_mem (by simp) found).matched
  cases entered with
  | whole _ here others =>
    refine stocked.imp_right fun stocked place member => ?_
    rcases mem_row_iff.mp member with rfl | other
    · have old := stocked place member
      rw [cellsAt_leaf found] at old
      rw [here, Leaf.length_cells_insert matched]
      exact Nat.le_succ_of_le old
    · rw [others place other]
      exact stocked place member
  | @halves _ separator upper full _ _ _ atLower atUpper others =>
    obtain ⟨lowerCount, upperCount⟩ :=
      Leaf.length_cells_divide (Leaf.matched_insert matched key value) upper
    have enough := half full
    rw [Leaf.length_cells_insert matched] at lowerCount upperCount
    refine .inr fun place member => ?_
    rcases mem_cutRow.mp member with other | rfl | rfl
    · rw [others place other]
      -- Without branches, the leaf that was cut is the whole row, and there is no other.
      refine stocked.resolve_left ?_ place (mem_row_iff.mpr (.inr other))
      rintro rfl
      cases layout.crown.fewest_of_other other
    · rw [atLower, lowerCount]
      exact enough
    · rw [atUpper, upperCount]
      omega

end Step

namespace Tree

section Steps

variable {tree : Tree} {view : View} {cells : List (Key × Bytes)} {fewest : Nat}

/-- In a tree without a cell, the root is the only leaf. -/
theorem Holds.stocked_of_nil (holds : tree.Holds view []) :
    Stocked view.nodes tree.root fewest := by
  obtain ⟨regular, levels, row, above, layout, listed⟩ := holds
  refine (layout.stocked_iff regular.closed fewest).mpr (.inl ?_)
  refine layout.filled.resolve_right fun filled => ?_
  obtain ⟨region, inRow⟩ := List.exists_mem_of_ne_nil row layout.crown.row_ne_nil
  exact filled region inRow (List.flatMap_eq_nil_iff.mp listed.eq_nil region inRow)

theorem Holds.insert_stocked (holds : tree.Holds view cells)
    (stocked : Stocked view.nodes tree.root fewest) (key : Key) {value : Bytes}
    (half : ∀ page leaf, view.nodes page = .ok (.leaf leaf) →
      leaf.hasRoomFor value.length ≠ true → fewest ≤ (leaf.cells.length + 1) / 2) :
    Promises view (tree.insert key value) (fun tree' after => Stocked after.nodes tree'.root fewest)
      (fun _ after => after = view) := by
  obtain ⟨regular, levels, row, above, layout, -⟩ := holds
  obtain ⟨front, region, back, leaf, rfl, found, fits, has, search⟩ := layout.exists_leafFor key
  refine (layout.insert regular found has search).weaken ?_ fun _ _ refused => refused.1
  rintro tree' after ⟨-, -, grown⟩
  obtain ⟨levels', row', above', layout', entered⟩ := grown.layout
  rw [layout'.stocked_iff grown.regular.closed]
  refine entered.stocked layout found ?_ (half region.1 leaf found)
  exact (layout.stocked_iff regular.closed fewest).mp stocked

end Steps

variable {most : Nat} {tree : Tree} {store : Store} {accepted : List (Key × Bytes)}

/-- **With values of one length, every leaf but the root is at least half full.** -/
theorem Reached.stocked (reached : Reached most tree store accepted) {length : Nat}
    (even : ∀ cell ∈ accepted, cell.2.length = length) :
    Stocked store.view.nodes tree.root ((Leaf.capacity length + 1) / 2) := by
  induction reached with
  | create within opens creates =>
    exact (Reached.create within opens creates).holds.stocked_of_nil
  | @inserted tree tree' store after cells key value reached inserts ih =>
    obtain ⟨alike, even⟩ := List.forall_mem_cons.mp even
    refine (reached.holds.insert_stocked (ih even) key fun page leaf found full => ?_).of_ok inserts
    obtain ⟨matched, within⟩ := reached.holds.mem_of_leaf found
    have filled :=
      Leaf.capacity_le_of_full matched (fun cell member => even cell (within cell member))
      alike full
    omega
  | refused reached refuses ih =>
    rw [((reached.holds.insert _ _).of_error refuses).1]
    exact ih even
  -- Saving and opening again keep the nodes, so they keep what is in the leaves.
  | @saved tree store after cells header reached saves ih =>
    obtain ⟨saved, run, -, same, -⟩ := reached.holds.flush header
    cases saves.symm.trans run
    have nodes : after.view.nodes = store.view.nodes := same.nodes
    rw [nodes]
    exact ih even
  | @reopened tree store after opened walked cells header limit root reached saves small within
      opens climbs ih =>
    obtain ⟨saved, run, standing, same, -, reopen⟩ := reached.holds.flush header
    cases saves.symm.trans run
    have small : after.pagesInUse ≤ largestLimit :=
      same.pages ▸ Nat.le_trans reached.bounded.pages small
    obtain ⟨opened', run', holds, found⟩ :=
      reopen (length_contents_lt standing.regular small) limit
    cases opens.symm.trans run'
    obtain ⟨rfl, still⟩ := holds.rootAbove_first.of_ok climbs
    have nodes : opened.view.nodes = store.view.nodes := found.nodes.nodes.trans same.nodes
    rw [still, nodes]
    exact ih even

/-! ## A filled tree -/

/-- Every leaf but the root has a cell, every branch but the root has 254 to 509 separators, a tree
with several levels has many leaves, and with values of one length every leaf but the root is at
least half full. -/
structure IsFilled (tree : Tree) (store : Store) (accepted : List (Key × Bytes)) : Prop where
  leaves : ∀ id leaf, store.peek id = .ok (.leaf leaf) → id ≠ tree.root → leaf.cells ≠ []
  root : ∀ branch, store.peek tree.root = .ok (.branch branch) →
    1 ≤ branch.separators.length ∧ branch.separators.length ≤ 509
  branches : ∀ id branch, store.peek id = .ok (.branch branch) → id ≠ tree.root →
    254 ≤ branch.separators.length ∧ branch.separators.length ≤ 509
  many : ∃ height, answer tree.height store = .ok height ∧
    Subtree store.peek height none (tree.root, {}) ∧
    (leavesBelow store.peek height tree.root).Nodup ∧
    (∀ id ∈ leavesBelow store.peek height tree.root, ∃ leaf, store.peek id = .ok (.leaf leaf)) ∧
    (2 ≤ height → 2 * 255 ^ (height - 2) ≤ (leavesBelow store.peek height tree.root).length)
  even : ∀ length, (∀ cell ∈ accepted, cell.2.length = length) →
    ∀ id leaf, store.peek id = .ok (.leaf leaf) →
      leaf.cells.length ≤ 4082 / (8 + length) ∧
        (id ≠ tree.root → (4082 / (8 + length) + 1) / 2 ≤ leaf.cells.length)

/-- **A tree that a run has reached is filled.** -/
theorem Reached.isFilled (reached : Reached most tree store accepted) :
    IsFilled tree store accepted := by
  obtain ⟨regular, levels, row, above, layout, -⟩ := reached.holds
  have listed : leavesBelow store.peek (levels + 1) tree.root = row.map Prod.fst := by
    rw [Nat.add_comm]
    exact leavesBelow_root layout
  have branches : ∀ id branch, store.peek id = .ok (.branch branch) →
      1 ≤ branch.separators.length ∧ branch.separators.length ≤ 509 ∧
        (id ≠ tree.root → 254 ≤ branch.separators.length) := by
    intro id branch found
    rcases List.mem_append.mp ((layout.complete id).mpr (regular.closed id _ found)) with
      inRow | higher
    · obtain ⟨region, member, rfl⟩ := List.mem_map.mp inRow
      obtain ⟨leaf, present, -⟩ := layout.leaves region member
      cases found.symm.trans present
    · obtain ⟨range, other, present, fits, several, below⟩ := layout.crown.exists_branch id higher
      cases found.symm.trans present
      exact ⟨several, fits.separators_le, below⟩
  refine ⟨fun id leaf found below => ?_, fun branch found => ?_, fun id branch found below => ?_,
    ⟨levels + 1, layout.height.answer_eq_ok, ?_, ?_, ?_, fun several => ?_⟩,
    fun length even id leaf found => ⟨?_, fun below => reached.stocked even id leaf found below⟩⟩
  · have stocked : Stocked store.view.nodes tree.root 1 :=
      (layout.stocked_iff regular.closed 1).mpr <|
        layout.filled.imp_right fun filled region inRow =>
          List.length_pos_iff.mpr (filled region inRow)
    exact List.length_pos_iff.mp (stocked id leaf found below)
  · obtain ⟨several, few, -⟩ := branches tree.root branch found
    exact ⟨several, few⟩
  · obtain ⟨-, few, many⟩ := branches id branch found
    exact ⟨many below, few⟩
  · rw [Nat.add_comm]
    exact layout.crown.subtree fun region member parent hangs =>
      .leaf hangs (layout.leaves region member)
  · rw [listed]
    exact (List.nodup_append'.mp layout.distinct).1
  · intro id member
    rw [listed] at member
    obtain ⟨region, inRow, rfl⟩ := List.mem_map.mp member
    obtain ⟨leaf, found, -⟩ := layout.leaves region inRow
    exact ⟨leaf, found⟩
  · obtain ⟨fewer, rfl⟩ : ∃ fewer, levels = fewer + 1 := ⟨levels - 1, by omega⟩
    have wide := layout.crown.fewestRegions_le
    rw [fewestRegions_succ] at wide
    rw [listed, List.length_map]
    exact wide
  · obtain ⟨matched, within⟩ := reached.holds.mem_of_leaf found
    have small := (layout.sound regular.closed id _ found).2
    exact (Leaf.size_le_iff matched fun cell member => even cell (within cell member)).mp small

theorem isFilled_cut : IsFilled { root := 2 } cutStore cutRows :=
  Reached.isFilled reached_cut

end Tree

end RowStore
