import Mathlib.Data.List.Flatten
import RowStore.Proofs.Tree.Walks

/-!
# Trees in order

The check of a tree does not ask how many bytes a node takes, nor that there are no
other pages. `Ordered nodes height region` says what is left of a tree then: nodes
have one value for each key or one more child than separators, keys ascend within
the range that the separators above leave for them, children name the page above as
their parent, and all leaves are at one depth.

The cells of such a tree ascend from left to right (`Ordered.ascending`), and the way
down to the left ends at the first of its leaves (`Ordered.firstLeaf`).

The references from leaf to leaf need not lead from one leaf of the tree to the next.
`Passes` says what the check asks of them, beside an ordered tree: that the way along
them ends, at leaves only, and that the keys on it ascend.
-/

set_option autoImplicit false

namespace RowStore

open Store RowStore.Tree

/-- The pages from a page down form a tree of the given height, with keys in the given range. -/
inductive Ordered (nodes : Nodes) : Nat → Region → Prop where
  | leaf {region : Region} {leaf : Leaf} :
      nodes region.1 = .ok (.leaf leaf) → leaf.values.length = leaf.keys.length →
      region.2.Separates leaf.keys → Ordered nodes 1 region
  | branch {height : Nat} {region : Region} {branch : Branch} :
      nodes region.1 = .ok (.branch branch) →
      branch.children.length = branch.separators.length + 1 →
      region.2.Separates branch.separators →
      (∀ place ∈ branch.regions region.2, Hangs nodes (some region.1) place.1) →
      (∀ place ∈ branch.regions region.2, Ordered nodes height place) →
      Ordered nodes (height + 1) region

/-- The cells of the leaves from a page down, from left to right, within a number of levels. -/
def cellsBelow (nodes : Nodes) (height : Nat) (page : PageNumber) : List (Key × Bytes) :=
  (leavesBelow nodes height page).flatMap (cellsAt nodes)

/-- The keys on a page. -/
def keysAt (nodes : Nodes) (page : PageNumber) : List Key :=
  match nodes page with
  | .ok (.leaf leaf) => leaf.keys
  | _ => []

section Pages

variable {nodes : Nodes} {page : PageNumber}

theorem keysAt_leaf {leaf : Leaf} (found : nodes page = .ok (.leaf leaf)) :
    keysAt nodes page = leaf.keys := by
  simp only [keysAt, found]

/-- A value without a key of its own does not count as a cell, nor does a key without a value. -/
theorem map_fst_cellsAt (nodes : Nodes) (page : PageNumber) :
    ((cellsAt nodes page).map Prod.fst).Sublist (keysAt nodes page) := by
  unfold cellsAt
  split
  next leaf found =>
    rw [Leaf.cells, List.zip_eq_zip_take_min, List.map_fst_zip (by simp), keysAt_leaf found]
    exact List.take_sublist ..
  next => exact List.nil_sublist _

theorem leavesBelow_leaf {leaf : Leaf} (found : nodes page = .ok (.leaf leaf)) (height : Nat) :
    leavesBelow nodes (height + 1) page = [page] := by
  simp only [leavesBelow, found]

theorem leavesBelow_branch {branch : Branch} (found : nodes page = .ok (.branch branch))
    (matched : branch.children.length = branch.separators.length + 1) (height : Nat)
    (range : KeyRange) : leavesBelow nodes (height + 1) page =
      (branch.regions range).flatMap fun place => leavesBelow nodes height place.1 := by
  rw [← List.flatMap_map (f := Prod.fst), Branch.map_fst_regions matched]
  simp only [leavesBelow, found]

theorem cellsBelow_branch {branch : Branch} (found : nodes page = .ok (.branch branch))
    (matched : branch.children.length = branch.separators.length + 1) (height : Nat)
    (range : KeyRange) : cellsBelow nodes (height + 1) page =
      (branch.regions range).flatMap fun place => cellsBelow nodes height place.1 := by
  rw [cellsBelow, leavesBelow_branch found matched height range, List.flatMap_assoc]
  rfl

end Pages

namespace Ordered

variable {nodes : Nodes} {height : Nat} {region : Region}

theorem leaf_inv (ordered : Ordered nodes height region) {leaf : Leaf}
    (found : nodes region.1 = .ok (.leaf leaf)) :
    leaf.values.length = leaf.keys.length ∧ region.2.Separates leaf.keys := by
  cases ordered with
  | leaf present matched separates =>
    cases found.symm.trans present
    exact ⟨matched, separates⟩
  | branch present => cases found.symm.trans present

/-- What stands at and below a branch. -/
theorem branch_inv (ordered : Ordered nodes (height + 1) region) {branch : Branch}
    (found : nodes region.1 = .ok (.branch branch)) :
    branch.children.length = branch.separators.length + 1 ∧
      region.2.Separates branch.separators ∧
      (∀ place ∈ branch.regions region.2, Hangs nodes (some region.1) place.1) ∧
      ∀ place ∈ branch.regions region.2, Ordered nodes height place := by
  cases ordered with
  | leaf present => cases found.symm.trans present
  | branch present matched separates hang below =>
    cases found.symm.trans present
    exact ⟨matched, separates, hang, below⟩

/-- What stands at the bottom of an ordered tree are leaves, with ascending keys in its range. -/
theorem exists_leaf (ordered : Ordered nodes height region) :
    ∀ page ∈ leavesBelow nodes height region.1, ∃ leaf, nodes page = .ok (.leaf leaf) ∧
      region.2.Separates leaf.keys := by
  induction ordered with
  | @leaf region leaf found matched separates =>
    intro page member
    rw [leavesBelow_leaf found, List.mem_singleton] at member
    subst member
    exact ⟨leaf, found, separates⟩
  | @branch height region branch found matched separates hang below ih =>
    intro page member
    rw [leavesBelow_branch found matched height region.2] at member
    obtain ⟨place, inRegions, member⟩ := List.mem_flatMap.mp member
    obtain ⟨leaf, found, inPlace⟩ := ih place inRegions page member
    refine ⟨leaf, found, inPlace.ascending, fun key member => ?_⟩
    exact Branch.contains_of_mem_regions separates inRegions (inPlace.within key member)

/-- The cells of an ordered tree are in its range. -/
theorem within (ordered : Ordered nodes height region) :
    ∀ cell ∈ cellsBelow nodes height region.1, region.2.contains cell.1 = true := by
  intro cell member
  obtain ⟨page, below, inCells⟩ := List.mem_flatMap.mp member
  obtain ⟨leaf, found, separates⟩ := ordered.exists_leaf page below
  refine separates.within cell.1 ?_
  rw [← keysAt_leaf found]
  exact (map_fst_cellsAt nodes page).subset (List.mem_map_of_mem inCells)

/-- **The cells of an ordered tree ascend.** -/
theorem ascending (ordered : Ordered nodes height region) :
    (cellsBelow nodes height region.1).Pairwise fun first second => first.1 < second.1 := by
  induction ordered with
  | @leaf region leaf found matched separates =>
    have ascending := separates.ascending
    rw [← Leaf.map_fst_cells matched, List.pairwise_map] at ascending
    rw [cellsBelow, leavesBelow_leaf found, List.flatMap_singleton, cellsAt_leaf found]
    exact ascending
  | @branch height region branch found matched separates hang below ih =>
    rw [cellsBelow_branch found matched height region.2, List.pairwise_flatMap]
    refine ⟨ih, ?_⟩
    refine (Branch.pairwise_regions matched separates).imp_of_mem ?_
    intro first second inFirst inSecond order low inLow high inHigh
    exact order _ _ ((below first inFirst).within low inLow)
      ((below second inSecond).within high inHigh)

/-- The way down to the left ends at the first leaf. -/
theorem descend_head? {view : View} (ordered : Ordered view.nodes height region) {budget : Nat}
    (enough : height ≤ budget) :
    ∃ first rest, leavesBelow view.nodes height region.1 = first :: rest ∧
      Promises view (descendWithin (·.children.head?) budget region.1)
        (fun page after => page = first ∧ after = view) (fun _ _ => False) := by
  induction ordered generalizing budget with
  | @leaf region leaf found matched separates =>
    obtain ⟨budget, rfl⟩ : ∃ fewer, budget = fewer + 1 := ⟨budget - 1, by omega⟩
    exact ⟨region.1, [], leavesBelow_leaf found 0, .descendWithin_leaf found ⟨rfl, rfl⟩⟩
  | @branch height region branch found matched separates hang below ih =>
    obtain ⟨budget, rfl⟩ : ∃ fewer, budget = fewer + 1 := ⟨budget - 1, by omega⟩
    obtain ⟨place, others, listed, chosen⟩ := Branch.exists_first matched region.2
    have member : place ∈ branch.regions region.2 := listed ▸ List.mem_cons_self
    obtain ⟨first, rest, leaves, onwards⟩ := ih place member (Nat.le_of_succ_le_succ enough)
    refine ⟨first, rest ++ others.flatMap fun place => leavesBelow view.nodes height place.1, ?_,
      .descendWithin_branch found chosen onwards⟩
    rw [leavesBelow_branch found matched height region.2, listed, List.flatMap_cons, leaves]
    rfl

theorem firstLeaf {view : View} {root : PageNumber} {range : KeyRange}
    (ordered : Ordered view.nodes height (root, range)) (shallow : height ≤ view.pagesInUse) :
    ∃ first rest, leavesBelow view.nodes height root = first :: rest ∧
      Promises view (Tree.firstLeaf { root }) (fun page after => page = first ∧ after = view)
        (fun _ _ => False) := by
  obtain ⟨first, rest, leaves, descends⟩ := ordered.descend_head? shallow
  exact ⟨first, rest, leaves, .bind (.countPages descends)⟩

end Ordered

theorem Subtree.hangs {nodes : Nodes} {height : Nat} {parent : Option PageNumber}
    {region : Region} (subtree : Subtree nodes height parent region) :
    Hangs nodes parent region.1 := by
  cases subtree <;> assumption

/-- A well-shaped tree is ordered. -/
theorem Subtree.ordered {nodes : Nodes} {height : Nat} {parent : Option PageNumber}
    {region : Region} (subtree : Subtree nodes height parent region) :
    Ordered nodes height region := by
  induction subtree with
  | leaf hangs leafAt =>
    obtain ⟨leaf, found, fits⟩ := leafAt
    exact .leaf found fits.matched fits.separates
  | branch hangs found fits below ih =>
    exact .branch found fits.matched fits.separates
      (fun place member => (below place member).hangs) ih

/-- The leaves below the root of a tree with a layout are those of the row. -/
theorem leavesBelow_root {view : View} {root : PageNumber} {levels : Nat} {row : List Region}
    {above : List PageNumber} (layout : Layout view root levels row above) :
    leavesBelow view.nodes (1 + levels) root = row.map Prod.fst := by
  rw [layout.crown.leavesBelow_eq 1, List.map_eq_flatMap]
  refine List.flatMap_congr fun region member => ?_
  obtain ⟨leaf, found, -⟩ := layout.leaves region member
  exact leavesBelow_leaf found 0

/-! ## What the check asks for -/

/-- The tree below a root is ordered and has the given height, and the references from its first
leaf on lead along the given leaves, with ascending keys. There are no more levels, and no more
leaves on the way, than pages. This is what a check that finds nothing has seen. -/
structure Passes (view : View) (root : PageNumber) (height : Nat) (chain : List PageNumber) :
    Prop where
  hangs : Hangs view.nodes none root
  ordered : Ordered view.nodes height (root, {})
  shallow : height ≤ view.pagesInUse
  linked : Linked view.nodes (leavesBelow view.nodes height root).head? chain
  short : chain.length ≤ view.pagesInUse
  ascending : (chain.flatMap (keysAt view.nodes)).Pairwise (· < ·)

namespace Passes

variable {view : View} {root : PageNumber} {height : Nat} {chain : List PageNumber}

theorem firstLeaf (passes : Passes view root height chain) :
    ∃ first, Linked view.nodes (some first) chain ∧
      Promises view (Tree.firstLeaf { root }) (fun page after => page = first ∧ after = view)
        (fun _ _ => False) := by
  obtain ⟨first, rest, leaves, promise⟩ := passes.ordered.firstLeaf passes.shallow
  have linked := passes.linked
  rw [leaves, List.head?_cons] at linked
  exact ⟨first, linked, promise⟩

/-- The cells along the leaves ascend. -/
theorem ascending_cells (passes : Passes view root height chain) :
    (chain.flatMap (cellsAt view.nodes)).Pairwise fun first second => first.1 < second.1 := by
  rw [← List.pairwise_map (f := Prod.fst) (R := (· < ·)), List.map_flatMap]
  exact passes.ascending.sublist
    (.flatMap_right chain fun page _ => map_fst_cellsAt view.nodes page)

end Passes

/-- A tree with a layout is as the check asks. -/
theorem Layout.passes {view : View} {root : PageNumber} {levels : Nat} {row : List Region}
    {above : List PageNumber} (layout : Layout view root levels row above) :
    Passes view root (1 + levels) (row.map Prod.fst) where
  hangs := layout.crown.hangs_root
  ordered := (layout.crown.subtree fun region member _ hangs =>
    .leaf hangs (layout.leaves region member)).ordered
  shallow := Nat.add_comm 1 levels ▸ layout.levels_lt
  linked := by
    have linked := layout.linked
    rw [leavesBelow_root layout]
    cases row with
    | nil => exact absurd rfl layout.crown.row_ne_nil
    | cons region rest =>
      rw [show some 0 = some region.1 from linked.1] at linked
      exact linked
  short := by
    rw [List.length_map]
    exact Nat.le_trans (Nat.le_add_right ..) layout.length_le
  ascending := by
    have keys : (row.map Prod.fst).flatMap (keysAt view.nodes) =
        (cellsOf view.nodes row).map Prod.fst := by
      rw [cellsOf, List.map_flatMap, List.flatMap_map]
      refine List.flatMap_congr fun region member => ?_
      obtain ⟨leaf, found, fits⟩ := layout.leaves region member
      rw [keysAt_leaf found, cellsAt_leaf found, fits.map_fst_cells]
    rw [keys, List.pairwise_map]
    exact layout.ascending

end RowStore
