import RowStore.Proofs.Tree.Attach
import RowStore.Proofs.Tree.Refusal

/-!
# Insertion into a well-shaped tree

The leaf where a key belongs decides what an insertion does to a tree with a layout
(`Layout.insert`). The leaf takes the cell, or is cut in two to take it and its upper
half entered above (`Entered`); or it declines the cell, and then nothing has changed
(`Declined`). The branches above may change, but every other leaf keeps what it holds
and which leaf it leads to.

So an insertion is refused and changes nothing, or leaves a tree whose cells are
those before and the new one (`Tree.Holds.insert`). A key that the tree has is always
refused, and no other key is refused for being there.
-/

set_option autoImplicit false

namespace RowStore

open Store RowStore.Tree

/-! ## Leaves under changes above them -/

/-- A leaf is the same leaf with another parent. -/
theorem LeafAt.of_detached {nodes nodes' : Nodes} {region : Region} (leafAt : LeafAt nodes region)
    (same : (nodes' region.1).map Node.detached = (nodes region.1).map Node.detached) :
    LeafAt nodes' region ∧ cellsAt nodes' region.1 = cellsAt nodes region.1 := by
  obtain ⟨leaf, found, matched, separates, small⟩ := leafAt
  obtain ⟨other, found', -, keys, values⟩ := Node.exists_leaf_of_detached same found
  refine ⟨⟨other, found', ?_, ?_, ?_⟩, ?_⟩
  · rw [keys, values]
    exact matched
  · rw [keys]
    exact separates
  · rw [Leaf.size, values]
    exact small
  · rw [cellsAt_leaf found', cellsAt_leaf found, Leaf.cells, Leaf.cells, keys, values]

theorem Linked.of_next {nodes nodes' : Nodes} {start : Option PageNumber}
    {pages : List PageNumber} (linked : Linked nodes start pages)
    (same : ∀ page ∈ pages, ∀ leaf, nodes page = .ok (.leaf leaf) →
      ∃ other, nodes' page = .ok (.leaf other) ∧ other.next = leaf.next) :
    Linked nodes' start pages := by
  induction pages generalizing start with
  | nil => exact linked
  | cons page pages ih =>
    obtain ⟨rfl, leaf, found, linked⟩ := linked
    obtain ⟨other, found', next⟩ := same page List.mem_cons_self leaf found
    refine ⟨rfl, other, found', next ▸ ih linked fun later member => ?_⟩
    exact same later (List.mem_cons_of_mem _ member)

/-- A page after a leaf takes over where the leaf led to. -/
theorem Linked.insert {nodes nodes' : Nodes} {start : Option PageNumber} {id fresh : PageNumber}
    {front back : List PageNumber} {leaf lower upper : Leaf}
    (linked : Linked nodes start (front ++ id :: back)) (found : nodes id = .ok (.leaf leaf))
    (lowerFound : nodes' id = .ok (.leaf lower)) (lowerNext : lower.next = some fresh)
    (upperFound : nodes' fresh = .ok (.leaf upper)) (upperNext : upper.next = leaf.next)
    (same : ∀ page ∈ front ++ back, nodes' page = nodes page) :
    Linked nodes' start (front ++ id :: fresh :: back) := by
  induction front generalizing start with
  | nil =>
    obtain ⟨rfl, other, present, linked⟩ := linked
    cases found.symm.trans present
    refine ⟨rfl, lower, lowerFound, lowerNext, upper, upperFound, upperNext ▸ ?_⟩
    exact linked.of_next fun page member leaf there =>
      ⟨leaf, (same page member).trans there, rfl⟩
  | cons page front ih =>
    obtain ⟨rfl, leaf, there, linked⟩ := linked
    refine ⟨rfl, leaf, (same page List.mem_cons_self).trans there, ih linked fun later member => ?_⟩
    exact same later (List.mem_cons_of_mem _ member)

/-- Leaves with cells, linked one after the other from the first page on. -/
structure LeafRow (nodes : Nodes) (row : List Region) : Prop where
  leaves : ∀ region ∈ row, LeafAt nodes region
  filled : ∀ region ∈ row, cellsAt nodes region.1 ≠ []
  linked : Linked nodes (some 0) (row.map Prod.fst)

theorem LeafRow.of_detached {nodes nodes' : Nodes} {row : List Region} (leafRow : LeafRow nodes row)
    (same : ∀ page ∈ row.map Prod.fst,
      (nodes' page).map Node.detached = (nodes page).map Node.detached) :
    LeafRow nodes' row ∧ ∀ region ∈ row, cellsAt nodes' region.1 = cellsAt nodes region.1 := by
  have leaves := fun region member => (leafRow.leaves region member).of_detached
    (same region.1 (List.mem_map_of_mem member))
  refine ⟨⟨fun region member => (leaves region member).1, fun region member => ?_, ?_⟩,
    fun region member => (leaves region member).2⟩
  · rw [(leaves region member).2]
    exact leafRow.filled region member
  · refine leafRow.linked.of_next fun page member leaf found => ?_
    obtain ⟨other, found', next, -⟩ := Node.exists_leaf_of_detached (same page member) found
    exact ⟨other, found', next⟩

/-! ## A leaf that changes -/

section Change

variable {view : View} {root : PageNumber} {levels : Nat} {front back : List Region}
  {region : Region} {above : List PageNumber} {leaf : Leaf} {nodes' : Nodes}

variable (layout : Layout view root levels (front ++ region :: back) above)
  (found : view.nodes region.1 = .ok (.leaf leaf))
include layout

theorem Layout.ne_region {place : Region} (other : place ∈ front ++ back) : place.1 ≠ region.1 := by
  intro same
  refine not_mem_others layout.distinct (List.mem_append_left _ ?_)
  exact same ▸ List.mem_map_of_mem other

/-- A leaf beside the one that changes. -/
theorem Layout.other_put (grown : Leaf) {place : Region} (other : place ∈ front ++ back) :
    LeafAt (view.put region.1 (.leaf grown)).nodes place ∧
      cellsAt (view.put region.1 (.leaf grown)).nodes place.1 = cellsAt view.nodes place.1 := by
  refine (layout.leaves place (mem_row_iff.mpr (.inr other))).of_detached ?_
  rw [View.nodes_put_of_ne _ (layout.ne_region other)]

include found

/-- The crown sees only where the leaf hangs. -/
theorem Layout.crown_of {lower : Leaf} (parent : lower.parent = leaf.parent)
    (rootMark : lower.rootMark = leaf.rootMark) (lowerFound : nodes' region.1 = .ok (.leaf lower))
    (still : ∀ page, page.toNat < view.pagesInUse → page ≠ region.1 →
      nodes' page = view.nodes page) :
    Crown nodes' root levels (front ++ region :: back) above := by
  refine layout.crown.congr_except (fun higher : region.1 ∈ above => ?_)
    (fun page listed notHere => still page ((layout.complete page).mp listed) notHere) ?_
  · exact not_mem_others layout.distinct (List.mem_append_right _ higher)
  · rintro above ⟨other, present, hung, marked⟩
    cases found.symm.trans present
    exact ⟨_, lowerFound, parent.trans hung, rootMark.trans marked⟩

/-- A leaf can be replaced by one that fits in its place and leads on to the same leaf. -/
theorem Layout.put {grown : Leaf} (fits : grown.Fits region.2) (filled : grown.cells ≠ [])
    (parent : grown.parent = leaf.parent) (rootMark : grown.rootMark = leaf.rootMark)
    (next : grown.next = leaf.next) :
    Layout (view.put region.1 (.leaf grown)) root levels (front ++ region :: back) above := by
  have atRegion : (view.put region.1 (.leaf grown)).nodes region.1 = .ok (.leaf grown) :=
    View.nodes_put_self ..
  refine ⟨layout.crown_of found parent rootMark atRegion fun page _ notHere =>
    View.nodes_put_of_ne _ notHere, fun place member => ?_, layout.filled.imp_right ?_, ?_,
    layout.distinct, layout.complete⟩
  · rcases mem_row_iff.mp member with rfl | other
    · exact ⟨grown, atRegion, fits⟩
    · exact (layout.other_put grown other).1
  · intro nonempty place member
    rcases mem_row_iff.mp member with rfl | other
    · rw [cellsAt_leaf atRegion]
      exact filled
    · rw [(layout.other_put grown other).2]
      exact nonempty place member
  · refine layout.linked.of_next fun page member other there => ?_
    by_cases here : page = region.1
    · subst here
      cases found.symm.trans there
      exact ⟨grown, atRegion, next⟩
    · exact ⟨other, (View.nodes_put_of_ne _ here).trans there, rfl⟩

section Split

variable {lower upper : Leaf} {separator : Key} (room : view.pagesInUse < view.limit.toNat)
include room

omit found in
theorem Layout.nodes_split_other {place : Region} (other : place ∈ front ++ back) :
    (view.split region.1 (.leaf lower) (.leaf upper)).nodes place.1 = view.nodes place.1 := by
  have inRow : place ∈ front ++ region :: back := mem_row_iff.mpr (.inr other)
  have listed := List.mem_append_left above (List.mem_map_of_mem (f := Prod.fst) inRow)
  exact View.nodes_split_of_ne (layout.ne_region other)
    (View.ne_fresh room ((layout.complete _).mp listed))

omit found in
theorem Layout.cellsAt_split_other {place : Region} (other : place ∈ front ++ back) :
    cellsAt (view.split region.1 (.leaf lower) (.leaf upper)).nodes place.1 =
      cellsAt view.nodes place.1 := by
  rw [cellsAt, layout.nodes_split_other room other, ← cellsAt]

/-- The upper half of a leaf that is cut in two waits to be entered. -/
theorem Layout.pending_split (regular : view.Regular) (parent : lower.parent = leaf.parent)
    (rootMark : lower.rootMark = leaf.rootMark) (unmarked : upper.rootMark = false) :
    Pending (view.split region.1 (.leaf lower) (.leaf upper)) root levels
      (front ++ region :: back) above view.fresh where
  regular := regular.split room found
  crown := layout.crown_of found parent rootMark View.nodes_split_self fun _ inUse notRegion =>
    View.nodes_split_of_ne notRegion (View.ne_fresh room inUse)
  distinct := layout.distinct
  apart listed := View.ne_fresh room ((layout.complete _).mp listed) rfl
  unmarked := by
    have apart : region.1 ≠ view.fresh := View.ne_fresh room ((layout.complete _).mp (by simp))
    exact ⟨_, View.nodes_split_fresh apart, unmarked⟩

/-- The lower half of a leaf hangs where the leaf did, and cuts above it take as many pages. -/
theorem Layout.counted_split (parent : lower.parent = leaf.parent)
    (rootMark : lower.rootMark = leaf.rootMark) {needed : Nat}
    (counted : PagesAbove view.nodes leaf.parent needed) :
    Hangs (view.split region.1 (.leaf lower) (.leaf upper)).nodes leaf.parent region.1 ∧
      PagesAbove (view.split region.1 (.leaf lower) (.leaf upper)).nodes leaf.parent needed := by
  have inRow : region ∈ front ++ region :: back := by simp
  obtain ⟨_, _, present, rfl, marked⟩ := layout.crown.hangs region inRow
  cases found.symm.trans present
  refine ⟨⟨_, View.nodes_split_self, parent, rootMark.trans marked⟩,
    layout.crown.pagesAbove_congr inRow ⟨_, found, rfl, marked⟩ ?_ counted⟩
  intro page listed
  have inUse := (layout.complete page).mp (List.mem_append_right _ listed)
  refine View.nodes_split_of_ne ?_ (View.ne_fresh room inUse)
  rintro rfl
  exact not_mem_others layout.distinct (List.mem_append_right _ listed)

/-- The halves of a leaf that is cut in two are leaves of the row. -/
theorem Layout.leafRow_split (lowerFits : lower.Fits (region.2.below separator))
    (upperFits : upper.Fits (region.2.above separator)) (lowerFilled : lower.cells ≠ [])
    (upperFilled : upper.cells ≠ []) (lowerNext : lower.next = some view.fresh)
    (upperNext : upper.next = leaf.next) :
    LeafRow (view.split region.1 (.leaf lower) (.leaf upper)).nodes
      (cutRow front region separator view.fresh back) := by
  have apart : region.1 ≠ view.fresh := View.ne_fresh room ((layout.complete _).mp (by simp))
  have atLower : (view.split region.1 (.leaf lower) (.leaf upper)).nodes region.1 =
      .ok (.leaf lower) := View.nodes_split_self
  have atUpper : (view.split region.1 (.leaf lower) (.leaf upper)).nodes view.fresh =
      .ok (.leaf upper) := View.nodes_split_fresh apart
  refine ⟨?_, ?_, ?_⟩
  · intro place member
    rcases mem_cutRow.mp member with other | rfl | rfl
    · refine ((layout.leaves place (mem_row_iff.mpr (.inr other))).of_detached ?_).1
      rw [layout.nodes_split_other room other]
    · exact ⟨lower, atLower, lowerFits⟩
    · exact ⟨upper, atUpper, upperFits⟩
  · intro place member
    rcases mem_cutRow.mp member with other | rfl | rfl
    · have many := layout.crown.fewest_of_other other
      rw [layout.cellsAt_split_other room other]
      refine layout.filled.resolve_left ?_ place (mem_row_iff.mpr (.inr other))
      rintro rfl
      cases many
    · rw [cellsAt_leaf atLower]
      exact lowerFilled
    · rw [cellsAt_leaf atUpper]
      exact upperFilled
  · have linked := layout.linked
    rw [List.map_append, List.map_cons] at linked
    rw [cutRow, List.map_append, List.map_cons, List.map_cons]
    refine linked.insert found atLower lowerNext atUpper upperNext fun page other => ?_
    rw [← List.map_append] at other
    obtain ⟨place, listed, rfl⟩ := List.mem_map.mp other
    exact layout.nodes_split_other room listed

omit found in
/-- What comes out once the upper half is entered. -/
theorem Layout.of_changedAbove {after : View} {root' : PageNumber} {levels' : Nat}
    {above' : List PageNumber}
    (leafRow : LeafRow (view.split region.1 (.leaf lower) (.leaf upper)).nodes
      (cutRow front region separator view.fresh back))
    (crown : Crown after.nodes root' levels' (cutRow front region separator view.fresh back) above')
    (change : ChangedAbove (view.split region.1 (.leaf lower) (.leaf upper)) after
      (cutRow front region separator view.fresh back) above above') :
    Layout after root' levels' (cutRow front region separator view.fresh back) above' ∧
      ∀ place ∈ cutRow front region separator view.fresh back, cellsAt after.nodes place.1 =
        cellsAt (view.split region.1 (.leaf lower) (.leaf upper)).nodes place.1 := by
  have moved := fun page =>
    (map_fst_cutRow_perm front back region separator view.fresh).mem_iff (a := page)
  have isFresh : ∀ page, page = view.fresh ↔ page.toNat = view.pagesInUse := by
    intro page
    rw [← UInt32.toNat_inj, View.toNat_fresh room]
  have pages : (view.split region.1 (.leaf lower) (.leaf upper)).pagesInUse =
      view.pagesInUse + 1 := rfl
  have bodies : ∀ page ∈ (cutRow front region separator view.fresh back).map Prod.fst,
      (after.nodes page).map Node.detached =
        ((view.split region.1 (.leaf lower) (.leaf upper)).nodes page).map Node.detached := by
    intro page inRow
    refine change.bodies page ?_ fun higher => ?_
    · rw [pages, Nat.lt_succ_iff_lt_or_eq]
      rcases List.mem_cons.mp ((moved page).mp inRow) with fresh | old
      · exact .inr ((isFresh page).mp fresh)
      · exact .inl ((layout.complete page).mp (List.mem_append_left _ old))
    · exact (List.nodup_append'.mp change.distinct).2.2 inRow
        ((change.pages page).mpr (.inl higher))
  obtain ⟨leaves, cells⟩ := leafRow.of_detached bodies
  refine ⟨⟨crown, leaves.leaves, .inr leaves.filled, leaves.linked, change.distinct,
    fun page => ?_⟩, cells⟩
  have old := layout.complete page
  have grew := change.grew.pages
  rw [List.mem_append] at old
  rw [List.mem_append, moved, List.mem_cons, isFresh, change.pages, or_assoc,
    ← or_assoc (b := page ∈ above), old, pages]
  omega

end Split

end Change

/-! ## The key and the count -/

section Walks

variable {view : View} {root : PageNumber} {levels : Nat} {row : List Region}
  {above : List PageNumber}

/-- The tree has a key exactly if the leaf where it belongs has it. -/
theorem Layout.mem_keys_iff {front back : List Region} {region : Region} {leaf : Leaf} {key : Key}
    (layout : Layout view root levels (front ++ region :: back) above)
    (found : view.nodes region.1 = .ok (.leaf leaf)) (has : region.2.contains key = true) :
    key ∈ (cellsOf view.nodes (front ++ region :: back)).map Prod.fst ↔
      leaf.hasKey key = true := by
  have fits := layout.fits_of_mem (by simp) found
  rw [Leaf.hasKey_iff fits.separates.ascending, ← fits.map_fst_cells, ← cellsAt_leaf found]
  constructor
  · intro member
    obtain ⟨cell, inCells, rfl⟩ := List.mem_map.mp member
    obtain ⟨place, inRow, atPlace⟩ := List.mem_flatMap.mp inCells
    have within := (layout.leaves place inRow).keys_within atPlace
    rw [layout.crown.eq_of_contains inRow (by simp) within has] at atPlace
    exact List.mem_map_of_mem atPlace
  · intro member
    obtain ⟨cell, inLeaf, rfl⟩ := List.mem_map.mp member
    exact List.mem_map_of_mem (List.mem_flatMap.mpr ⟨region, by simp, inLeaf⟩)

/-- Counting the pages for a cut does not fail in a tree. -/
theorem Crown.pagesAbove (crown : Crown view.nodes root levels row above) {region : Region}
    (member : region ∈ row) {parent : Option PageNumber}
    (hangs : Hangs view.nodes parent region.1) {budget : Nat} (enough : levels ≤ budget) :
    Promises view (Tree.pagesAbove budget parent)
      (fun needed after => after = view ∧ PagesAbove view.nodes parent needed)
      (fun _ _ => False) := by
  induction crown generalizing region parent budget with
  | root top =>
    rw [List.mem_singleton.mp member] at hangs
    cases hangs.unique top
    cases budget <;> exact .pure ⟨rfl, .root⟩
  | @row levels upper row above crown branches parts ih =>
    obtain ⟨place, inUpper, hung⟩ := exists_parent branches (parts ▸ member)
    cases hangs.unique hung
    obtain ⟨branch, found, -⟩ := branches place inUpper
    obtain ⟨budget, rfl⟩ : ∃ fewer, budget = fewer + 1 := ⟨budget - 1, by omega⟩
    refine .bind (.loadBranch_of found ?_)
    by_cases room : branch.canGrow = true
    · rw [if_pos room]
      exact .pure ⟨rfl, .room found room⟩
    · rw [if_neg room]
      have onwards := ih inUpper (crown.hangs_of inUpper found) (Nat.le_of_succ_le_succ enough)
      refine .bind (onwards.mono ?_)
      rintro needed after ⟨rfl, above⟩
      exact .pure ⟨rfl, .full found (Bool.eq_false_iff.mpr room) above⟩

theorem Crown.branches (crown : Crown view.nodes root levels row above) :
    ∀ page ∈ above, ∃ fewest range, BranchAt view.nodes fewest (page, range) := by
  induction crown with
  | root => exact fun page member => absurd member List.not_mem_nil
  | @row levels upper row above crown branches parts ih =>
    intro page member
    rcases List.mem_append.mp member with here | higher
    · obtain ⟨region, inUpper, rfl⟩ := List.mem_map.mp here
      exact ⟨_, region.2, branches region inUpper⟩
    · exact ih page higher

/-- Every node of a tree has the right shape and fits its page. -/
theorem Layout.sound (layout : Layout view root levels row above) (closed : view.Closed) :
    view.Sound := by
  intro id node found
  rcases List.mem_append.mp ((layout.complete id).mpr (closed id node found)) with inRow | higher
  · obtain ⟨region, member, rfl⟩ := List.mem_map.mp inRow
    obtain ⟨leaf, present, fits⟩ := layout.leaves region member
    cases found.symm.trans present
    exact ⟨fits.matched, fits.small⟩
  · obtain ⟨fewest, range, branch, present, fits, -⟩ := layout.crown.branches id higher
    cases found.symm.trans present
    exact ⟨fits.matched, fits.small⟩

end Walks

/-! ## The row of leaves after an insertion -/

theorem cellsOf_append (nodes : Nodes) (front back : List Region) :
    cellsOf nodes (front ++ back) = cellsOf nodes front ++ cellsOf nodes back :=
  List.flatMap_append

theorem cellsOf_cons (nodes : Nodes) (region : Region) (row : List Region) :
    cellsOf nodes (region :: row) = cellsAt nodes region.1 ++ cellsOf nodes row :=
  List.flatMap_cons

theorem cellsOf_congr {nodes nodes' : Nodes} {row : List Region}
    (same : ∀ place ∈ row, cellsAt nodes' place.1 = cellsAt nodes place.1) :
    cellsOf nodes' row = cellsOf nodes row :=
  List.flatMap_congr same

section Ways

variable (before after : View) (levels : Nat) (front : List Region) (region : Region)
  (back : List Region) (leaf : Leaf) (key : Key) (value : Bytes)

/-- What an insertion makes of the row of leaves if its key belongs in the region: the leaf there
takes the cell, or is cut in two to take it. The other leaves keep their cells.

A leaf is cut if it has no room, its halves do, and there are pages for the cuts. These are taken
into use, and if every row above has taken one, the last is that of a new root. -/
inductive Entered : Nat → List Region → Prop where
  | whole :
      leaf.hasRoomFor value.length = true →
      cellsAt after.nodes region.1 = (leaf.insert key value).cells →
      (∀ place ∈ front ++ back, cellsAt after.nodes place.1 = cellsAt before.nodes place.1) →
      after.pagesInUse = before.pagesInUse →
      Entered levels (front ++ region :: back)
  | halves {needed : Nat} {separator : Key} {upper : PageNumber} :
      leaf.hasRoomFor value.length ≠ true →
      leaf.canDivideAt (leaf.position key) value.length = true →
      PagesAbove before.nodes leaf.parent needed →
      before.pagesInUse + (needed + 1) ≤ before.limit.toNat →
      cellsAt after.nodes region.1 = ((leaf.insert key value).divide upper).1.cells →
      cellsAt after.nodes upper = ((leaf.insert key value).divide upper).2.cells →
      (∀ place ∈ front ++ back, cellsAt after.nodes place.1 = cellsAt before.nodes place.1) →
      after.pagesInUse = before.pagesInUse + (needed + 1) →
      Entered (max levels needed) (cutRow front region separator upper back)

/-- A tree after the insertion of a cell whose key belonged in the region. -/
structure Grown (tree : Tree) : Prop where
  grew : before.Grew after
  regular : after.Regular
  layout : ∃ levels' row above, Layout after tree.root levels' row above ∧
    Entered before after levels front region back leaf key value levels' row

/-- Why the leaf where a key belongs does not take a cell. -/
inductive Declined : Fault → Prop where
  | long : maxValueLength < value.length → Declined (.shortage (.value value.length))
  | present : leaf.hasKey key = true → Declined (.duplicateKey key)
  | uncut : leaf.hasKey key ≠ true → leaf.hasRoomFor value.length ≠ true →
      leaf.canDivideAt (leaf.position key) value.length ≠ true →
      Declined (.shortage (.leaf region.1))
  | scarce {needed : Nat} : leaf.hasKey key ≠ true → leaf.hasRoomFor value.length ≠ true →
      leaf.canDivideAt (leaf.position key) value.length = true →
      PagesAbove before.nodes leaf.parent needed →
      before.limit.toNat < before.pagesInUse + (needed + 1) →
      Declined (.shortage (.split (needed + 1)))

end Ways

section Ways

variable {before after : View} {levels levels' : Nat} {front back row : List Region}
  {region : Region} {leaf : Leaf} {key : Key} {value : Bytes} {fault : Fault}

/-- The row has the cells that it had, and the new one. -/
theorem Entered.perm
    (entered : Entered before after levels front region back leaf key value levels' row)
    (found : before.nodes region.1 = .ok (.leaf leaf))
    (matched : leaf.values.length = leaf.keys.length) :
    (cellsOf after.nodes row).Perm
      ((key, value) :: cellsOf before.nodes (front ++ region :: back)) := by
  have grown : (cellsOf before.nodes front ++
      ((leaf.insert key value).cells ++ cellsOf before.nodes back)).Perm
        ((key, value) :: cellsOf before.nodes (front ++ region :: back)) := by
    have entry := (Leaf.cells_insert_perm matched key value).append_right
      (cellsOf before.nodes back)
    rw [cellsOf_append, cellsOf_cons, cellsAt_leaf found]
    exact (entry.append_left _).trans List.perm_middle
  have beside : (∀ place ∈ front ++ back,
      cellsAt after.nodes place.1 = cellsAt before.nodes place.1) →
      cellsOf after.nodes front = cellsOf before.nodes front ∧
        cellsOf after.nodes back = cellsOf before.nodes back := fun others =>
    ⟨cellsOf_congr fun place member => others place (List.mem_append_left _ member),
      cellsOf_congr fun place member => others place (List.mem_append_right _ member)⟩
  cases entered with
  | whole _ here others =>
    obtain ⟨inFront, inBack⟩ := beside others
    rw [cellsOf_append, cellsOf_cons, inFront, inBack, here]
    exact grown
  | halves _ _ _ _ lower upper others =>
    obtain ⟨inFront, inBack⟩ := beside others
    rw [← Leaf.cells_divide (Leaf.matched_insert matched key value), List.append_assoc] at grown
    rw [cutRow, cellsOf_append, cellsOf_cons, cellsOf_cons, inFront, inBack, lower, upper]
    exact grown

theorem Declined.refusal (declined : Declined before region leaf key value fault) :
    Refusal key fault := by
  cases declined with
  | long long => exact .value long
  | present => exact .present
  | uncut => exact .leaf _
  | scarce => exact .pages _

/-- Only a key that the leaf has is declined as a duplicate. -/
theorem Declined.duplicate_iff (declined : Declined before region leaf key value fault)
    (ordinary : value.length ≤ maxValueLength) :
    fault = .duplicateKey key ↔ leaf.hasKey key = true := by
  cases declined with
  | long long => exact absurd ordinary (Nat.not_le_of_lt long)
  | present present => exact iff_of_true rfl present
  | uncut new => exact iff_of_false (fun equal => by cases equal) new
  | scarce new => exact iff_of_false (fun equal => by cases equal) new

end Ways

/-! ## Insertion -/

/-- The tree stands in the view as it should, and its cells are the given ones in some order. -/
structure Tree.Holds (tree : Tree) (view : View) (cells : List (Key × Bytes)) : Prop where
  regular : view.Regular
  layout : ∃ levels row above, Layout view tree.root levels row above ∧
    (cellsOf view.nodes row).Perm cells

section Insert

variable {view : View} {root : PageNumber} {levels : Nat} {front back : List Region}
  {region : Region} {above : List PageNumber} {leaf : Leaf} {key : Key} {value : Bytes}
  (layout : Layout view root levels (front ++ region :: back) above)
  (regular : view.Regular) (found : view.nodes region.1 = .ok (.leaf leaf))
  (has : region.2.contains key = true)
include layout found has

section New

variable (new : leaf.hasKey key ≠ true)
include new

/-- The new key stands where it belongs. -/
theorem Layout.separates_insert (value : Bytes) :
    region.2.Separates (leaf.insert key value).keys := by
  have fits := layout.fits_of_mem (by simp) found
  exact fits.separates.insertIdx has fun member =>
    new ((Leaf.hasKey_iff fits.separates.ascending).mpr member)

include regular

theorem Layout.grown_put (room : leaf.hasRoomFor value.length = true) :
    Grown view (view.put region.1 (.leaf (leaf.insert key value))) levels front region back leaf
      key value { root } := by
  have fits := layout.fits_of_mem (by simp) found
  have matched := Leaf.matched_insert fits.matched key value
  have separates := layout.separates_insert found has new value
  have small := (Leaf.hasRoomFor_iff fits.matched key value).mp room
  have filled : (leaf.insert key value).cells ≠ [] := fun empty => by
    have count := (Leaf.cells_insert_perm fits.matched key value).length_eq
    rw [empty] at count
    cases count
  refine ⟨⟨rfl, rfl, rfl, Nat.le_refl _⟩, regular.put _ (regular.closed _ _ found), levels,
    front ++ region :: back, above,
    layout.put found ⟨matched, separates, small⟩ filled rfl rfl rfl, ?_⟩
  exact .whole room (cellsAt_leaf (View.nodes_put_self ..))
    (fun place other => (layout.other_put _ other).2) rfl

theorem Layout.insertByDividing (ordinary : value.length ≤ maxValueLength)
    (full : leaf.hasRoomFor value.length ≠ true)
    (divides : leaf.canDivideAt (leaf.position key) value.length = true) :
    Promises view (Tree.insertByDividing { root } region.1 leaf key value)
      (fun tree after => Grown view after levels front region back leaf key value tree)
      (fun fault after => after = view ∧ Declined view region leaf key value fault) := by
  have fits := layout.fits_of_mem (by simp) found
  have matched := Leaf.matched_insert fits.matched key value
  have separates := layout.separates_insert found has new value
  have nonempty := Leaf.keys_ne_nil_of_not_hasRoomFor fits.matched full ordinary
  have several := Leaf.several_keys_insert nonempty key value
  have inRow : region ∈ front ++ region :: back := by simp
  have counted := layout.crown.pagesAbove inRow (layout.crown.hangs_of inRow found)
    (Nat.le_of_lt layout.levels_lt)
  refine .insertByDividing nonempty (counted.mono fun _ _ done => done)
    (fun needed higher scarce => ⟨rfl, .scarce new full divides higher scarce⟩)
    (fun needed halves equal higher apart enough => ?_)
    fun room same => absurd same (View.ne_fresh room (regular.closed _ _ found))
  have room : view.pagesInUse < view.limit.toNat := by omega
  have fewer := Promises.attachWithin_halves { root } (halves.2.keys.headD 0)
    (layout.sound regular.closed).branchesFit apart higher enough equal
  subst equal
  have sizes := (Leaf.canDivideAt_iff fits.matched key value view.fresh).mp divides
  obtain ⟨admits, lowerFits, upperFits, lowerFilled, upperFilled⟩ :=
    Leaf.fits_divide matched separates several sizes
  have leafRow := layout.leafRow_split found room lowerFits upperFits lowerFilled upperFilled
    rfl rfl
  have pending : Pending (view.split region.1
      (.leaf ((leaf.insert key value).divide view.fresh).1)
      (.leaf ((leaf.insert key value).divide view.fresh).2)) root levels
      (front ++ region :: back) above view.fresh :=
    layout.pending_split found room regular rfl rfl rfl
  obtain ⟨hangs, counted⟩ : Hangs (view.split region.1
        (.leaf ((leaf.insert key value).divide view.fresh).1)
        (.leaf ((leaf.insert key value).divide view.fresh).2)).nodes leaf.parent region.1 ∧
      PagesAbove (view.split region.1
        (.leaf ((leaf.insert key value).divide view.fresh).1)
        (.leaf ((leaf.insert key value).divide view.fresh).2)).nodes leaf.parent needed := by
    refine layout.counted_split found room ?_ ?_ higher <;> rfl
  refine ((pending.attachWithin admits hangs counted _).and
    fewer).weaken ?_ ?_
  · rintro tree after ⟨⟨pages, -, above', crown, change⟩, -⟩
    obtain ⟨layout', cells⟩ := layout.of_changedAbove room leafRow crown change
    refine ⟨View.grew_split.trans change.grew, change.regular, _, _, above', layout',
      .halves full divides higher enough ?_ ?_ (fun place other => ?_)
        (pages.trans (Nat.succ_add_eq_add_succ ..))⟩
    · rw [cells (_, _) (mem_cutRow.mpr (.inr (.inl rfl)))]
      exact cellsAt_leaf View.nodes_split_self
    · rw [cells (_, _) (mem_cutRow.mpr (.inr (.inr rfl)))]
      exact cellsAt_leaf (View.nodes_split_fresh apart)
    · rw [cells place (mem_cutRow.mpr (.inl other))]
      exact layout.cellsAt_split_other room other
  · rintro fault after ⟨harmless, damaged⟩
    rw [harmless] at damaged
    cases damaged

end New

include regular

/-- **The leaf where a key belongs takes its cell, whole or cut in two, or declines it.** -/
theorem Layout.insert
    (search : Promises view (Tree.leafFor { root } key)
      (fun page after => page = region.1 ∧ after = view) fun _ _ => False) :
    Promises view (Tree.insert { root } key value)
      (fun tree after => value.length ≤ maxValueLength ∧ leaf.hasKey key ≠ true ∧
        Grown view after levels front region back leaf key value tree)
      (fun fault after => after = view ∧ Declined view region leaf key value fault) := by
  unfold Tree.insert
  split
  next ordinary =>
    refine .bind (search.mono ?_)
    rintro id after ⟨rfl, rfl⟩
    refine .bind (.loadLeaf_of found ?_)
    split
    next present => exact .throw ⟨rfl, .present present⟩
    next new =>
      split
      next room =>
        exact .bind (.replace
          (.pure ⟨ordinary, new, layout.grown_put regular found has new room⟩))
      next full =>
        split
        next divides =>
          refine (layout.insertByDividing regular found has new ordinary full divides).weaken ?_
            fun _ _ declined => declined
          exact fun _ _ grown => ⟨ordinary, new, grown⟩
        next uncut => exact .throw ⟨rfl, .uncut new full uncut⟩
  next long => exact .throw ⟨rfl, .long (Nat.lt_of_not_le long)⟩

end Insert

/-- There is one leaf in the row where a key belongs, and the search for the key ends there. -/
theorem Layout.exists_leafFor {view : View} {root : PageNumber} {levels : Nat}
    {row : List Region} {above : List PageNumber} (layout : Layout view root levels row above)
    (key : Key) :
    ∃ front region back leaf, row = front ++ region :: back ∧
      view.nodes region.1 = .ok (.leaf leaf) ∧ leaf.Fits region.2 ∧
      region.2.contains key = true ∧
      Promises view (Tree.leafFor { root } key) (fun page after => page = region.1 ∧ after = view)
        (fun _ _ => False) := by
  obtain ⟨region, member, has, search⟩ := layout.leafFor key
  obtain ⟨front, back, rfl⟩ := List.append_of_mem member
  obtain ⟨leaf, found, fits⟩ := layout.leaves region member
  exact ⟨front, region, back, leaf, rfl, found, fits, has, search⟩

/-- **An insertion into a tree adds its cell, or is refused and changes nothing.** -/
theorem Tree.Holds.insert {tree : Tree} {view : View} {cells : List (Key × Bytes)}
    (holds : tree.Holds view cells) (key : Key) (value : Bytes) :
    Promises view (tree.insert key value)
      (fun tree' after => view.Grew after ∧ value.length ≤ maxValueLength ∧
        key ∉ cells.map Prod.fst ∧ tree'.Holds after ((key, value) :: cells))
      (fun fault after => after = view ∧ Refusal key fault ∧
        (value.length ≤ maxValueLength →
          (fault = .duplicateKey key ↔ key ∈ cells.map Prod.fst))) := by
  obtain ⟨regular, levels, row, above, layout, same⟩ := holds
  obtain ⟨front, region, back, leaf, rfl, found, fits, has, search⟩ := layout.exists_leafFor key
  have keys : key ∈ cells.map Prod.fst ↔ leaf.hasKey key = true := by
    rw [← layout.mem_keys_iff found has]
    exact (same.map Prod.fst).symm.mem_iff
  refine (layout.insert regular found has search).weaken ?_ ?_
  · rintro tree' after ⟨ordinary, new, grown⟩
    obtain ⟨levels', row', above', layout', entered⟩ := grown.layout
    refine ⟨grown.grew, ordinary, fun member => new (keys.mp member), grown.regular, levels', row',
      above', layout', ?_⟩
    exact (entered.perm found fits.matched).trans (same.cons _)
  · rintro fault after ⟨rfl, declined⟩
    refine ⟨rfl, declined.refusal, fun ordinary => ?_⟩
    rw [declined.duplicate_iff ordinary, keys]

end RowStore
