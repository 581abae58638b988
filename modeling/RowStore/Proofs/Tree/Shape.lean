import Mathlib.Data.List.Nodup
import Mathlib.Data.List.Perm.Basic
import RowStore.Proofs.Store.View
import RowStore.Proofs.Tree.Regions

/-!
# The shape of a tree

`Subtree nodes height parent region` says that the pages from a page down form a
tree of the given height: nodes have one value for each key or one more child
than separators, keys ascend and lie in the range that the separators above
leave for them, nodes fit a page, parent references name the page above, and the
root mark stands exactly where there is no parent.

A change deep in a tree goes up from the leaves, so proofs about changes look at
a tree in rows instead. A row is the list of the regions at one depth, from left
to right. `Crown nodes root levels row above` says that the pages in `above` are
the branches over a row, in `levels` rows, up to the root. A change to a row
leaves the rows below it alone, because these do not refer to what is above.

`Layout` puts a crown on the row of leaves: the leaves are linked in order, and
every page in use occurs once.
-/

set_option autoImplicit false

namespace RowStore

/-! ## What is asked of a node -/

/-- A leaf that can stand where the keys of a range belong: it has one value for each key, and fits
a page. -/
structure Leaf.Fits (leaf : Leaf) (range : KeyRange) : Prop where
  matched : leaf.values.length = leaf.keys.length
  separates : range.Separates leaf.keys
  small : leaf.size ≤ Page.size

/-- A branch that can stand where the keys of a range belong: it has one more child than separators,
and fits a page. -/
structure Branch.Fits (branch : Branch) (range : KeyRange) : Prop where
  matched : branch.children.length = branch.separators.length + 1
  separates : range.Separates branch.separators
  small : branch.size ≤ Page.size

/-- The page has the given parent, and is marked as root exactly if there is none. -/
def Hangs (nodes : Nodes) (parent : Option PageNumber) (page : PageNumber) : Prop :=
  ∃ node, nodes page = .ok node ∧ node.parent = parent ∧ node.rootMark = parent.isNone

/-- The region is that of a leaf. -/
def LeafAt (nodes : Nodes) (region : Region) : Prop :=
  ∃ leaf, nodes region.1 = .ok (.leaf leaf) ∧ leaf.Fits region.2

/-- The region is that of a branch with at least the given number of separators, which is the
parent of its children. -/
def BranchAt (nodes : Nodes) (fewest : Nat) (region : Region) : Prop :=
  ∃ branch, nodes region.1 = .ok (.branch branch) ∧ branch.Fits region.2 ∧
    fewest ≤ branch.separators.length ∧
    ∀ child ∈ branch.children, Hangs nodes (some region.1) child

/-- The regions of the children of a branch. -/
def regionsBelow (nodes : Nodes) (region : Region) : List Region :=
  match nodes region.1 with
  | .ok (.branch branch) => branch.regions region.2
  | _ => []

/-- The cells on a page. -/
def cellsAt (nodes : Nodes) (page : PageNumber) : List (Key × Bytes) :=
  match nodes page with
  | .ok (.leaf leaf) => leaf.cells
  | _ => []

theorem regionsBelow_branch {nodes : Nodes} {region : Region} {branch : Branch}
    (found : nodes region.1 = .ok (.branch branch)) :
    regionsBelow nodes region = branch.regions region.2 := by
  simp only [regionsBelow, found]

theorem cellsAt_leaf {nodes : Nodes} {page : PageNumber} {leaf : Leaf}
    (found : nodes page = .ok (.leaf leaf)) : cellsAt nodes page = leaf.cells := by
  simp only [cellsAt, found]

theorem regionsBelow_congr {nodes nodes' : Nodes} {region : Region}
    (same : nodes' region.1 = nodes region.1) :
    regionsBelow nodes' region = regionsBelow nodes region := by
  simp only [regionsBelow, same]

theorem mem_row_iff {front back : List Region} {region place : Region} :
    place ∈ front ++ region :: back ↔ place = region ∨ place ∈ front ++ back := by
  simp only [List.mem_append, List.mem_cons]
  exact or_left_comm

/-- A key belongs in one of the regions that follow each other. -/
theorem eq_of_precedes {row : List Region}
    (order : row.Pairwise fun first second => first.2.Precedes second.2) {first second : Region}
    {key : Key} (inFirst : first ∈ row) (inSecond : second ∈ row)
    (has : first.2.contains key = true) (has' : second.2.contains key = true) :
    first = second := by
  obtain ⟨front, back, rfl⟩ := List.append_of_mem inFirst
  rw [List.pairwise_append, List.pairwise_cons] at order
  rcases mem_row_iff.mp inSecond with rfl | other
  · rfl
  · rcases List.mem_append.mp other with before | after
    · have low := order.2.2 second before first List.mem_cons_self
      exact (Int32.lt_irrefl (low _ _ has' has)).elim
    · have high := order.2.1.1 second after
      exact (Int32.lt_irrefl (high _ _ has has')).elim

/-- A region of a row without repetitions stands there once, and not above. -/
theorem not_mem_others {front back : List Region} {region : Region} {above : List PageNumber}
    (distinct : ((front ++ region :: back).map Prod.fst ++ above).Nodup) :
    region.1 ∉ (front ++ back).map Prod.fst ++ above := by
  rw [List.map_append, List.map_cons, List.append_assoc, List.cons_append, List.nodup_middle,
    List.nodup_cons] at distinct
  rw [List.map_append, List.append_assoc]
  exact distinct.1

theorem Hangs.congr {nodes nodes' : Nodes} {parent : Option PageNumber} {page : PageNumber}
    (hangs : Hangs nodes parent page) (same : nodes' page = nodes page) :
    Hangs nodes' parent page := by
  rw [Hangs, same]
  exact hangs

theorem Hangs.unique {nodes : Nodes} {parent other : Option PageNumber} {page : PageNumber}
    (hangs : Hangs nodes parent page) (also : Hangs nodes other page) : parent = other := by
  obtain ⟨node, found, rfl, -⟩ := hangs
  obtain ⟨node', found', rfl, -⟩ := also
  cases found.symm.trans found'
  rfl

namespace Branch

variable {branch : Branch} {range : KeyRange}

/-- The regions of the children of a branch are on its children. -/
theorem map_fst_regions (matched : branch.children.length = branch.separators.length + 1)
    (range : KeyRange) : (branch.regions range).map Prod.fst = branch.children :=
  List.map_fst_zip (Nat.le_of_eq (by rw [KeyRange.length_cut, matched]))

theorem map_snd_regions (matched : branch.children.length = branch.separators.length + 1)
    (range : KeyRange) : (branch.regions range).map Prod.snd = range.cut branch.separators :=
  List.map_snd_zip (Nat.le_of_eq (by rw [KeyRange.length_cut, matched]))

/-- A child stands in one of the regions. -/
theorem exists_region (matched : branch.children.length = branch.separators.length + 1)
    (range : KeyRange) {child : PageNumber} (isChild : child ∈ branch.children) :
    ∃ region ∈ branch.regions range, region.1 = child := by
  rw [← map_fst_regions matched range] at isChild
  exact List.mem_map.mp isChild

theorem contains_of_mem_regions (separates : range.Separates branch.separators)
    {region : Region} {key : Key} (member : region ∈ branch.regions range)
    (has : region.2.contains key = true) : range.contains key = true :=
  KeyRange.contains_of_mem_cut separates (List.of_mem_zip member).2 has

theorem pairwise_regions (matched : branch.children.length = branch.separators.length + 1)
    (separates : range.Separates branch.separators) :
    (branch.regions range).Pairwise fun first second => first.2.Precedes second.2 := by
  have parts := KeyRange.pairwise_cut separates
  rw [← map_snd_regions matched, List.pairwise_map] at parts
  exact parts

/-- The first child is on the first region. -/
theorem exists_first (matched : branch.children.length = branch.separators.length + 1)
    (range : KeyRange) : ∃ region rest, branch.regions range = region :: rest ∧
      branch.children.head? = some region.1 := by
  cases equal : branch.regions range with
  | nil =>
    have count := congrArg List.length (map_fst_regions matched range)
    rw [equal, matched] at count
    cases count
  | cons region rest =>
    refine ⟨region, rest, rfl, ?_⟩
    rw [← map_fst_regions matched range, equal]
    rfl

namespace Fits

theorem length_cut (fits : branch.Fits range) :
    branch.children.length = (range.cut branch.separators).length := by
  rw [KeyRange.length_cut, fits.matched]

theorem map_fst_regions (fits : branch.Fits range) :
    (branch.regions range).map Prod.fst = branch.children :=
  Branch.map_fst_regions fits.matched range

theorem contains_of_mem_regions (fits : branch.Fits range) {region : Region} {key : Key}
    (member : region ∈ branch.regions range) (has : region.2.contains key = true) :
    range.contains key = true :=
  Branch.contains_of_mem_regions fits.separates member has

theorem pairwise_regions (fits : branch.Fits range) :
    (branch.regions range).Pairwise fun first second => first.2.Precedes second.2 :=
  Branch.pairwise_regions fits.matched fits.separates

end Fits

end Branch

/-! ## Trees seen from the root -/

/-- The pages from a page down form a tree of the given height, under the given parent and with
keys in the given range. -/
inductive Subtree (nodes : Nodes) : Nat → Option PageNumber → Region → Prop where
  | leaf {parent : Option PageNumber} {region : Region} :
      Hangs nodes parent region.1 → LeafAt nodes region → Subtree nodes 1 parent region
  | branch {height : Nat} {parent : Option PageNumber} {region : Region} {branch : Branch} :
      Hangs nodes parent region.1 → nodes region.1 = .ok (.branch branch) →
      branch.Fits region.2 →
      (∀ place ∈ branch.regions region.2, Subtree nodes height (some region.1) place) →
      Subtree nodes (height + 1) parent region

/-- The pages without children from a page down, from left to right, within a number of levels. -/
def leavesBelow (nodes : Nodes) : Nat → PageNumber → List PageNumber
  | 0, _ => []
  | height + 1, page =>
    match nodes page with
    | .ok (.branch branch) => branch.children.flatMap (leavesBelow nodes height)
    | _ => [page]

/-- The pages from a page down, each before the pages below it, within a number of levels. -/
def pagesBelow (nodes : Nodes) : Nat → PageNumber → List PageNumber
  | 0, _ => []
  | height + 1, page =>
    page :: match nodes page with
      | .ok (.branch branch) => branch.children.flatMap (pagesBelow nodes height)
      | _ => []

/-! ## Rows of a tree -/

/-- How many separators a branch has at least, in a row with the given number of rows above. -/
def fewestSeparators : Nat → Nat
  | 0 => 1
  | _ + 1 => 254

/-- The pages in `above` are the branches over a row, in `levels` rows, up to the root. The children
of a row of branches are the row below. -/
inductive Crown (nodes : Nodes) (root : PageNumber) :
    Nat → List Region → List PageNumber → Prop where
  | root : Hangs nodes none root → Crown nodes root 0 [(root, {})] []
  | row {levels : Nat} {upper row : List Region} {above : List PageNumber} :
      Crown nodes root levels upper above →
      (∀ region ∈ upper, BranchAt nodes (fewestSeparators levels) region) →
      row = upper.flatMap (regionsBelow nodes) →
      Crown nodes root (levels + 1) row (upper.map Prod.fst ++ above)

/-- The leaves at the given pages are linked one after the other, and the last to none. -/
def Linked (nodes : Nodes) : Option PageNumber → List PageNumber → Prop
  | start, [] => start = none
  | start, page :: pages =>
    start = some page ∧ ∃ leaf, nodes page = .ok (.leaf leaf) ∧ Linked nodes leaf.next pages

/-- The leaves of a tree with the crown above them. Below a branch, a leaf has a cell. The first
leaf is on the first page, and each leaf leads to the next. Every page in use occurs, and none
occurs twice. -/
structure Layout (view : View) (root : PageNumber) (levels : Nat) (row : List Region)
    (above : List PageNumber) : Prop where
  crown : Crown view.nodes root levels row above
  leaves : ∀ region ∈ row, LeafAt view.nodes region
  filled : levels = 0 ∨ ∀ region ∈ row, cellsAt view.nodes region.1 ≠ []
  linked : Linked view.nodes (some 0) (row.map Prod.fst)
  distinct : (row.map Prod.fst ++ above).Nodup
  complete : ∀ page, page ∈ row.map Prod.fst ++ above ↔ page.toNat < view.pagesInUse

/-- A leaf in a row of leaves fits in its place. -/
theorem Layout.fits_of_mem {view : View} {root : PageNumber} {levels : Nat} {row : List Region}
    {above : List PageNumber} (layout : Layout view root levels row above) {region : Region}
    (inRow : region ∈ row) {leaf : Leaf} (found : view.nodes region.1 = .ok (.leaf leaf)) :
    leaf.Fits region.2 := by
  obtain ⟨other, present, fits⟩ := layout.leaves region inRow
  cases found.symm.trans present
  exact fits

/-- A region below a row of branches hangs on one of them. -/
theorem exists_parent {nodes : Nodes} {fewest : Nat} {upper : List Region}
    (branches : ∀ region ∈ upper, BranchAt nodes fewest region) {region : Region}
    (member : region ∈ upper.flatMap (regionsBelow nodes)) :
    ∃ place ∈ upper, Hangs nodes (some place.1) region.1 := by
  obtain ⟨place, inUpper, inBelow⟩ := List.mem_flatMap.mp member
  obtain ⟨branch, found, fits, -, hang⟩ := branches place inUpper
  rw [regionsBelow_branch found] at inBelow
  have child := List.mem_map_of_mem (f := Prod.fst) inBelow
  rw [fits.map_fst_regions] at child
  exact ⟨place, inUpper, hang region.1 child⟩

namespace Crown

variable {nodes nodes' : Nodes} {root : PageNumber} {levels : Nat} {row : List Region}
  {above : List PageNumber}

/-- The pages in a row are children, or the root is the whole row. -/
theorem hangs (crown : Crown nodes root levels row above) :
    ∀ region ∈ row, ∃ parent, Hangs nodes parent region.1 := by
  cases crown with
  | root hangs =>
    intro region member
    rw [List.mem_singleton.mp member]
    exact ⟨none, hangs⟩
  | @row levels upper _ above crown branches parts =>
    intro region member
    obtain ⟨place, -, hangs⟩ := exists_parent branches (parts ▸ member)
    exact ⟨some place.1, hangs⟩

theorem hangs_of (crown : Crown nodes root levels row above) {region : Region}
    (member : region ∈ row) {node : Node} (found : nodes region.1 = .ok node) :
    Hangs nodes node.parent region.1 := by
  obtain ⟨parent, other, present, rfl, marked⟩ := crown.hangs region member
  cases found.symm.trans present
  exact ⟨_, found, rfl, marked⟩

theorem hangs_root (crown : Crown nodes root levels row above) : Hangs nodes none root := by
  induction crown with
  | root hangs => exact hangs
  | row crown branches parts ih => exact ih

/-- The root stands above every row but its own. -/
theorem root_mem (crown : Crown nodes root levels row above) :
    root ∈ row.map Prod.fst ++ above ∧ (levels ≠ 0 → root ∈ above) := by
  induction crown with
  | root hangs => exact ⟨List.mem_singleton_self _, fun several => absurd rfl several⟩
  | row crown branches parts ih => exact ⟨List.mem_append_right _ ih.1, fun _ => ih.1⟩

/-- A crown does not depend on the nodes of its row, as long as these hang where they did. -/
theorem congr (crown : Crown nodes root levels row above)
    (same : ∀ page ∈ above, nodes' page = nodes page)
    (hung : ∀ region ∈ row, ∀ parent, Hangs nodes parent region.1 →
      Hangs nodes' parent region.1) :
    Crown nodes' root levels row above := by
  induction crown with
  | root hangs => exact .root (hung _ List.mem_cons_self _ hangs)
  | @row levels upper row above crown branches parts ih =>
    have upperSame : ∀ region ∈ upper, nodes' region.1 = nodes region.1 := fun region member =>
      same _ (List.mem_append_left _ (List.mem_map_of_mem member))
    have crown' := ih (fun page member => same page (List.mem_append_right _ member))
      (fun region member parent hangs => hangs.congr (upperSame region member))
    refine .row crown' (fun region member => ?_) ?_
    · obtain ⟨branch, found, fits, filled, hang⟩ := branches region member
      refine ⟨branch, (upperSame region member).trans found, fits, filled, ?_⟩
      intro child isChild
      rw [← fits.map_fst_regions, List.mem_map] at isChild
      obtain ⟨place, inRegions, rfl⟩ := isChild
      refine hung place ?_ _ (hang place.1 ?_)
      · rw [parts, List.mem_flatMap]
        exact ⟨region, member, (regionsBelow_branch found) ▸ inRegions⟩
      · rw [← fits.map_fst_regions]
        exact List.mem_map_of_mem inRegions
    · rw [parts]
      exact List.flatMap_congr fun region member =>
        (regionsBelow_congr (upperSame region member)).symm

/-- One page of the row may change if it hangs where it did. -/
theorem congr_except (crown : Crown nodes root levels row above) {page : PageNumber}
    (below : page ∉ above)
    (still : ∀ other ∈ row.map Prod.fst ++ above, other ≠ page → nodes' other = nodes other)
    (hung : ∀ parent, Hangs nodes parent page → Hangs nodes' parent page) :
    Crown nodes' root levels row above := by
  refine crown.congr (fun other higher => ?_) fun region member parent hangs => ?_
  · refine still other (List.mem_append_right _ higher) ?_
    rintro rfl
    exact below higher
  · by_cases here : region.1 = page
    · rw [here] at hangs ⊢
      exact hung parent hangs
    · exact hangs.congr (still _ (List.mem_append_left _ (List.mem_map_of_mem member)) here)

/-- The ranges of a row follow each other. -/
theorem precedes (crown : Crown nodes root levels row above) :
    row.Pairwise fun first second => first.2.Precedes second.2 := by
  induction crown with
  | root => exact List.pairwise_singleton ..
  | @row levels upper row above crown branches parts ih =>
    subst parts
    rw [List.pairwise_flatMap]
    constructor
    · intro region member
      obtain ⟨branch, found, fits, -, -⟩ := branches region member
      rw [regionsBelow_branch found]
      exact fits.pairwise_regions
    · refine ih.imp_of_mem fun {first second} inFirst inSecond order => ?_
      intro low inLow high inHigh key key' has has'
      obtain ⟨branch, found, fits, -, -⟩ := branches first inFirst
      obtain ⟨branch', found', fits', -, -⟩ := branches second inSecond
      rw [regionsBelow_branch found] at inLow
      rw [regionsBelow_branch found'] at inHigh
      exact order key key' (fits.contains_of_mem_regions inLow has)
        (fits'.contains_of_mem_regions inHigh has')

/-- A key belongs in one region of a row. -/
theorem eq_of_contains (crown : Crown nodes root levels row above) {first second : Region}
    {key : Key} (inFirst : first ∈ row) (inSecond : second ∈ row)
    (has : first.2.contains key = true) (has' : second.2.contains key = true) :
    first = second :=
  eq_of_precedes crown.precedes inFirst inSecond has has'

/-- Trees under the regions of a row make one tree with the crown. -/
theorem subtree (crown : Crown nodes root levels row above) {height : Nat}
    (trees : ∀ region ∈ row, ∀ parent, Hangs nodes parent region.1 →
      Subtree nodes height parent region) :
    Subtree nodes (height + levels) none (root, {}) := by
  induction crown generalizing height with
  | root hangs => exact trees _ List.mem_cons_self _ hangs
  | @row levels upper row above crown branches parts ih =>
    subst parts
    rw [Nat.add_comm levels 1, ← Nat.add_assoc]
    refine ih fun region member parent hangs => ?_
    obtain ⟨branch, found, fits, -, hang⟩ := branches region member
    refine .branch hangs found fits fun place inRegions => ?_
    refine trees place (List.mem_flatMap.mpr ⟨region, member, ?_⟩) _ (hang place.1 ?_)
    · rw [regionsBelow_branch found]
      exact inRegions
    · rw [← fits.map_fst_regions]
      exact List.mem_map_of_mem inRegions

theorem leavesBelow_eq (crown : Crown nodes root levels row above) (height : Nat) :
    leavesBelow nodes (height + levels) root =
      row.flatMap fun region => leavesBelow nodes height region.1 := by
  induction crown generalizing height with
  | root => exact (List.flatMap_singleton ..).symm
  | @row levels upper row above crown branches parts ih =>
    rw [Nat.add_comm levels 1, ← Nat.add_assoc, ih (height + 1), parts, List.flatMap_assoc]
    refine List.flatMap_congr fun region member => ?_
    obtain ⟨branch, found, fits, -, -⟩ := branches region member
    rw [regionsBelow_branch found, ← List.flatMap_map (f := Prod.fst), fits.map_fst_regions]
    simp only [leavesBelow, found]

theorem pagesBelow_perm (crown : Crown nodes root levels row above) (height : Nat) :
    (pagesBelow nodes (height + levels) root).Perm
      ((row.flatMap fun region => pagesBelow nodes height region.1) ++ above) := by
  induction crown generalizing height with
  | root =>
    rw [List.append_nil, List.flatMap_singleton]
    exact .refl _
  | @row levels upper row above crown branches parts ih =>
    have first : (upper.flatMap fun region => pagesBelow nodes (height + 1) region.1) =
        upper.flatMap fun region => region.1 :: (regionsBelow nodes region).flatMap fun place =>
          pagesBelow nodes height place.1 := by
      refine List.flatMap_congr fun region member => ?_
      obtain ⟨branch, found, fits, -, -⟩ := branches region member
      rw [regionsBelow_branch found, ← List.flatMap_map (f := Prod.fst), fits.map_fst_regions]
      simp only [pagesBelow, found]
    rw [Nat.add_comm levels 1, ← Nat.add_assoc, parts, List.flatMap_assoc]
    refine (ih (height + 1)).trans ?_
    rw [first, ← List.append_assoc]
    refine List.Perm.append_right above ?_
    exact (List.map_append_flatMap_perm ..).symm.trans List.perm_append_comm

end Crown

end RowStore
