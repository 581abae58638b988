import RowStore.Proofs.Tree.Steps

/-!
# A row with one page more

When a page of a row has been cut in two, the branch above it gets the new page as
another child. Then everything about the crown is in order again, except that this
branch may have become too large (`Widened`). If it is too large, it is cut in two,
which cuts a region of the row of branches, one row higher (`Widened.divided`).

Whatever happens above a row leaves the nodes of the row alone but for their
parents, and leaves the rows below it alone altogether (`ChangedAbove`).
-/

set_option autoImplicit false

namespace RowStore

/-! ## Cutting a region of a row -/

/-- A row in which the region of one page is cut in two. -/
def cutRow (front : List Region) (region : Region) (separator : Key) (upper : PageNumber)
    (back : List Region) : List Region :=
  front ++ (region.1, region.2.below separator) :: (upper, region.2.above separator) :: back

section CutRow

variable {front back : List Region} {region place : Region} {separator : Key}
  {upper : PageNumber}

theorem mem_cutRow : place ∈ cutRow front region separator upper back ↔
    place ∈ front ++ back ∨ place = (region.1, region.2.below separator) ∨
      place = (upper, region.2.above separator) := by
  simp only [cutRow, List.mem_append, List.mem_cons]
  tauto

/-- The pages of a row with a cut region are those before and the new one. -/
theorem map_fst_cutRow_perm (front back : List Region) (region : Region) (separator : Key)
    (upper : PageNumber) :
    ((cutRow front region separator upper back).map Prod.fst).Perm
      (upper :: (front ++ region :: back).map Prod.fst) := by
  simp only [cutRow, List.map_append, List.map_cons]
  exact (List.Perm.append_left _ (.swap ..)).trans List.perm_middle

end CutRow

/-- A member of a list that is put together from pieces stands in one of the pieces. -/
theorem exists_piece_of_flatMap {α β : Type} {pieces : α → List β} {whole : List α}
    {front back : List β} {member : β} (parts : whole.flatMap pieces = front ++ member :: back) :
    ∃ before piece after near far, whole = before ++ piece :: after ∧
      pieces piece = near ++ member :: far ∧ front = before.flatMap pieces ++ near ∧
      back = far ++ after.flatMap pieces := by
  induction whole generalizing front with
  | nil => simp at parts
  | cons piece whole ih =>
    rw [List.flatMap_cons, List.append_eq_append_iff] at parts
    rcases parts with ⟨near, atFront, rest⟩ | ⟨far, here, rest⟩
    · obtain ⟨before, found, after, near', far, rfl, split, rfl, rfl⟩ := ih rest
      exact ⟨piece :: before, found, after, near', far, rfl, split, by
        rw [atFront, List.flatMap_cons, List.append_assoc], rfl⟩
    · rcases List.cons_eq_append_iff.mp rest with ⟨rfl, rest⟩ | ⟨far, rfl, rfl⟩
      · obtain ⟨before, found, after, near, far, rfl, split, atFront, rfl⟩ := @ih [] rest.symm
        exact ⟨piece :: before, found, after, near, far, rfl, split, by
          rw [List.flatMap_cons, List.append_assoc, ← atFront, here, List.append_nil,
            List.append_nil], rfl⟩
      · exact ⟨[], piece, whole, front, far, rfl, here, rfl, rfl⟩

/-! ## Frames -/

/-- A change that concerns a row and what is above it: the nodes of the row keep everything but
their parents, and the pages that are neither above nor in the row do not change. -/
structure ChangedAbove (before after : View) (row : List Region)
    (above above' : List PageNumber) : Prop where
  regular : after.Regular
  grew : before.Grew after
  pages : ∀ page, page ∈ above' ↔
    page ∈ above ∨ before.pagesInUse ≤ page.toNat ∧ page.toNat < after.pagesInUse
  distinct : (row.map Prod.fst ++ above').Nodup
  others : ∀ page, page.toNat < before.pagesInUse → page ∉ row.map Prod.fst ++ above →
    after.nodes page = before.nodes page
  bodies : ∀ page, page.toNat < before.pagesInUse → page ∉ above →
    (after.nodes page).map Node.detached = (before.nodes page).map Node.detached

namespace ChangedAbove

variable {first second third : View} {row : List Region} {above above' above'' : List PageNumber}

theorem not_mem (early : ChangedAbove first second row above above') {page : PageNumber}
    (inUse : page.toNat < first.pagesInUse) (absent : page ∉ above) : page ∉ above' := by
  intro member
  rcases (early.pages page).mp member with listed | ⟨fresh, -⟩
  · exact absent listed
  · exact Nat.not_le_of_lt inUse fresh

theorem trans (early : ChangedAbove first second row above above')
    (late : ChangedAbove second third row above' above'') :
    ChangedAbove first third row above above'' where
  regular := late.regular
  grew := early.grew.trans late.grew
  pages page := by
    have firstGrew := early.grew.pages
    have secondGrew := late.grew.pages
    rw [late.pages, early.pages]
    by_cases listed : page ∈ above
    · simp only [listed, true_or]
    · simp only [listed, false_or]
      omega
  distinct := late.distinct
  others page inUse absent := by
    have inUse' := Nat.lt_of_lt_of_le inUse early.grew.pages
    rw [← early.others page inUse absent]
    refine late.others page inUse' ?_
    simp only [List.mem_append, not_or] at absent ⊢
    exact ⟨absent.1, early.not_mem inUse absent.2⟩
  bodies page inUse absent := by
    have inUse' := Nat.lt_of_lt_of_le inUse early.grew.pages
    rw [← early.bodies page inUse absent]
    exact late.bodies page inUse' (early.not_mem inUse absent)

/-- What concerns a row of branches is above the row below them. -/
theorem lower {upper : List Region} (change : ChangedAbove first second upper above above')
    (distinct : (row.map Prod.fst ++ (upper.map Prod.fst ++ above)).Nodup)
    (inUse : ∀ page ∈ row.map Prod.fst, page.toNat < first.pagesInUse) :
    ChangedAbove first second row (upper.map Prod.fst ++ above)
      (upper.map Prod.fst ++ above') where
  regular := change.regular
  grew := change.grew
  pages page := by
    rw [List.mem_append, List.mem_append, change.pages, or_assoc]
  distinct := by
    obtain ⟨inRow, -, apart⟩ := List.nodup_append'.mp distinct
    refine List.nodup_append'.mpr ⟨inRow, change.distinct, fun page member higher => ?_⟩
    rcases List.mem_append.mp higher with inUpper | inAbove
    · exact apart member (List.mem_append_left _ inUpper)
    · refine change.not_mem (inUse page member) (fun listed => ?_) inAbove
      exact apart member (List.mem_append_right _ listed)
  others page inUse absent := by
    refine change.others page inUse fun member => absent ?_
    exact List.mem_append_right _ member
  bodies page inUse absent := congrArg _ (change.others page inUse absent)

end ChangedAbove

/-! ## A branch with a child more -/

namespace Crown

variable {nodes : Nodes} {root : PageNumber} {levels : Nat} {row : List Region}
  {above : List PageNumber}

theorem inUse {view : View} (closed : view.Closed)
    (crown : Crown view.nodes root levels row above) :
    ∀ page ∈ row.map Prod.fst ++ above, page.toNat < view.pagesInUse := by
  induction crown with
  | root hangs =>
    intro page member
    obtain ⟨node, found, -⟩ := hangs
    rw [List.mem_singleton.mp member]
    exact closed _ node found
  | row crown branches parts ih =>
    intro page member
    rcases List.mem_append.mp member with here | higher
    · obtain ⟨region, inRow, rfl⟩ := List.mem_map.mp here
      obtain ⟨parent, node, found, -⟩ := (Crown.row crown branches parts).hangs region inRow
      exact closed _ node found
    · exact ih page higher

/-- Only the root alone is a row with nothing above it. -/
theorem fewest_of_other {front back : List Region} {region place : Region}
    (crown : Crown nodes root levels (front ++ region :: back) above)
    (other : place ∈ front ++ back) : fewestSeparators levels = 254 := by
  cases levels with
  | succ levels => rfl
  | zero =>
    generalize whole : front ++ region :: back = row at crown
    cases crown
    have count := congrArg List.length whole
    have := List.length_pos_of_mem other
    simp only [List.length_append, List.length_cons, List.length_nil] at count this
    omega

end Crown

/-- A branch keeps its regions when its page keeps what it has below it and its children keep
hanging on it. -/
theorem BranchAt.of_detached {nodes nodes' : Nodes} {fewest : Nat} {region : Region}
    (branchAt : BranchAt nodes fewest region)
    (same : (nodes' region.1).map Node.detached = (nodes region.1).map Node.detached)
    (hung : ∀ child ∈ (regionsBelow nodes region).map Prod.fst,
      Hangs nodes (some region.1) child → Hangs nodes' (some region.1) child) :
    BranchAt nodes' fewest region ∧ regionsBelow nodes' region = regionsBelow nodes region := by
  obtain ⟨branch, found, fits, filled, hang⟩ := branchAt
  rw [regionsBelow_branch found, fits.map_fst_regions] at hung
  obtain ⟨other, found', separators, children⟩ := Node.exists_branch_of_detached same found
  refine ⟨⟨other, found', ⟨?_, ?_, ?_⟩, ?_, ?_⟩, ?_⟩
  · rw [separators, children]
    exact fits.matched
  · rw [separators]
    exact fits.separates
  · rw [Branch.size, separators, children]
    exact fits.small
  · rw [separators]
    exact filled
  · rw [children]
    exact fun child isChild => hung child isChild (hang child isChild)
  · rw [regionsBelow_branch found', regionsBelow_branch found, Branch.regions, Branch.regions,
      separators, children]

/-- A row of branches, one of which may have become too large; everything else about the crown
over the row below is in order. -/
structure Widened (view : View) (root : PageNumber) (levels : Nat) (front : List Region)
    (region : Region) (back : List Region) (above : List PageNumber) (branch : Branch)
    (row : List Region) : Prop where
  regular : view.Regular
  crown : Crown view.nodes root levels (front ++ region :: back) above
  found : view.nodes region.1 = .ok (.branch branch)
  matched : branch.children.length = branch.separators.length + 1
  separates : region.2.Separates branch.separators
  almost : branch.size ≤ Page.size + Branch.entrySize
  filled : fewestSeparators levels ≤ branch.separators.length
  hang : ∀ child ∈ branch.children, Hangs view.nodes (some region.1) child
  branches : ∀ place ∈ front ++ back, BranchAt view.nodes (fewestSeparators levels) place
  parts : row = (front ++ region :: back).flatMap (regionsBelow view.nodes)
  distinct : (row.map Prod.fst ++ ((front ++ region :: back).map Prod.fst ++ above)).Nodup

namespace Widened

variable {view : View} {root : PageNumber} {levels : Nat} {front back row : List Region}
  {region : Region} {above : List PageNumber} {branch : Branch}

/-- If the branch is not too large, nothing is left to do. -/
theorem settled (widened : Widened view root levels front region back above branch row)
    (small : branch.size ≤ Page.size) :
    Crown view.nodes root (levels + 1) row
      ((front ++ region :: back).map Prod.fst ++ above) := by
  refine .row widened.crown (fun place member => ?_) widened.parts
  rcases mem_row_iff.mp member with rfl | other
  · exact ⟨branch, widened.found, ⟨widened.matched, widened.separates, small⟩,
      widened.filled, widened.hang⟩
  · exact widened.branches place other

theorem row_eq (widened : Widened view root levels front region back above branch row) :
    row = front.flatMap (regionsBelow view.nodes) ++
      (branch.regions region.2 ++ back.flatMap (regionsBelow view.nodes)) := by
  rw [widened.parts, List.flatMap_append, List.flatMap_cons, regionsBelow_branch widened.found]

theorem child_in_row (widened : Widened view root levels front region back above branch row)
    {child : PageNumber} (isChild : child ∈ branch.children) : child ∈ row.map Prod.fst := by
  rw [← Branch.map_fst_regions widened.matched region.2] at isChild
  rw [widened.row_eq, List.map_append, List.map_append]
  exact List.mem_append_right _ (List.mem_append_left _ isChild)

/-- The children of another branch stand in the row, and not below this branch. -/
theorem other_child (widened : Widened view root levels front region back above branch row)
    {place : Region} (other : place ∈ front ++ back) {child : PageNumber}
    (isChild : child ∈ (regionsBelow view.nodes place).map Prod.fst) :
    child ∈ row.map Prod.fst ∧ child ∉ branch.children := by
  have inRow := (List.nodup_append'.mp widened.distinct).1
  rw [widened.row_eq, List.map_append, List.map_append,
    Branch.map_fst_regions widened.matched] at inRow ⊢
  obtain ⟨-, inRest, frontApart⟩ := List.nodup_append'.mp inRow
  obtain ⟨-, -, backApart⟩ := List.nodup_append'.mp inRest
  have below : ∀ {places : List Region}, place ∈ places →
      child ∈ (places.flatMap (regionsBelow view.nodes)).map Prod.fst := by
    intro places member
    rw [List.map_flatMap]
    exact List.mem_flatMap.mpr ⟨place, member, isChild⟩
  rcases List.mem_append.mp other with inFront | inBack
  · refine ⟨List.mem_append_left _ (below inFront), fun again => ?_⟩
    exact frontApart (below inFront) (List.mem_append_left _ again)
  · refine ⟨List.mem_append_right _ (List.mem_append_right _ (below inBack)), fun again => ?_⟩
    exact backApart again (below inBack)

/-- Every page of the row hangs on a branch. -/
theorem hangs (widened : Widened view root levels front region back above branch row)
    {child : PageNumber} (inRow : child ∈ row.map Prod.fst) :
    ∃ parent, Hangs view.nodes (some parent) child := by
  rw [widened.row_eq, List.map_append, List.map_append,
    Branch.map_fst_regions widened.matched] at inRow
  have below : ∀ {places : List Region}, places ⊆ front ++ back →
      child ∈ (places.flatMap (regionsBelow view.nodes)).map Prod.fst →
      ∃ parent, Hangs view.nodes (some parent) child := by
    intro places inUpper member
    obtain ⟨entry, listed, rfl⟩ := List.mem_map.mp member
    obtain ⟨place, -, hangs⟩ := exists_parent
      (fun place listed => widened.branches place (inUpper listed)) listed
    exact ⟨place.1, hangs⟩
  rcases List.mem_append.mp inRow with inFront | inRest
  · exact below (List.subset_append_left ..) inFront
  · rcases List.mem_append.mp inRest with here | inBack
    · exact ⟨region.1, widened.hang child here⟩
    · exact below (List.subset_append_right ..) inBack

theorem inUse (widened : Widened view root levels front region back above branch row)
    {page : PageNumber}
    (member : page ∈ row.map Prod.fst ++ ((front ++ region :: back).map Prod.fst ++ above)) :
    page.toNat < view.pagesInUse := by
  rcases List.mem_append.mp member with inRow | higher
  · obtain ⟨parent, node, found, -⟩ := widened.hangs inRow
    exact widened.regular.closed page node found
  · exact widened.crown.inUse widened.regular.closed page higher

end Widened

/-! ## Cutting the branch -/

namespace Widened

variable {view after : View} {root : PageNumber} {levels : Nat} {front back row : List Region}
  {region : Region} {above above' : List PageNumber} {branch : Branch}

/-- No page from this row of branches on upwards is a child of the branch. -/
theorem not_child (widened : Widened view root levels front region back above branch row)
    {page : PageNumber} (listed : page ∈ (front ++ region :: back).map Prod.fst ++ above) :
    page ∉ branch.children := fun isChild =>
  (List.nodup_append'.mp widened.distinct).2.2 (widened.child_in_row isChild) listed

theorem region_listed : region.1 ∈ (front ++ region :: back).map Prod.fst ++ above := by simp

theorem ne_region (widened : Widened view root levels front region back above branch row)
    {place : Region} (other : place ∈ front ++ back) : place.1 ≠ region.1 := by
  intro same
  refine not_mem_others (List.nodup_append'.mp widened.distinct).2.1 (List.mem_append_left _ ?_)
  exact same ▸ List.mem_map_of_mem other

theorem region_not_above
    (widened : Widened view root levels front region back above branch row) : region.1 ∉ above :=
  fun higher => not_mem_others (List.nodup_append'.mp widened.distinct).2.1
    (List.mem_append_right _ higher)

/-- The crown above sees only where the branch hangs. -/
theorem crown_of (widened : Widened view root levels front region back above branch row)
    {nodes' : Nodes} {branch' : Branch}
    (still : ∀ page ∈ (front ++ region :: back).map Prod.fst ++ above, page ≠ region.1 →
      nodes' page = view.nodes page)
    (found : nodes' region.1 = .ok (.branch branch')) (parent : branch'.parent = branch.parent)
    (rootMark : branch'.rootMark = branch.rootMark) :
    Crown nodes' root levels (front ++ region :: back) above := by
  refine widened.crown.congr_except widened.region_not_above still ?_
  rintro above ⟨other, present, hung, marked⟩
  cases widened.found.symm.trans present
  exact ⟨_, found, parent.trans hung, rootMark.trans marked⟩

section Divide

variable (widened : Widened view root levels front region back above branch row)
  (room : view.pagesInUse < view.limit.toNat)
include widened

theorem child_inUse {child : PageNumber} (isChild : child ∈ branch.children) :
    child.toNat < view.pagesInUse ∧ child ≠ region.1 := by
  have inRow := widened.child_in_row isChild
  refine ⟨widened.inUse (List.mem_append_left _ inRow), ?_⟩
  rintro rfl
  exact widened.not_child region_listed isChild

theorem nodes_divided_region :
    (view.divided region.1 branch).nodes region.1 = .ok (.branch branch.divide.1) :=
  View.nodes_divided_self (widened.not_child region_listed)

include room

/-- A cut of the branch leaves the other branches of its row alone, and those above. -/
theorem nodes_divided_upward {page : PageNumber}
    (listed : page ∈ (front ++ region :: back).map Prod.fst ++ above) (notHere : page ≠ region.1) :
    (view.divided region.1 branch).nodes page = view.nodes page :=
  View.nodes_divided_of_ne room (widened.inUse (List.mem_append_right _ listed)) notHere
    (widened.not_child listed)

theorem nodes_divided_fresh :
    (view.divided region.1 branch).nodes view.fresh = .ok (.branch branch.divide.2) :=
  View.nodes_divided_fresh
    (View.ne_fresh room (widened.inUse (List.mem_append_right _ region_listed))) fun isChild =>
      View.ne_fresh room (widened.child_inUse isChild).1 rfl

theorem changed : ChangedAbove view (view.divided region.1 branch) row
    ((front ++ region :: back).map Prod.fst ++ above)
    ((cutRow front region branch.median view.fresh back).map Prod.fst ++ above) where
  regular := (widened.regular.split room widened.found).reparented
  grew := ⟨rfl, rfl, rfl, Nat.le_succ _⟩
  pages page := by
    have isFresh : page = view.fresh ↔
        view.pagesInUse ≤ page.toNat ∧ page.toNat < view.pagesInUse + 1 := by
      rw [← UInt32.toNat_inj, View.toNat_fresh room]
      omega
    have same := (map_fst_cutRow_perm front back region branch.median view.fresh).mem_iff
      (a := page)
    rw [List.mem_append, same, List.mem_cons, isFresh, List.mem_append, or_assoc, or_comm]
    rfl
  distinct := by
    have moved := map_fst_cutRow_perm front back region branch.median view.fresh
    refine ((moved.append_right above).append_left (row.map Prod.fst)).nodup_iff.mpr ?_
    rw [List.cons_append, List.nodup_middle, List.nodup_cons]
    exact ⟨fun member => View.ne_fresh room (widened.inUse member) rfl, widened.distinct⟩
  others page inUse absent := by
    rw [List.mem_append, not_or] at absent
    refine View.nodes_divided_of_ne room inUse ?_ fun isChild =>
      absent.1 (widened.child_in_row isChild)
    rintro rfl
    exact absent.2 region_listed
  bodies page inUse absent := by
    refine View.map_detached_divided room inUse ?_
    rintro rfl
    exact absent region_listed

theorem lower_hangs {child : PageNumber} (isLower : child ∈ branch.divide.1.children) :
    Hangs (view.divided region.1 branch).nodes (some region.1) child := by
  have isChild := List.mem_of_mem_take isLower
  obtain ⟨inUse, notHere⟩ := widened.child_inUse isChild
  have distinct : branch.children.Nodup := by
    have children := (List.nodup_append'.mp widened.distinct).1
    rw [widened.row_eq, List.map_append, List.map_append,
      Branch.map_fst_regions widened.matched] at children
    exact (List.nodup_append'.mp (List.nodup_append'.mp children).2.1).1
  exact View.hangs_divided_lower room inUse notHere distinct isLower (widened.hang child isChild)

theorem upper_hangs {child : PageNumber} (isUpper : child ∈ branch.divide.2.children) :
    Hangs (view.divided region.1 branch).nodes (some view.fresh) child := by
  have isChild := List.mem_of_mem_drop isUpper
  obtain ⟨inUse, notHere⟩ := widened.child_inUse isChild
  exact View.hangs_divided_upper room inUse notHere isUpper (widened.hang child isChild)

theorem other_divided {place : Region} (other : place ∈ front ++ back) :
    BranchAt (view.divided region.1 branch).nodes 254 place ∧
      regionsBelow (view.divided region.1 branch).nodes place =
        regionsBelow view.nodes place := by
  have branchAt := widened.branches place other
  rw [widened.crown.fewest_of_other other] at branchAt
  have listed : place.1 ∈ (front ++ region :: back).map Prod.fst ++ above :=
    List.mem_append_left _ (List.mem_map_of_mem (mem_row_iff.mpr (.inr other)))
  have still : (view.divided region.1 branch).nodes place.1 = view.nodes place.1 :=
    View.nodes_divided_of_ne room (widened.inUse (List.mem_append_right _ listed))
      (widened.ne_region other) (widened.not_child listed)
  refine branchAt.of_detached (by rw [still]) fun child isChild hangs => hangs.congr ?_
  obtain ⟨inRow, notHere⟩ := widened.other_child other isChild
  refine View.nodes_divided_of_ne room (widened.inUse (List.mem_append_left _ inRow)) ?_ notHere
  rintro rfl
  exact (List.nodup_append'.mp widened.distinct).2.2 inRow region_listed

theorem inUse_divided (page : PageNumber) (member : page ∈ row.map Prod.fst ++
      ((cutRow front region branch.median view.fresh back).map Prod.fst ++ above)) :
    page.toNat < view.pagesInUse + 1 := by
  have moved := map_fst_cutRow_perm front back region branch.median view.fresh
  rw [((moved.append_right above).append_left (row.map Prod.fst)).mem_iff, List.cons_append,
    List.perm_middle.mem_iff, List.mem_cons] at member
  rcases member with rfl | listed
  · rw [View.toNat_fresh room]
    exact Nat.lt_succ_self _
  · exact Nat.lt_succ_of_lt (widened.inUse listed)

omit room in
/-- A branch that is too large is cut within its range. -/
theorem admits_median (large : Page.size < branch.size) : region.2.Admits branch.median :=
  (Branch.separates_divide (Branch.several_separators widened.matched large)
    widened.separates).1

/-- Both halves can stand in the row of branches, and the row below is what it was. -/
theorem halves (large : Page.size < branch.size) :
    (∀ place ∈ cutRow front region branch.median view.fresh back,
      BranchAt (view.divided region.1 branch).nodes 254 place) ∧
    row = (cutRow front region branch.median view.fresh back).flatMap
      (regionsBelow (view.divided region.1 branch).nodes) := by
  have matched := widened.matched
  have several := Branch.several_separators matched large
  obtain ⟨lowerMatched, upperMatched⟩ := Branch.matched_divide several matched
  obtain ⟨-, lowerSeparates, upperSeparates⟩ :=
    Branch.separates_divide several widened.separates
  obtain ⟨⟨lowerFilled, lowerRoom⟩, upperFilled, upperRoom⟩ :=
    Branch.canGrow_divide matched large widened.almost
  rw [Branch.canGrow, decide_eq_true_iff] at lowerRoom upperRoom
  have lowerHere := widened.nodes_divided_region
  have upperHere := widened.nodes_divided_fresh room
  have lowerRegions :=
    @regionsBelow_branch _ (region.1, region.2.below branch.median) _ lowerHere
  have upperRegions :=
    @regionsBelow_branch _ (view.fresh, region.2.above branch.median) _ upperHere
  constructor
  · intro place member
    rcases mem_cutRow.mp member with other | rfl | rfl
    · exact (widened.other_divided room other).1
    · exact ⟨_, lowerHere, ⟨lowerMatched, lowerSeparates, by omega⟩, lowerFilled,
        fun child => widened.lower_hangs room⟩
    · exact ⟨_, upperHere, ⟨upperMatched, upperSeparates, by omega⟩, upperFilled,
        fun child => widened.upper_hangs room⟩
  · have unchanged : ∀ places ⊆ front ++ back, places.flatMap (regionsBelow view.nodes) =
        places.flatMap (regionsBelow (view.divided region.1 branch).nodes) := fun places other =>
      List.flatMap_congr fun place member =>
        (widened.other_divided room (other member)).2.symm
    rw [widened.row_eq, unchanged front (List.subset_append_left ..),
      unchanged back (List.subset_append_right ..), ← Branch.regions_divide several matched,
      cutRow, List.flatMap_append, List.flatMap_cons, List.flatMap_cons, lowerRegions,
      upperRegions, List.append_assoc (branch.divide.1.regions _)]

end Divide

end Widened

/-- A row of branches and the row below it come through a change above the branches. -/
theorem ChangedAbove.branches {before after : View} {upper row : List Region}
    {above above' : List PageNumber} {fewest : Nat}
    (change : ChangedAbove before after upper above above')
    (distinct : (row.map Prod.fst ++ (upper.map Prod.fst ++ above)).Nodup)
    (inUse : ∀ page ∈ row.map Prod.fst ++ upper.map Prod.fst, page.toNat < before.pagesInUse)
    (branches : ∀ place ∈ upper, BranchAt before.nodes fewest place)
    (parts : row = upper.flatMap (regionsBelow before.nodes)) :
    (∀ place ∈ upper, BranchAt after.nodes fewest place) ∧
      row = upper.flatMap (regionsBelow after.nodes) := by
  obtain ⟨-, upwards, rowApart⟩ := List.nodup_append'.mp distinct
  have upperApart := (List.nodup_append'.mp upwards).2.2
  have same : ∀ place ∈ upper, BranchAt after.nodes fewest place ∧
      regionsBelow after.nodes place = regionsBelow before.nodes place := by
    intro place member
    have listed := List.mem_map_of_mem (f := Prod.fst) member
    refine (branches place member).of_detached ?_ fun child isChild hangs => hangs.congr ?_
    · exact change.bodies place.1 (inUse _ (List.mem_append_right _ listed)) (upperApart listed)
    · have inRow : child ∈ row.map Prod.fst := by
        rw [parts, List.map_flatMap]
        exact List.mem_flatMap.mpr ⟨place, member, isChild⟩
      exact change.others child (inUse _ (List.mem_append_left _ inRow)) (rowApart inRow)
  refine ⟨fun place member => (same place member).1, ?_⟩
  rw [parts]
  exact List.flatMap_congr fun place member => (same place member).2.symm

/-- A crown that is put over the row of branches with both halves is one over the row below too. -/
theorem Widened.crown_of_halves {view after : View} {root root' : PageNumber}
    {levels levels' : Nat} {front back row : List Region} {region : Region}
    {above above' : List PageNumber} {branch : Branch}
    (widened : Widened view root levels front region back above branch row)
    (room : view.pagesInUse < view.limit.toNat) (large : Page.size < branch.size)
    (positive : 0 < levels')
    (crown : Crown after.nodes root' levels'
      (cutRow front region branch.median view.fresh back) above')
    (higher : ChangedAbove (view.divided region.1 branch) after
      (cutRow front region branch.median view.fresh back) above above') :
    Crown after.nodes root' (levels' + 1) row
        ((cutRow front region branch.median view.fresh back).map Prod.fst ++ above') ∧
      ChangedAbove view after row ((front ++ region :: back).map Prod.fst ++ above)
        ((cutRow front region branch.median view.fresh back).map Prod.fst ++ above') := by
  have cut := widened.changed room
  have inUse := widened.inUse_divided room
  obtain ⟨branches, parts⟩ := widened.halves room large
  constructor
  · obtain ⟨branches, parts⟩ := higher.branches cut.distinct (fun page member => inUse page (by
      rw [← List.append_assoc]
      exact List.mem_append_left _ member)) branches parts
    obtain ⟨fewer, rfl⟩ := Nat.exists_eq_succ_of_ne_zero (Nat.ne_of_gt positive)
    exact .row crown branches parts
  · refine cut.trans (higher.lower cut.distinct fun page member => ?_)
    exact inUse page (List.mem_append_left _ member)

end RowStore
