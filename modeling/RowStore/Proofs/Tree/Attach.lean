import RowStore.Proofs.Tree.Budget
import RowStore.Proofs.Tree.Rows

/-!
# Entering a new page above a row

After a page was cut, its upper half is a page that no branch has as a child yet.
Entering it cuts branches on the way up as far as necessary and may end with a new
root. What comes out of it is a crown over the row with the region of the page cut
in two, with as many pages more as were counted for it beforehand, and one more row of
branches if that many pages were counted that all rows had a part in it
(`Pending.attachWithin`).

The induction is on the levels, from the row upwards. At each level the branch that
takes the new page has either room for it, or is cut in two itself; then its upper
half is the new page for the row of branches.
-/

set_option autoImplicit false

namespace RowStore

open Store RowStore.Tree

/-- A crown over a row, and a page that is in no row yet. -/
structure Pending (view : View) (root : PageNumber) (levels : Nat) (row : List Region)
    (above : List PageNumber) (upper : PageNumber) : Prop where
  regular : view.Regular
  crown : Crown view.nodes root levels row above
  distinct : (row.map Prod.fst ++ above).Nodup
  apart : upper ∉ row.map Prod.fst ++ above
  unmarked : ∃ node, view.nodes upper = .ok node ∧ node.rootMark = false

section Enter

variable {view : View} {root id lower upper : PageNumber} {levels : Nat} {part : KeyRange}
  {front back front' back' near far : List Region} {region : Region} {above : List PageNumber}
  {branch : Branch} {node : Node} {separator : Key}

/-- After a cut of the branch, its upper half waits to be entered one row higher. -/
theorem Widened.pending {row : List Region}
    (widened : Widened view root levels front region back above branch row)
    (room : view.pagesInUse < view.limit.toNat) :
    Pending (view.divided region.1 branch) root levels (front ++ region :: back) above
      view.fresh where
  regular := (widened.changed room).regular
  crown := widened.crown_of (fun _ => widened.nodes_divided_upward room)
    widened.nodes_divided_region rfl rfl
  distinct := (List.nodup_append'.mp widened.distinct).2.1
  apart listed := View.ne_fresh room (widened.inUse (List.mem_append_right _ listed)) rfl
  unmarked := ⟨_, widened.nodes_divided_fresh room, rfl⟩

/-- Cutting a branch of the crown needs one page and nothing else: all its children can be
loaded. -/
theorem Widened.divideBranch {row : List Region}
    (widened : Widened view root levels front region back above branch row)
    (large : Page.size < branch.size)
    {done : Key × PageNumber → View → Prop} {failed : Fault → View → Prop}
    (cut : view.pagesInUse < view.limit.toNat →
      done (branch.median, view.fresh) (view.divided region.1 branch))
    (full : view.limit.toNat ≤ view.pagesInUse →
      failed (.shortage (.pages view.limit)) view) :
    Promises view (Tree.divideBranch region.1) done failed := by
  have several := Branch.several_separators widened.matched large
  refine .divideBranch (widened.regular.closed _ _ widened.found) widened.found
    (List.ne_nil_of_length_pos (by omega)) cut full ?_
  rintro fault after aboutPage ⟨child, moved, missing⟩
  obtain ⟨node, present, -⟩ := widened.hang child (List.mem_of_mem_drop moved)
  obtain ⟨other, still⟩ := View.exists_nodes_split present
  exact absurd still (missing other)

/-- Where nothing is above, the root is the whole row. -/
theorem Pending.eq_root (pending : Pending view root 0 (front ++ (lower, part) :: back) above
    upper) :
    front = [] ∧ (lower, part) = ((root, {}) : Region) ∧ back = [] ∧ above = [] := by
  have crown := pending.crown
  generalize whole : front ++ (lower, part) :: back = row at crown
  cases crown with
  | root hangs =>
    rcases List.append_eq_cons_iff.mp whole with ⟨rfl, here⟩ | ⟨rest, -, short⟩
    · obtain ⟨same, none⟩ := List.cons.inj here
      exact ⟨rfl, same, none, rfl⟩
    · exact absurd short (by simp)

/-- The branch above a page of a row, as a branch that has not grown yet. -/
theorem Pending.exists_parent (pending : Pending view root (levels + 1)
    (front ++ (lower, part) :: back) above upper) :
    ∃ front' region back' above' branch near far,
      above = (front' ++ region :: back').map Prod.fst ++ above' ∧
      Widened view root levels front' region back' above' branch
        (front ++ (lower, part) :: back) ∧
      branch.size ≤ Page.size ∧
      branch.regions region.2 = near ++ (lower, part) :: far ∧
      front = front'.flatMap (regionsBelow view.nodes) ++ near ∧
      back = far ++ back'.flatMap (regionsBelow view.nodes) := by
  obtain ⟨regular, crown, distinct, -, -⟩ := pending
  generalize whole : front ++ (lower, part) :: back = row at crown distinct ⊢
  cases crown with
  | @row levels upperRow row above' crown branches parts =>
    obtain ⟨front', region, back', near, far, rfl, here, atFront, atBack⟩ :=
      exists_piece_of_flatMap (whole.trans parts).symm
    obtain ⟨branch, found, fits, filled, hang⟩ := branches region (by simp)
    rw [regionsBelow_branch found] at here
    refine ⟨front', region, back', above', branch, near, far, rfl, ?_, fits.small, here, atFront,
      atBack⟩
    have others : front' ++ back' ⊆ front' ++ region :: back' := by simp
    exact ⟨regular, crown, found, fits.matched, fits.separates, Nat.le_add_right_of_le fits.small,
      filled, hang, fun place other => branches place (others other), parts, distinct⟩

section

variable
  (apart : upper ∉ (front ++ (lower, part) :: back).map Prod.fst ++
    ((front' ++ region :: back').map Prod.fst ++ above))
include apart

theorem nodes_entered_upward {page : PageNumber}
    (listed : page ∈ (front' ++ region :: back').map Prod.fst ++ above)
    (notRegion : page ≠ region.1) (grown : Branch) :
    (view.entered region.1 grown upper node).nodes page = view.nodes page := by
  refine View.nodes_entered_of_ne notRegion ?_
  rintro rfl
  exact apart (List.mem_append_right _ listed)

theorem nodes_entered_region (grown : Branch) :
    (view.entered region.1 grown upper node).nodes region.1 = .ok (.branch grown) := by
  refine View.nodes_entered_branch ?_
  rintro rfl
  exact apart (List.mem_append_right _ Widened.region_listed)

variable
  (widened : Widened view root levels front' region back' above branch
    (front ++ (lower, part) :: back))
include widened

theorem Widened.nodes_entered_row {page : PageNumber}
    (inRow : page ∈ (front ++ (lower, part) :: back).map Prod.fst) (grown : Branch) :
    (view.entered region.1 grown upper node).nodes page = view.nodes page := by
  refine View.nodes_entered_of_ne ?_ ?_
  · rintro rfl
    exact (List.nodup_append'.mp widened.distinct).2.2 inRow region_listed
  · rintro rfl
    exact apart (List.mem_append_left _ inRow)

variable (found : view.nodes upper = .ok node)
include found

theorem Widened.changed_entered (separator : Key) (grown : Branch) :
    ChangedAbove view (view.entered region.1 grown upper node)
      (cutRow front (lower, part) separator upper back)
      ((front' ++ region :: back').map Prod.fst ++ above)
      ((front' ++ region :: back').map Prod.fst ++ above) where
  regular := (widened.regular.put _ (widened.regular.closed _ _ widened.found)).put _
    (widened.regular.closed _ _ found)
  grew := ⟨rfl, rfl, rfl, Nat.le_refl _⟩
  pages page := by
    constructor
    · exact Or.inl
    · rintro (listed | ⟨fresh, inUse⟩)
      · exact listed
      · exact absurd inUse (Nat.not_lt.mpr fresh)
  distinct := by
    have added := map_fst_cutRow_perm front back (lower, part) separator upper
    rw [(added.append_right _).nodup_iff, List.cons_append, List.nodup_cons]
    exact ⟨apart, widened.distinct⟩
  others page inUse absent := by
    have added := map_fst_cutRow_perm front back (lower, part) separator upper
    rw [List.mem_append, added.mem_iff, List.mem_cons, not_or, not_or] at absent
    refine View.nodes_entered_of_ne ?_ absent.1.1
    rintro rfl
    exact absent.2 region_listed
  bodies page inUse absent := by
    have notRegion : page ≠ region.1 := by
      rintro rfl
      exact absent region_listed
    exact (View.Rehung.entered found).bodies page inUse notRegion

omit found in
theorem Widened.other_entered (grown : Branch) {place : Region} (other : place ∈ front' ++ back') :
    BranchAt (view.entered region.1 grown upper node).nodes (fewestSeparators levels) place ∧
      regionsBelow (view.entered region.1 grown upper node).nodes place =
        regionsBelow view.nodes place := by
  have listed : place.1 ∈ (front' ++ region :: back').map Prod.fst ++ above :=
    List.mem_append_left _ (List.mem_map_of_mem (mem_row_iff.mpr (.inr other)))
  have still : (view.entered region.1 grown upper node).nodes place.1 = view.nodes place.1 :=
    nodes_entered_upward apart listed (widened.ne_region other) grown
  refine (widened.branches place other).of_detached (by rw [still]) fun child isChild hangs => ?_
  exact hangs.congr (widened.nodes_entered_row apart (widened.other_child other isChild).1 grown)

/-- A child that is entered below a branch cuts a region of the row. -/
theorem Widened.enter (unmarked : node.rootMark = false) (small : branch.size ≤ Page.size)
    (admits : part.Admits separator)
    (here : branch.regions region.2 = near ++ (lower, part) :: far)
    (atFront : front = front'.flatMap (regionsBelow view.nodes) ++ near)
    (atBack : back = far ++ back'.flatMap (regionsBelow view.nodes)) :
    Widened (view.entered region.1 (branch.insert separator upper) upper node) root levels front'
      region back' above (branch.insert separator upper)
      (cutRow front (lower, part) separator upper back) := by
  have matched := Branch.matched_insert widened.matched separator upper
  have count := branch.length_separators_insert separator upper
  have atRegion : (view.entered region.1 (branch.insert separator upper) upper node).nodes
      region.1 = .ok (.branch (branch.insert separator upper)) := nodes_entered_region apart _
  have change := widened.changed_entered apart found separator
    (branch.insert separator upper)
  refine ⟨change.regular, ?_, atRegion, matched,
    Branch.separates_insert widened.separates admits here upper, ?_, ?_, ?_,
    fun place other => (widened.other_entered apart _ other).1, ?_, change.distinct⟩
  · exact widened.crown_of
      (fun page listed notHere => nodes_entered_upward apart listed notHere _) atRegion rfl rfl
  · rw [Branch.size_insert widened.matched]
    exact Nat.add_le_add_right small _
  · exact Nat.le_trans widened.filled (count ▸ Nat.le_succ _)
  · intro child isChild
    rcases List.eq_or_mem_of_mem_insertIdx isChild with rfl | old
    · exact ⟨_, View.nodes_put_self .., node.parent_withParent _,
        (node.rootMark_withParent _).trans unmarked⟩
    · exact (widened.hang child old).congr
        (widened.nodes_entered_row apart (widened.child_in_row old) _)
  · have unchanged : ∀ places ⊆ front' ++ back', places.flatMap (regionsBelow view.nodes) =
        places.flatMap (regionsBelow (view.entered region.1 (branch.insert separator upper) upper
          node).nodes) := fun places other => List.flatMap_congr fun place member =>
      (widened.other_entered apart _ (other member)).2.symm
    rw [cutRow, atFront, atBack, List.flatMap_append, List.flatMap_cons,
      regionsBelow_branch atRegion, Branch.regions_insert widened.separates admits here,
      ← unchanged front' (List.subset_append_left ..),
      ← unchanged back' (List.subset_append_right ..)]
    simp only [List.append_assoc, List.cons_append]

end

/-! ## A new root -/

section NewRoot

variable {node' : Node}
variable (pending : Pending view root 0 [(root, {})] [] upper)
  (room : view.pagesInUse < view.limit.toNat) (atRoot : view.nodes root = .ok node)
  (atUpper : view.nodes upper = .ok node')
include pending

theorem Pending.ne_root : upper ≠ root := by
  rintro rfl
  exact pending.apart (List.mem_append_left _ List.mem_cons_self)

include room atRoot atUpper

/-- A new root and the two pages below it. -/
theorem Pending.crown_crowned (separator : Key) :
    Crown (view.crowned root node separator upper node').nodes view.fresh 1
      (cutRow [] (root, {}) separator upper []) [view.fresh] := by
  have closed := pending.regular.closed
  have atFresh : (view.crowned root node separator upper node').nodes view.fresh = .ok (.branch {
      rootMark := true, separators := [separator], children := [root, upper] }) :=
    View.nodes_crowned_fresh (View.ne_fresh room (closed root node atRoot))
      (View.ne_fresh room (closed upper node' atUpper))
  obtain ⟨other, present, unmarked⟩ := pending.unmarked
  cases atUpper.symm.trans present
  refine .row (.root ⟨_, atFresh, rfl, rfl⟩ : Crown _ view.fresh 0 [(view.fresh, {})] []) ?_ ?_
  · intro region member
    rw [List.mem_singleton.mp member]
    have small : 14 + 4 * 1 + 4 * 2 ≤ Page.size := by decide
    refine ⟨_, atFresh, ⟨rfl, ?_, small⟩, Nat.le_refl _, ?_⟩
    · exact .cons (KeyRange.contains_unbounded _)
        (fun other member => absurd member List.not_mem_nil) (.nil _)
    · intro child isChild
      obtain ⟨rootHangs, upperHangs⟩ :=
        View.hangs_crowned view node separator pending.ne_root unmarked
      rcases List.mem_cons.mp isChild with rfl | isUpper
      · exact rootHangs
      · rw [List.mem_singleton.mp isUpper]
        exact upperHangs
  · rw [List.flatMap_singleton, regionsBelow_branch atFresh]
    rfl

/-- A new root is the only new page, and changes only where the two pages hang. -/
theorem Pending.changed_crowned (separator : Key) :
    ChangedAbove view (view.crowned root node separator upper node')
      (cutRow [] (root, {}) separator upper []) [] [view.fresh] := by
  have closed := pending.regular.closed
  have apart := pending.ne_root
  have rootOld := View.ne_fresh room (closed root node atRoot)
  have upperOld := View.ne_fresh room (closed upper node' atUpper)
  have rehung := View.Rehung.crowned atRoot atUpper apart separator
  have pages : (view.crowned root node separator upper node').pagesInUse =
      view.pagesInUse + 1 := rfl
  refine ⟨pending.regular.crowned room atRoot atUpper, ⟨rfl, rfl, rfl, Nat.le_succ _⟩,
    fun page => ?_, ?_, ?_, ?_⟩
  · rw [List.mem_singleton, ← UInt32.toNat_inj, View.toNat_fresh room, pages]
    simp only [List.not_mem_nil, false_or]
    omega
  · simp [cutRow, apart.symm, rootOld, upperOld]
  · intro page inUse absent
    refine rehung.others page inUse (View.ne_fresh room inUse) ?_
    simpa [cutRow] using absent
  · exact fun page inUse _ => rehung.bodies page inUse (View.ne_fresh room inUse)

end NewRoot

/-- Where nothing is above, a new root is put above the two pages. -/
theorem Pending.growRoot (pending : Pending view root 0 [(root, {})] [] upper) :
    Promises view (Tree.growRoot root separator upper)
      (fun tree after => after.pagesInUse = view.pagesInUse + 1 ∧
        Crown after.nodes tree.root 1 (cutRow [] (root, {}) separator upper []) [tree.root] ∧
        ChangedAbove view after (cutRow [] (root, {}) separator upper []) [] [tree.root])
      (fun fault _ => fault.isDamage = false) := by
  obtain ⟨node, atRoot, -, -⟩ := pending.crown.hangs_root
  obtain ⟨node', atUpper, -⟩ := pending.unmarked
  refine .growRoot_of pending.regular.closed atRoot atUpper pending.ne_root (fun room => ?_)
    fun full => rfl
  exact ⟨rfl, pending.crown_crowned room atRoot atUpper separator,
    pending.changed_crowned room atRoot atUpper separator⟩

/-! ## All the way up -/

/-- How many pages the cuts above a page of a row take depends on the branches of the crown only. -/
theorem Crown.pagesAbove_congr {nodes nodes' : Nodes} {row : List Region}
    (crown : Crown nodes root levels row above) (member : region ∈ row)
    {parent : Option PageNumber} (hangs : Hangs nodes parent region.1)
    (same : ∀ page ∈ above, nodes' page = nodes page) {needed : Nat}
    (counted : PagesAbove nodes parent needed) : PagesAbove nodes' parent needed := by
  induction crown generalizing region parent needed with
  | root top =>
    rw [List.mem_singleton.mp member] at hangs
    cases hangs.unique top
    cases counted
    exact .root
  | @row levels upper row above crown branches parts ih =>
    obtain ⟨place, inUpper, hung⟩ := exists_parent branches (parts ▸ member)
    cases hangs.unique hung
    have still : nodes' place.1 = nodes place.1 :=
      same _ (List.mem_append_left _ (List.mem_map_of_mem inUpper))
    cases counted with
    | room found room => exact .room (still.trans found) room
    | full found full counted =>
      have higher : ∀ page ∈ above, nodes' page = nodes page := fun page listed =>
        same page (List.mem_append_right _ listed)
      exact .full (still.trans found) full
        (ih inUpper (crown.hangs_of inUpper found) higher counted)

/-- Once a page is entered below a branch and the branch is cut, the lower half hangs where the
branch did, and cuts above it take as many pages. -/
theorem Widened.counted_divided {row : List Region}
    (widened : Widened view root levels front' region back' above branch
      (front ++ (lower, part) :: back))
    (apart : upper ∉ (front ++ (lower, part) :: back).map Prod.fst ++
      ((front' ++ region :: back').map Prod.fst ++ above))
    (entered : Widened (view.entered region.1 (branch.insert separator upper) upper node) root
      levels front' region back' above (branch.insert separator upper) row)
    (room : view.pagesInUse < view.limit.toNat) {needed : Nat}
    (counted : PagesAbove view.nodes branch.parent needed) :
    Hangs ((view.entered region.1 (branch.insert separator upper) upper node).divided region.1
        (branch.insert separator upper)).nodes branch.parent region.1 ∧
      PagesAbove ((view.entered region.1 (branch.insert separator upper) upper node).divided
        region.1 (branch.insert separator upper)).nodes branch.parent needed := by
  have inUpper : region ∈ front' ++ region :: back' := by simp
  obtain ⟨_, _, present, rfl, marked⟩ := widened.crown.hangs region inUpper
  cases widened.found.symm.trans present
  refine ⟨⟨_, entered.nodes_divided_region, rfl, marked⟩,
    widened.crown.pagesAbove_congr inUpper ⟨_, widened.found, rfl, marked⟩ ?_ counted⟩
  intro page higher
  have listed : page ∈ (front' ++ region :: back').map Prod.fst ++ above :=
    List.mem_append_right _ higher
  have notHere : page ≠ region.1 := by
    rintro rfl
    exact widened.region_not_above higher
  exact (entered.nodes_divided_upward room listed notHere).trans
    (nodes_entered_upward apart listed notHere _)

/-- **Entering a new page above a row makes a crown over the row with the new page.** It takes as
many pages as were counted for a page that hangs where the lower half does. -/
theorem Pending.attachWithin (pending : Pending view root levels (front ++ (lower, part) :: back)
    above upper) (admits : part.Admits separator) {parent : Option PageNumber}
    (hangs : Hangs view.nodes parent lower) {needed : Nat}
    (counted : PagesAbove view.nodes parent needed) (budget : Nat) :
    Promises view (Tree.attachWithin { root } budget lower separator upper)
      (fun tree after => after.pagesInUse = view.pagesInUse + needed ∧ 0 < max levels needed ∧
        ∃ above',
          Crown after.nodes tree.root (max levels needed)
            (cutRow front (lower, part) separator upper back) above' ∧
          ChangedAbove view after (cutRow front (lower, part) separator upper back) above above')
      (fun fault _ => fault.isDamage = false) := by
  induction levels generalizing view front lower part back above upper separator parent needed
    budget with
  | zero =>
    obtain ⟨rfl, same, rfl, rfl⟩ := pending.eq_root
    cases same
    cases hangs.unique pending.crown.hangs_root
    cases counted
    obtain ⟨node, found, free, -⟩ := pending.crown.hangs_root
    rw [Tree.attachWithin_eq]
    refine .bind (.load_of found ?_)
    rw [free]
    dsimp only
    refine pending.growRoot.weaken (fun tree after done => ?_) fun _ _ failed => failed
    exact ⟨done.1, Nat.one_pos, [tree.root], done.2⟩
  | succ levels ih =>
    obtain ⟨front', region, back', above', branch, near, far, rfl, widened, small, here, atFront,
      atBack⟩ := pending.exists_parent
    obtain ⟨node, found, unmarked⟩ := pending.unmarked
    have apart := pending.apart
    have isChild : lower ∈ branch.children := by
      rw [← Branch.map_fst_regions widened.matched, here]
      simp
    cases hangs.unique (widened.hang lower isChild)
    obtain ⟨child, childFound, hung, -⟩ := hangs
    have apartRegion : upper ≠ region.1 := fun same =>
      apart (List.mem_append_right _ (same ▸ Widened.region_listed))
    have entered := widened.enter apart found unmarked small admits here atFront atBack
    have change := widened.changed_entered apart found separator
      (branch.insert separator upper)
    have isFull := Branch.canGrow_eq_false_iff widened.matched separator upper
    rw [Tree.attachWithin_eq_enterAbove]
    -- The count went on above the branch exactly if the branch is cut now.
    refine .enterAbove_of childFound hung widened.found
      (Branch.getElem?_position widened.separates admits here) apartRegion found (fun fitting => ?_)
      fun large => ?_
    · cases counted with
      | full present full =>
        cases widened.found.symm.trans present
        exact absurd fitting (Nat.not_le.mpr (isFull.mp full))
      | room => exact ⟨rfl, Nat.succ_pos _, _, entered.settled fitting, change⟩
    · cases counted with
      | room present room =>
        cases widened.found.symm.trans present
        rw [isFull.mpr large] at room
        cases room
      | @full _ _ needed present full counted =>
        cases widened.found.symm.trans present
        refine .bind (entered.divideBranch large (fun room => ?_) fun full => rfl)
        cases budget with
        | zero => exact .bind (.get fun store same => .throw rfl)
        | succ budget =>
          -- The upper half of the branch is pending in the row of branches, one level higher.
          obtain ⟨hangs, counted⟩ := widened.counted_divided apart entered room counted
          refine (ih (entered.pending room) (entered.admits_median large) hangs counted
            budget).weaken ?_ fun _ _ failed => failed
          rintro tree after ⟨pages, positive, above'', crown, higher⟩
          obtain ⟨crown, above⟩ := entered.crown_of_halves room large positive crown higher
          refine ⟨pages.trans (Nat.succ_add_eq_add_succ ..), ?_, _, ?_, change.trans above⟩
          · exact Nat.lt_of_lt_of_le (Nat.succ_pos _) (Nat.le_max_left ..)
          · rw [Nat.add_max_add_right]
            exact crown

end Enter

end RowStore
