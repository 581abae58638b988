import RowStore.Proofs.Tree.Around
import RowStore.Proofs.Tree.Conservation
import RowStore.Proofs.Tree.Rows

/-!
# Parts of a tree that are cut in two

When a node of a tree is cut, its upper half is a page that no branch has as a child yet: the tree
has room for one part where two stand (`Forked`). Such a fork goes up the tree. Once the branch
above it has taken the new page as a child, all that is below this branch is in order again
(`Forked.exists_parent`, `ForkedBelow.placed`). If the branch has become too large, it is cut
itself, and the fork is one level higher (`Placed.fork`). At the root, a new root is put above the
two parts (`Forked.crowned`).

No step loses or adds a landmark: the landmarks of the fork at one level, with those around it, are
those of the fork at the next. The nodes that a step changes are its branch and, but for their
parents, no others (`View.Rehung`); so all parts that are below it stay what they are.
-/

set_option autoImplicit false

namespace RowStore

open Store Landmark

/-- The regions of a page and of a new one, if the region of the page is cut between them. -/
def cutRegion (region : Region) (separator : Key) (upper : PageNumber) : List Region :=
  [(region.1, region.2.below separator), (upper, region.2.above separator)]

theorem cutRow_eq (front back : List Region) (region : Region) (separator : Key)
    (upper : PageNumber) :
    cutRow front region separator upper back =
      front ++ (cutRegion region separator upper ++ back) := rfl

/-! ## What a step leaves alone -/

namespace View.Rehung

variable {before after : View} {root id : PageNumber} {height levels : Nat} {region : Region}
  {moved others : List PageNumber} {front back : List Landmark}

/-- The parts stay what they are if only their tops move. -/
theorem samePart (rehung : before.Rehung after id moved) (closed : before.Closed)
    {places : List Region} (parts : ∀ place ∈ places, Ordered before.nodes height place)
    (distinct : (id :: places.flatMap fun place => pagesBelow before.nodes height place.1).Nodup)
    (among : moved ⊆ places.map Prod.fst) :
    ∀ place ∈ places, SamePart before.nodes after.nodes height place := by
  intro place member
  obtain ⟨absent, distinct⟩ := List.nodup_cons.mp distinct
  have inUse : ∀ page ∈ pagesBelow before.nodes height place.1,
      page.toNat < before.pagesInUse := by
    intro page below
    obtain ⟨node, found⟩ := (parts place member).exists_node page below
    exact closed page node found
  have apart : ∀ page ∈ pagesBelow before.nodes height place.1, page ≠ id := by
    rintro page below rfl
    exact absent (List.mem_flatMap.mpr ⟨place, member, below⟩)
  have top := (parts place member).mem_pagesBelow
  refine (parts place member).kept
    ⟨rehung.bodies _ (inUse _ top) (apart _ top), fun page inTail => ?_⟩
  have below := List.mem_of_mem_tail inTail
  refine rehung.others page (inUse page below) (apart page below) fun isMoved => ?_
  exact (List.nodup_append'.mp (Ordered.nodup_tops parts distinct)).2.2 (among isMoved)
    (List.mem_flatMap.mpr ⟨place, member, inTail⟩)

/-- What is around a part stays what it is if nothing of it moves. -/
theorem same_around (rehung : before.Rehung after id moved) (closed : before.Closed)
    (around : Around before.nodes root height levels region front back others)
    (absent : ∀ page ∈ others, page ≠ id ∧ page ∉ moved) :
    ∀ page ∈ others, after.nodes page = before.nodes page := by
  intro page member
  obtain ⟨node, found⟩ := around.exists_node page member
  exact rehung.others page (closed page node found) (absent page member).1 (absent page member).2

end View.Rehung

/-- No leaf has another content or another next leaf, and nothing has changed but on the given pages
and on new ones. -/
structure Spares (before after : View) (pages : List PageNumber) : Prop where
  leaves : ∀ page leaf, before.nodes page = .ok (.leaf leaf) →
    ∃ other, after.nodes page = .ok (.leaf other) ∧ other.next = leaf.next ∧
      other.keys = leaf.keys ∧ other.values = leaf.values
  elsewhere : ∀ page, page.toNat < before.pagesInUse → page ∉ pages →
    after.nodes page = before.nodes page

theorem Spares.mono {before after : View} {pages pages' : List PageNumber}
    (spares : Spares before after pages) (within : pages ⊆ pages') :
    Spares before after pages' where
  leaves := spares.leaves
  elsewhere page inUse absent := spares.elsewhere page inUse fun member => absent (within member)

theorem Spares.trans {first second third : View} {pages pages' : List PageNumber}
    (early : Spares first second pages) (late : Spares second third pages')
    (grew : first.pagesInUse ≤ second.pagesInUse)
    (within : ∀ page ∈ pages', page.toNat < first.pagesInUse → page ∈ pages) :
    Spares first third pages where
  leaves page leaf found := by
    obtain ⟨other, found', next, keys, values⟩ := early.leaves page leaf found
    obtain ⟨last, found'', next', keys', values'⟩ := late.leaves page other found'
    exact ⟨last, found'', next'.trans next, keys'.trans keys, values'.trans values⟩
  elsewhere page inUse absent := by
    rw [late.elsewhere page (Nat.lt_of_lt_of_le inUse grew) fun member =>
      absent (within page member inUse), early.elsewhere page inUse absent]

theorem View.Rehung.spares {before after : View} {id : PageNumber}
    {moved pages : List PageNumber} (rehung : before.Rehung after id moved)
    (closed : before.Closed) (notLeaf : ∀ leaf, before.nodes id ≠ .ok (.leaf leaf))
    (within : ∀ page, page.toNat < before.pagesInUse → page = id ∨ page ∈ moved → page ∈ pages) :
    Spares before after pages where
  leaves page leaf found := by
    refine Node.exists_leaf_of_detached (rehung.bodies page (closed page _ found) ?_) found
    rintro rfl
    exact notLeaf leaf found
  elsewhere page inUse absent :=
    rehung.others page inUse (fun same => absent (within page inUse (.inl same)))
      fun member => absent (within page inUse (.inr member))

/-! ## Parts in their place -/

/-- A part of a tree, in its place. -/
structure Placed (view : View) (root : PageNumber) (height levels : Nat) (region : Region)
    (front back : List Landmark) (others : List PageNumber) : Prop where
  closed : view.Closed
  around : Around view.nodes root height levels region front back others
  part : Ordered view.nodes height region
  distinct : (pagesBelow view.nodes height region.1 ++ others).Nodup

/-- A part of a tree that is cut in two. The upper half is no child of a branch yet. -/
structure Forked (view : View) (root : PageNumber) (height levels : Nat) (region : Region)
    (separator : Key) (upper : PageNumber) (front back : List Landmark)
    (others : List PageNumber) : Prop where
  closed : view.Closed
  around : Around view.nodes root height levels region front back others
  admits : region.2.Admits separator
  halves : ∀ place ∈ cutRegion region separator upper, Ordered view.nodes height place
  unmarked : ∃ node, view.nodes upper = .ok node ∧ node.rootMark = false
  distinct : ((cutRegion region separator upper).flatMap
    (fun place => pagesBelow view.nodes height place.1) ++ others).Nodup

/-- A part that is cut in two, below a branch. -/
structure ForkedBelow (view : View) (root : PageNumber) (height levels : Nat) (region : Region)
    (branch : Branch) (near : List Region) (place : Region) (far : List Region) (separator : Key)
    (upper : PageNumber) (front back : List Landmark) (others : List PageNumber) : Prop where
  closed : view.Closed
  around : Around view.nodes root (height + 1) levels region front back others
  found : view.nodes region.1 = .ok (.branch branch)
  matched : branch.children.length = branch.separators.length + 1
  separates : region.2.Separates branch.separators
  here : branch.regions region.2 = near ++ place :: far
  hang : ∀ other ∈ near ++ place :: far, Hangs view.nodes (some region.1) other.1
  admits : place.2.Admits separator
  parts : ∀ other ∈ cutRow near place separator upper far, Ordered view.nodes height other
  unmarked : ∃ node, view.nodes upper = .ok node ∧ node.rootMark = false
  distinct : (region.1 :: (cutRow near place separator upper far).flatMap
    (fun other => pagesBelow view.nodes height other.1) ++ others).Nodup

section Steps

variable {view : View} {root upper : PageNumber} {height levels : Nat} {region place : Region}
  {branch : Branch} {near far : List Region} {separator : Key} {front back : List Landmark}
  {others : List PageNumber} {node node' : Node}

theorem Placed.inUse (placed : Placed view root height levels region front back others)
    {page : PageNumber} (member : page ∈ pagesBelow view.nodes height region.1 ++ others) :
    page.toNat < view.pagesInUse := by
  rcases List.mem_append.mp member with below | around
  · obtain ⟨node, found⟩ := placed.part.exists_node page below
    exact placed.closed page node found
  · obtain ⟨node, found⟩ := placed.around.exists_node page around
    exact placed.closed page node found

/-! ### Taking the new page as a child -/

/-- Below the root, there is a branch above a fork. -/
theorem Forked.exists_parent
    (forked : Forked view root height (levels + 1) place separator upper front back others) :
    ∃ region branch near far front' back' others',
      ForkedBelow view root height levels region branch near place far separator upper front' back'
        others' ∧
      front = front' ++ near.flatMap (landmarks view.nodes height) ∧
      back = far.flatMap (landmarks view.nodes height) ++ back' ∧
      (region.1 :: (cutRow near place separator upper far).flatMap
          (fun other => pagesBelow view.nodes height other.1) ++ others').Perm
        ((cutRegion place separator upper).flatMap
          (fun other => pagesBelow view.nodes height other.1) ++ others) := by
  obtain ⟨closed, around, admits, halves, unmarked, distinct⟩ := forked
  cases around with
  | @child _ _ region _ branch near far front' back' others' around found matched separates here
      hang siblings =>
    have pages := flatMap_middle_perm (fun other => pagesBelow view.nodes height other.1) region.1
      near (cutRegion place separator upper) far others'
    refine ⟨region, branch, near, far, front', back', others', ?_, rfl, rfl, pages⟩
    refine ⟨closed, around, found, matched, separates, here, hang, admits, fun other member => ?_,
      unmarked, pages.nodup_iff.mpr distinct⟩
    rcases mem_cutRow.mp member with sibling | half
    · exact siblings other sibling
    · exact halves other (by simpa [cutRegion] using half)

namespace ForkedBelow

variable (below : ForkedBelow view root height levels region branch near place far separator upper
  front back others)
include below

theorem upper_below : upper ∈ (cutRow near place separator upper far).flatMap
    (fun other => pagesBelow view.nodes height other.1) := by
  have isHalf : (upper, place.2.above separator) ∈ cutRow near place separator upper far :=
    mem_cutRow.mpr (.inr (.inr rfl))
  exact List.mem_flatMap.mpr ⟨_, isHalf, (below.parts _ isHalf).mem_pagesBelow⟩

theorem upper_ne : upper ≠ region.1 := by
  rintro rfl
  exact (List.nodup_cons.mp (List.nodup_append'.mp below.distinct).1).1 below.upper_below

/-- A child that stands among the parts is not the page of the branch. -/
theorem top_ne {other : Region} (member : other ∈ cutRow near place separator upper far) :
    other.1 ≠ region.1 := by
  intro same
  refine (List.nodup_cons.mp (List.nodup_append'.mp below.distinct).1).1 ?_
  rw [← same]
  exact List.mem_flatMap.mpr ⟨other, member, (below.parts other member).mem_pagesBelow⟩

variable (found : view.nodes upper = .ok node)
include found

theorem same_around : ∀ page ∈ others,
    (view.entered region.1 (branch.insert separator upper) upper node).nodes page =
      view.nodes page := by
  have outside := (List.nodup_append'.mp below.distinct).2.2
  refine (View.Rehung.entered found).same_around below.closed below.around fun page member =>
    ⟨?_, fun isUpper => ?_⟩
  · rintro rfl
    exact outside List.mem_cons_self member
  · rw [List.mem_singleton.mp isUpper] at member
    exact outside (List.mem_cons_of_mem _ below.upper_below) member

theorem spares : Spares view (view.entered region.1 (branch.insert separator upper) upper node)
    (region.1 :: (cutRow near place separator upper far).flatMap
      (fun other => pagesBelow view.nodes height other.1) ++ others) := by
  refine (View.Rehung.entered found).spares below.closed (fun leaf present => ?_) ?_
  · cases below.found.symm.trans present
  · rintro page - (rfl | isUpper)
    · exact List.mem_append_left _ List.mem_cons_self
    · rw [List.mem_singleton.mp isUpper]
      exact List.mem_append_left _ (List.mem_cons_of_mem _ below.upper_below)

/-- The old children and the new one hang on the branch. -/
theorem hangs_entered {other : Region} (member : other ∈ cutRow near place separator upper far) :
    Hangs (view.entered region.1 (branch.insert separator upper) upper node).nodes
      (some region.1) other.1 := by
  by_cases isUpper : other.1 = upper
  · obtain ⟨_, present, unmarked⟩ := below.unmarked
    cases found.symm.trans present
    rw [isUpper]
    exact ⟨_, View.nodes_put_self .., node.parent_withParent _,
      (node.rootMark_withParent _).trans unmarked⟩
  · have old : Hangs view.nodes (some region.1) other.1 := by
      rcases mem_cutRow.mp member with sibling | rfl | rfl
      · exact below.hang other (mem_row_iff.mpr (.inr sibling))
      · exact below.hang place (mem_row_iff.mpr (.inl rfl))
      · exact absurd rfl isUpper
    exact old.congr (View.nodes_entered_of_ne (below.top_ne member) isUpper)

/-- The branch that has taken the upper half as a child is a part in its place, with the landmarks
and pages of both halves and the other children. -/
theorem placed :
    Placed (view.entered region.1 (branch.insert separator upper) upper node) root (height + 1)
        levels region front back others ∧
      landmarks (view.entered region.1 (branch.insert separator upper) upper node).nodes
          (height + 1) region =
        (cutRow near place separator upper far).flatMap (landmarks view.nodes height) ∧
      pagesBelow (view.entered region.1 (branch.insert separator upper) upper node).nodes
          (height + 1) region.1 =
        region.1 :: (cutRow near place separator upper far).flatMap fun other =>
          pagesBelow view.nodes height other.1 := by
  have atRegion : (view.entered region.1 (branch.insert separator upper) upper node).nodes
      region.1 = .ok (.branch (branch.insert separator upper)) :=
    View.nodes_entered_branch below.upper_ne.symm
  have regions : (branch.insert separator upper).regions region.2 =
      cutRow near place separator upper far :=
    Branch.regions_insert below.separates below.admits below.here upper
  have rehung : view.Rehung (view.entered region.1 (branch.insert separator upper) upper node)
      region.1 [upper] := .entered found
  have parts := rehung.samePart below.closed below.parts
    (List.nodup_append'.mp below.distinct).1 fun page member => by
      rw [List.mem_singleton.mp member]
      exact List.mem_map_of_mem (f := Prod.fst) (mem_cutRow.mpr (.inr (.inr rfl)))
  obtain ⟨ordered, marks, pages⟩ := Ordered.ofParts atRegion
    (Branch.matched_insert below.matched separator upper)
    (Branch.separates_insert below.separates below.admits below.here upper)
    (fun other member => parts other (regions ▸ member))
    fun other member => below.hangs_entered found (regions ▸ member)
  rw [regions] at marks pages
  refine ⟨⟨?_, below.around.congr (below.same_around found) ?_, ordered, ?_⟩, marks, pages⟩
  · exact (below.closed.put _ (below.closed _ _ below.found)).put _ (below.closed _ _ found)
  · rintro parent ⟨other, present, hung, marked⟩
    cases below.found.symm.trans present
    exact ⟨_, atRegion, hung, marked⟩
  · rw [pages]
    exact below.distinct

end ForkedBelow

/-! ### Cutting a branch -/

section Divide

variable (placed : Placed view root (height + 1) levels region front back others)
  (found : view.nodes region.1 = .ok (.branch branch)) (several : 2 ≤ branch.separators.length)
  (room : view.pagesInUse < view.limit.toNat)
include placed found

theorem Placed.distinct_branch :
    (region.1 :: (branch.regions region.2).flatMap
      (fun place => pagesBelow view.nodes height place.1) ++ others).Nodup := by
  rw [← pagesBelow_branch found (placed.part.branch_inv found).1 height region.2]
  exact placed.distinct

/-- A child of the branch is in use, and it is neither the page of the branch nor around it. -/
theorem Placed.child_inUse {child : PageNumber} (isChild : child ∈ branch.children) :
    child.toNat < view.pagesInUse ∧ child ≠ region.1 ∧ child ∉ others := by
  obtain ⟨matched, -, -, parts⟩ := placed.part.branch_inv found
  obtain ⟨place, member, rfl⟩ := Branch.exists_region matched region.2 isChild
  obtain ⟨inside, -, outside⟩ := List.nodup_append'.mp (placed.distinct_branch found)
  have below : place.1 ∈ (branch.regions region.2).flatMap fun place =>
      pagesBelow view.nodes height place.1 :=
    List.mem_flatMap.mpr ⟨place, member, (parts place member).mem_pagesBelow⟩
  obtain ⟨node, present⟩ := (parts place member).exists_node _ (parts place member).mem_pagesBelow
  refine ⟨placed.closed _ node present, fun same => ?_, outside (List.mem_cons_of_mem _ below)⟩
  exact (List.nodup_cons.mp inside).1 (same ▸ below)

include room

theorem Placed.nodes_divided :
    (view.divided region.1 branch).nodes region.1 = .ok (.branch branch.divide.1) ∧
      (view.divided region.1 branch).nodes view.fresh = .ok (.branch branch.divide.2) := by
  constructor
  · exact View.nodes_divided_self fun isChild => (placed.child_inUse found isChild).2.1 rfl
  · exact View.nodes_divided_fresh (View.ne_fresh room (placed.closed _ _ found)) fun isChild =>
      View.ne_fresh room (placed.child_inUse found isChild).1 rfl

theorem Placed.same_around :
    ∀ page ∈ others, (view.divided region.1 branch).nodes page = view.nodes page := by
  refine (View.Rehung.divided room).same_around placed.closed placed.around fun page member =>
    ⟨?_, fun isChild => (placed.child_inUse found isChild).2.2 member⟩
  rintro rfl
  exact (List.nodup_append'.mp (placed.distinct_branch found)).2.2 List.mem_cons_self member

theorem Placed.spares : Spares view (view.divided region.1 branch)
    (pagesBelow view.nodes (height + 1) region.1 ++ others) := by
  obtain ⟨matched, -, -, parts⟩ := placed.part.branch_inv found
  refine (View.Rehung.divided room).spares placed.closed (fun leaf present => ?_) ?_
  · cases found.symm.trans present
  · rw [pagesBelow_branch found matched height region.2]
    rintro page - (rfl | isChild)
    · exact List.mem_append_left _ List.mem_cons_self
    · obtain ⟨place, member, rfl⟩ := Branch.exists_region matched region.2 isChild
      exact List.mem_append_left _ (List.mem_cons_of_mem _
        (List.mem_flatMap.mpr ⟨place, member, (parts place member).mem_pagesBelow⟩))

include several

/-- Cutting the branch needs one page and nothing else: all its children can be loaded. -/
theorem Placed.divideBranch {done : Key × PageNumber → View → Prop} {failed : Fault → View → Prop}
    (cut : done (branch.median, view.fresh) (view.divided region.1 branch)) :
    Promises view (Tree.divideBranch region.1) done failed := by
  refine .divideBranch (placed.closed _ _ found) found
    (List.ne_nil_of_length_pos (by omega)) (fun _ => cut)
    (fun full => absurd room (Nat.not_lt.mpr full)) ?_
  rintro fault after aboutPage ⟨child, moved, missing⟩
  obtain ⟨matched, -, hang, -⟩ := placed.part.branch_inv found
  obtain ⟨place, member, rfl⟩ :=
    Branch.exists_region matched region.2 (List.mem_of_mem_drop moved)
  obtain ⟨node, present, -⟩ := hang place member
  obtain ⟨other, still⟩ := View.exists_nodes_split present
  exact absurd still (missing other)

/-- The halves of a branch that is cut have together its children, and all that is below them. -/
theorem Placed.halves :
    ∃ lower upper : List Region, lower ++ upper = branch.regions region.2 ∧
      (Ordered (view.divided region.1 branch).nodes (height + 1)
          (region.1, region.2.below branch.median) ∧
        landmarks (view.divided region.1 branch).nodes (height + 1)
            (region.1, region.2.below branch.median) = lower.flatMap (landmarks view.nodes height) ∧
        pagesBelow (view.divided region.1 branch).nodes (height + 1) region.1 =
          region.1 :: lower.flatMap fun place => pagesBelow view.nodes height place.1) ∧
      Ordered (view.divided region.1 branch).nodes (height + 1)
          (view.fresh, region.2.above branch.median) ∧
        landmarks (view.divided region.1 branch).nodes (height + 1)
            (view.fresh, region.2.above branch.median) =
          upper.flatMap (landmarks view.nodes height) ∧
        pagesBelow (view.divided region.1 branch).nodes (height + 1) view.fresh =
          view.fresh :: upper.flatMap fun place => pagesBelow view.nodes height place.1 := by
  obtain ⟨matched, separates, hang, parts⟩ := placed.part.branch_inv found
  obtain ⟨lowerMatched, upperMatched⟩ := Branch.matched_divide several matched
  obtain ⟨-, lowerSeparates, upperSeparates⟩ := Branch.separates_divide several separates
  have inside := (List.nodup_append'.mp (placed.distinct_branch found)).1
  have regions := Branch.regions_divide several matched region.2
  have children := Branch.map_fst_regions matched region.2
  have distinct : branch.children.Nodup := children ▸ (List.nodup_append'.mp
    (Ordered.nodup_tops parts (List.nodup_cons.mp inside).2)).1
  obtain ⟨atLower, atUpper⟩ := placed.nodes_divided found room
  have kept := (View.Rehung.divided room).samePart placed.closed parts inside
    (fun child isChild => children ▸ isChild)
  refine ⟨_, _, regions, Ordered.ofParts atLower lowerMatched lowerSeparates ?_ ?_,
    Ordered.ofParts atUpper upperMatched upperSeparates ?_ ?_⟩
  · exact fun place member => kept place (regions ▸ List.mem_append_left _ member)
  · intro place member
    have isLower : place.1 ∈ branch.divide.1.children := (List.of_mem_zip member).1
    obtain ⟨inUse, notHere, -⟩ := placed.child_inUse found (List.mem_of_mem_take isLower)
    exact View.hangs_divided_lower room inUse notHere distinct isLower
      (hang place (regions ▸ List.mem_append_left _ member))
  · exact fun place member => kept place (regions ▸ List.mem_append_right _ member)
  · intro place member
    have isUpper : place.1 ∈ branch.divide.2.children := (List.of_mem_zip member).1
    obtain ⟨inUse, notHere, -⟩ := placed.child_inUse found (List.mem_of_mem_drop isUpper)
    exact View.hangs_divided_upper room inUse notHere isUpper
      (hang place (regions ▸ List.mem_append_right _ member))

/-- Cutting a branch in a tree makes a fork with the landmarks and pages of the branch, and the new
page. -/
theorem Placed.fork :
    Forked (view.divided region.1 branch) root (height + 1) levels region branch.median view.fresh
        front back others ∧
      (cutRegion region branch.median view.fresh).flatMap
          (landmarks (view.divided region.1 branch).nodes (height + 1)) =
        landmarks view.nodes (height + 1) region ∧
      ((cutRegion region branch.median view.fresh).flatMap fun place =>
          pagesBelow (view.divided region.1 branch).nodes (height + 1) place.1).Perm
        (view.fresh :: pagesBelow view.nodes (height + 1) region.1) := by
  obtain ⟨matched, separates, -, parts⟩ := placed.part.branch_inv found
  obtain ⟨lower, upper, regions, ⟨lowerOrdered, lowerMarks, lowerPages⟩, upperOrdered,
    upperMarks, upperPages⟩ := placed.halves found several room
  obtain ⟨atLower, atUpper⟩ := placed.nodes_divided found room
  have pages : ((cutRegion region branch.median view.fresh).flatMap fun place =>
      pagesBelow (view.divided region.1 branch).nodes (height + 1) place.1).Perm
        (view.fresh :: pagesBelow view.nodes (height + 1) region.1) := by
    rw [pagesBelow_branch found matched height region.2, ← regions, List.flatMap_append]
    simp only [cutRegion, List.flatMap_cons, List.flatMap_nil, List.append_nil, lowerPages,
      upperPages]
    exact List.perm_middle
  refine ⟨⟨?_, ?_, ?_, ?_, ?_, ?_⟩, ?_, pages⟩
  · exact (placed.closed.split room found).reparented
  · refine placed.around.congr (placed.same_around found room) ?_
    rintro parent ⟨other, present, hung, marked⟩
    cases found.symm.trans present
    exact ⟨_, atLower, hung, marked⟩
  · exact (Branch.separates_divide several separates).1
  · intro place member
    rcases List.mem_cons.mp member with rfl | isUpper
    · exact lowerOrdered
    · rw [List.mem_singleton.mp isUpper]
      exact upperOrdered
  · exact ⟨_, atUpper, rfl⟩
  · rw [(pages.append_right others).nodup_iff, List.cons_append, List.nodup_cons]
    exact ⟨fun member => View.ne_fresh room (placed.inUse member) rfl, placed.distinct⟩
  · simp only [cutRegion, List.flatMap_cons, List.flatMap_nil, List.append_nil, lowerMarks,
      upperMarks]
    rw [← List.flatMap_append, regions]
    exact (landmarks_branch found matched height region.2).symm

end Divide

/-- If the branch that takes the new page is cut, the fork is at the branch, one level higher. It
has the landmarks of the children, cuts above it take as many pages as above the branch, and its
old pages are those of the branch and its children. -/
theorem ForkedBelow.climb
    (below : ForkedBelow view root height levels region branch near place far separator upper front
      back others)
    (found : view.nodes upper = .ok node) (large : Page.size < (branch.insert separator upper).size)
    (room : view.pagesInUse < view.limit.toNat) {after : View}
    (cut : after = (view.entered region.1 (branch.insert separator upper) upper node).divided
      region.1 (branch.insert separator upper)) :
    Forked after root (height + 1) levels region (branch.insert separator upper).median view.fresh
        front back others ∧
      (cutRegion region (branch.insert separator upper).median view.fresh).flatMap
          (landmarks after.nodes (height + 1)) =
        (cutRow near place separator upper far).flatMap (landmarks view.nodes height) ∧
      Hangs after.nodes branch.parent region.1 ∧
      (∀ needed, PagesAbove view.nodes branch.parent needed →
        PagesAbove after.nodes branch.parent needed) ∧
      Spares view after (region.1 :: (cutRow near place separator upper far).flatMap
        (fun other => pagesBelow view.nodes height other.1) ++ others) ∧
      ((cutRegion region (branch.insert separator upper).median view.fresh).flatMap
          (fun other => pagesBelow after.nodes (height + 1) other.1) ++ others).Perm
        (view.fresh :: (region.1 :: (cutRow near place separator upper far).flatMap
          (fun other => pagesBelow view.nodes height other.1) ++ others)) := by
  subst cut
  obtain ⟨placed, marks, pages⟩ := below.placed found
  have atBranch : (view.entered region.1 (branch.insert separator upper) upper node).nodes
      region.1 = .ok (.branch (branch.insert separator upper)) :=
    View.nodes_entered_branch below.upper_ne.symm
  have several : 2 ≤ (branch.insert separator upper).separators.length :=
    Branch.several_separators (Branch.matched_insert below.matched separator upper) large
  obtain ⟨forked, marks', pages'⟩ := placed.fork atBranch several room
  have spares := placed.spares atBranch room
  rw [pages] at pages' spares
  refine ⟨forked, marks'.trans marks, ?_, fun needed counted => ?_, ?_, pages'.append_right others⟩
  · exact forked.around.hangs_of (placed.nodes_divided atBranch room).1
  · exact placed.around.pagesAbove_congr (placed.around.hangs_of atBranch)
      (placed.same_around atBranch room) (below.around.pagesAbove_congr
        (below.around.hangs_of below.found) (below.same_around found) counted)
  · exact (below.spares found).trans spares (Nat.le_refl _) fun page member _ => member

/-! ### Cutting a leaf -/

/-- Cutting a leaf in a tree makes a fork with both halves and the separator between them. -/
theorem Placed.fork_leaf {leaf : Leaf} (placed : Placed view root 1 levels region front back others)
    (found : view.nodes region.1 = .ok (.leaf leaf)) (several : 2 ≤ leaf.keys.length)
    (room : view.pagesInUse < view.limit.toNat) :
    Forked (Tree.cutInTwo view region.1 leaf) root 1 levels region
        ((leaf.divide view.fresh).2.keys.headD 0) view.fresh front back others ∧
      (cutRegion region ((leaf.divide view.fresh).2.keys.headD 0) view.fresh).flatMap
          (landmarks (Tree.cutInTwo view region.1 leaf).nodes 1) =
        ofLower region.2 ++ [.leaf region.1,
          .separator ((leaf.divide view.fresh).2.keys.headD 0), .leaf view.fresh] ∧
      ((cutRegion region ((leaf.divide view.fresh).2.keys.headD 0) view.fresh).flatMap fun place =>
        pagesBelow (Tree.cutInTwo view region.1 leaf).nodes 1 place.1) =
          [region.1, view.fresh] := by
  obtain ⟨matched, separates⟩ := placed.part.leaf_inv found
  obtain ⟨lowerMatched, upperMatched⟩ := Leaf.matched_divide matched view.fresh
  obtain ⟨admits, lowerSeparates, upperSeparates⟩ :=
    Leaf.separates_divide separates several view.fresh
  have apart : region.1 ≠ view.fresh := View.ne_fresh room (placed.closed _ _ found)
  have atLower : (Tree.cutInTwo view region.1 leaf).nodes region.1 =
      .ok (.leaf (leaf.divide view.fresh).1) := View.nodes_split_self
  have atUpper : (Tree.cutInTwo view region.1 leaf).nodes view.fresh =
      .ok (.leaf (leaf.divide view.fresh).2) := View.nodes_split_fresh apart
  have ne_fresh : ∀ page ∈ others, page ≠ view.fresh := fun page member =>
    View.ne_fresh room (placed.inUse (List.mem_append_right _ member))
  obtain ⟨absent, distinct⟩ : region.1 ∉ others ∧ others.Nodup := by
    have distinct := placed.distinct
    rw [pagesBelow_leaf found] at distinct
    exact List.nodup_cons.mp distinct
  have pages : ((cutRegion region ((leaf.divide view.fresh).2.keys.headD 0)
      view.fresh).flatMap fun place =>
        pagesBelow (Tree.cutInTwo view region.1 leaf).nodes 1 place.1) =
          [region.1, view.fresh] := by
    simp only [cutRegion, List.flatMap_cons, List.flatMap_nil, pagesBelow_leaf atLower,
      pagesBelow_leaf atUpper]
    rfl
  refine ⟨⟨placed.closed.split room found, ?_, admits, ?_, ⟨_, atUpper, rfl⟩, ?_⟩, ?_, pages⟩
  · refine placed.around.congr
      (fun page member => View.nodes_split_of_ne ?_ (ne_fresh page member)) ?_
    · rintro rfl
      exact absent member
    · rintro parent ⟨other, present, hung, marked⟩
      cases found.symm.trans present
      exact ⟨_, atLower, hung, marked⟩
  · intro place member
    rcases List.mem_cons.mp member with rfl | isUpper
    · exact .leaf atLower lowerMatched lowerSeparates
    · rw [List.mem_singleton.mp isUpper]
      exact .leaf atUpper upperMatched upperSeparates
  · rw [pages]
    refine List.nodup_cons.mpr ⟨List.not_mem_cons_of_ne_of_not_mem apart absent, ?_⟩
    exact List.nodup_cons.mpr ⟨fun member => ne_fresh _ member rfl, distinct⟩
  · simp only [cutRegion, List.flatMap_cons, List.flatMap_nil, landmarks, inorder_leaf atLower,
      inorder_leaf atUpper]
    rw [List.append_assoc]
    rfl

/-! ### A new root -/

/-- Where nothing is above a fork, it is the whole tree. -/
theorem Forked.eq_root
    (forked : Forked view root height 0 region separator upper front back others) :
    region = ((root, {}) : Region) ∧ front = [] ∧ back = [] ∧ others = [] := by
  obtain ⟨closed, around, -⟩ := forked
  cases around with
  | root => exact ⟨rfl, rfl, rfl, rfl⟩

theorem Forked.upper_ne
    (forked : Forked view root height levels region separator upper front back others) :
    upper ≠ region.1 := by
  obtain ⟨inHalves, -, -⟩ := List.nodup_append'.mp forked.distinct
  have lower := (forked.halves _ List.mem_cons_self).mem_pagesBelow
  have higher := (forked.halves _ (List.mem_cons_of_mem _ List.mem_cons_self)).mem_pagesBelow
  rintro rfl
  rw [cutRegion, List.flatMap_cons] at inHalves
  refine (List.nodup_append'.mp inHalves).2.2 lower ?_
  rw [List.flatMap_singleton]
  exact higher

/-- A new root above both parts is a tree with the landmarks and pages of the fork, and the new
page. -/
theorem Forked.crowned (forked : Forked view root height 0 (root, {}) separator upper [] [] [])
    (atRoot : view.nodes root = .ok node) (atUpper : view.nodes upper = .ok node')
    (room : view.pagesInUse < view.limit.toNat) :
    Placed (view.crowned root node separator upper node') view.fresh (height + 1) 0
        (view.fresh, {}) [] [] [] ∧
      landmarks (view.crowned root node separator upper node').nodes (height + 1)
          (view.fresh, {}) =
        (cutRegion (root, {}) separator upper).flatMap (landmarks view.nodes height) := by
  have closed := forked.closed
  have apart : upper ≠ root := forked.upper_ne
  have rootOld := View.ne_fresh room (closed root node atRoot)
  have upperOld := View.ne_fresh room (closed upper node' atUpper)
  have atFresh : (view.crowned root node separator upper node').nodes view.fresh = .ok (.branch {
      rootMark := true, separators := [separator], children := [root, upper] }) :=
    View.nodes_crowned_fresh rootOld upperOld
  obtain ⟨_, present, unmarked⟩ := forked.unmarked
  cases atUpper.symm.trans present
  obtain ⟨rootHangs, upperHangs⟩ := View.hangs_crowned view node separator apart unmarked
  have distinct : (view.fresh :: (cutRegion (root, {}) separator upper).flatMap
      fun place => pagesBelow view.nodes height place.1).Nodup := by
    refine List.nodup_cons.mpr ⟨fun member => ?_, by simpa using forked.distinct⟩
    obtain ⟨place, isHalf, below⟩ := List.mem_flatMap.mp member
    obtain ⟨other, found⟩ := (forked.halves place isHalf).exists_node _ below
    exact View.ne_fresh room (closed _ _ found) rfl
  have hang : ∀ place ∈ cutRegion (root, {}) separator upper,
      Hangs (view.crowned root node separator upper node').nodes (some view.fresh) place.1 := by
    intro place isHalf
    rcases List.mem_cons.mp isHalf with rfl | isUpper
    · exact rootHangs
    · rw [List.mem_singleton.mp isUpper]
      exact upperHangs
  have parts := (View.Rehung.crowned atRoot atUpper apart separator).samePart closed forked.halves
    distinct (List.Subset.refl _)
  have separates : KeyRange.Separates {} [separator] :=
    .singleton (KeyRange.contains_unbounded _)
  obtain ⟨ordered, marks, pages⟩ := Ordered.ofParts atFresh rfl separates parts hang
  refine ⟨⟨?_, .root ⟨_, atFresh, rfl, rfl⟩, ordered, ?_⟩, marks⟩
  · exact ((closed.push _ room).put _ (Nat.lt_succ_of_lt (closed _ _ atRoot))).put _
      (Nat.lt_succ_of_lt (closed _ _ atUpper))
  · rw [pages, List.append_nil]
    exact distinct

theorem Forked.spares_crowned
    (forked : Forked view root height 0 (root, {}) separator upper [] [] [])
    (atRoot : view.nodes root = .ok node) (atUpper : view.nodes upper = .ok node')
    (room : view.pagesInUse < view.limit.toNat) :
    Spares view (view.crowned root node separator upper node')
      ((cutRegion (root, {}) separator upper).flatMap
        (fun place => pagesBelow view.nodes height place.1) ++ []) := by
  refine (View.Rehung.crowned atRoot atUpper forked.upper_ne separator).spares forked.closed
    (fun leaf present => View.ne_fresh room (forked.closed _ _ present) rfl) ?_
  rintro page inUse (rfl | isTop)
  · exact absurd rfl (View.ne_fresh room inUse)
  · have isTop : page ∈ (cutRegion (root, {}) separator upper).map Prod.fst := isTop
    obtain ⟨place, isHalf, rfl⟩ := List.mem_map.mp isTop
    exact List.mem_append_left _
      (List.mem_flatMap.mpr ⟨place, isHalf, (forked.halves place isHalf).mem_pagesBelow⟩)

end Steps

end RowStore
