import RowStore.Proofs.Tree.Ordered
import RowStore.Proofs.Tree.Steps

/-!
# Trees from left to right

On the way through a tree from left to right one meets its leaves, and between two leaves the one
separator that keeps them apart, on whatever branch it stands. `inorder` is the list of these
landmarks; the leaves alone are those of `leavesBelow`, and the separators alone are
`separatorsBelow`.

Every child of a branch but the first has the separator before it as its lower bound. So the
landmarks from the lower bound of a region on are those from the lower bounds of the children on,
one child after the other (`landmarks_branch`), and no proof has to take the first child apart from
the others.

In a tree whose leaves all have a cell the separators ascend (`Ordered.ascending_separators`). If
only the place of its top page changes, an ordered tree stays what it is (`Ordered.kept`).
-/

set_option autoImplicit false

namespace RowStore

open Store RowStore.Tree

/-! ## Landmarks -/

/-- What one meets in a tree on the way from left to right. -/
inductive Landmark where
  | leaf (page : PageNumber)
  | separator (key : Key)
deriving DecidableEq

namespace Landmark

/-- The page, at a leaf. -/
def page? : Landmark → Option PageNumber
  | leaf page => some page
  | separator _ => none

/-- The key, at a separator. -/
def key? : Landmark → Option Key
  | leaf _ => none
  | separator key => some key

/-- Lists of landmarks with a separator between each list and the next. -/
def interleave : List (List Landmark) → List Key → List Landmark
  | [], _ => []
  | part :: parts, [] => part ++ interleave parts []
  | part :: parts, key :: keys => part ++ separator key :: interleave parts keys

theorem filterMap_page?_interleave (parts : List (List Landmark)) (keys : List Key) :
    (interleave parts keys).filterMap page? = parts.flatMap (List.filterMap page?) := by
  induction parts generalizing keys with
  | nil => rfl
  | cons part parts ih =>
    rw [List.flatMap_cons]
    cases keys with
    | nil => rw [interleave, List.filterMap_append, ih]
    | cons key keys => rw [interleave, List.filterMap_append, List.filterMap_cons_none rfl, ih]

/-- Between lists without separators there are the given ones only. -/
theorem filterMap_key?_interleave {parts : List (List Landmark)} {keys : List Key}
    (bare : ∀ part ∈ parts, part.filterMap key? = [])
    (matched : parts.length = keys.length + 1) :
    (interleave parts keys).filterMap key? = keys := by
  induction keys generalizing parts with
  | nil =>
    obtain ⟨part, rfl⟩ := List.length_eq_one_iff.mp matched
    rw [interleave, interleave, List.append_nil, bare part List.mem_cons_self]
  | cons key keys ih =>
    obtain ⟨part, parts, rfl⟩ := List.exists_cons_of_length_eq_add_one matched
    have rest := ih (fun other member => bare other (List.mem_cons_of_mem part member))
      (Nat.succ.inj matched)
    rw [interleave, List.filterMap_append, bare part List.mem_cons_self, List.nil_append]
    exact congrArg (key :: ·) rest

/-- The lower bound of a range is a separator, if there is one. -/
def ofLower (range : KeyRange) : List Landmark := range.lower.toList.map separator

/-- A separator between two children is the lower bound of the second. -/
theorem ofLower_append_interleave (below : PageNumber → List Landmark)
    {children : List PageNumber} {separators : List Key}
    (matched : children.length = separators.length + 1) (range : KeyRange) :
    ofLower range ++ interleave (children.map below) separators =
      (children.zip (range.cut separators)).flatMap fun place =>
        ofLower place.2 ++ below place.1 := by
  induction separators generalizing range children with
  | nil =>
    obtain ⟨child, rfl⟩ := List.length_eq_one_iff.mp matched
    simp only [List.map_cons, List.map_nil, interleave, KeyRange.cut, List.zip_cons_cons,
      List.zip_nil_right, List.flatMap_cons, List.flatMap_nil, List.append_nil]
  | cons key separators ih =>
    obtain ⟨child, children, rfl⟩ := List.exists_cons_of_length_eq_add_one matched
    rw [KeyRange.cut, List.zip_cons_cons, List.flatMap_cons, ← KeyRange.above,
      ← ih (Nat.succ.inj matched), List.map_cons, interleave, List.append_assoc]
    rfl

end Landmark

open Landmark

/-- The landmarks from a page down, from left to right, within a number of levels. -/
def inorder (nodes : Nodes) : Nat → PageNumber → List Landmark
  | 0, _ => []
  | height + 1, page =>
    match nodes page with
    | .ok (.branch branch) =>
      interleave (branch.children.map (inorder nodes height)) branch.separators
    | _ => [.leaf page]

/-- The separators of all branches from a page down, from left to right. -/
def separatorsBelow (nodes : Nodes) (height : Nat) (page : PageNumber) : List Key :=
  (inorder nodes height page).filterMap key?

/-- The landmarks of a region from its lower bound on. -/
def landmarks (nodes : Nodes) (height : Nat) (region : Region) : List Landmark :=
  ofLower region.2 ++ inorder nodes height region.1

section Pages

variable {nodes : Nodes} {page : PageNumber}

/-- The leaves among the landmarks are the leaves of the tree. -/
theorem leavesBelow_eq_filterMap (nodes : Nodes) (height : Nat) (page : PageNumber) :
    leavesBelow nodes height page = (inorder nodes height page).filterMap page? := by
  induction height generalizing page with
  | zero => rfl
  | succ height ih =>
    rcases found : nodes page with fault | branch | leaf
    · simp only [leavesBelow, inorder, found]
      rfl
    · simp only [leavesBelow, inorder, found]
      rw [filterMap_page?_interleave, List.flatMap_map]
      exact List.flatMap_congr fun child _ => ih child
    · simp only [leavesBelow, inorder, found]
      rfl

theorem inorder_leaf {leaf : Leaf} (found : nodes page = .ok (.leaf leaf)) (height : Nat) :
    inorder nodes (height + 1) page = [.leaf page] := by
  simp only [inorder, found]

theorem separatorsBelow_leaf {leaf : Leaf} (found : nodes page = .ok (.leaf leaf))
    (height : Nat) : separatorsBelow nodes (height + 1) page = [] := by
  rw [separatorsBelow, inorder_leaf found]
  rfl

theorem pagesBelow_leaf {leaf : Leaf} (found : nodes page = .ok (.leaf leaf)) (height : Nat) :
    pagesBelow nodes (height + 1) page = [page] := by
  simp only [pagesBelow, found]

variable {branch : Branch} (found : nodes page = .ok (.branch branch))
  (matched : branch.children.length = branch.separators.length + 1) (height : Nat)
  (range : KeyRange)
include found matched

theorem landmarks_branch : landmarks nodes (height + 1) (page, range) =
    (branch.regions range).flatMap (landmarks nodes height) := by
  simp only [landmarks, inorder, found]
  exact ofLower_append_interleave _ matched range

theorem pagesBelow_branch : pagesBelow nodes (height + 1) page =
    page :: (branch.regions range).flatMap fun place => pagesBelow nodes height place.1 := by
  rw [← List.flatMap_map (f := Prod.fst), Branch.map_fst_regions matched]
  simp only [pagesBelow, found]

end Pages

theorem filterMap_key?_ofLower (range : KeyRange) :
    (ofLower range).filterMap key? = range.lower.toList := by
  rw [ofLower, List.filterMap_map]
  exact List.filterMap_some

/-- The keys among the landmarks of a region are its lower bound and the separators below. -/
theorem filterMap_key?_landmarks (nodes : Nodes) (height : Nat) (region : Region) :
    (landmarks nodes height region).filterMap key? =
      region.2.lower.toList ++ separatorsBelow nodes height region.1 := by
  rw [landmarks, List.filterMap_append, filterMap_key?_ofLower, separatorsBelow]

/-- Without a lower bound, the landmarks of a region are those from its page down. -/
theorem landmarks_unbounded (nodes : Nodes) (height : Nat) (page : PageNumber) :
    landmarks nodes height (page, {}) = inorder nodes height page := rfl

/-! ## Ordered trees -/

/-- Of the pages from a page down, only the place of the top page has changed. -/
def KeptBelow (nodes nodes' : Nodes) (height : Nat) (page : PageNumber) : Prop :=
  (nodes' page).map Node.detached = (nodes page).map Node.detached ∧
    ∀ other ∈ (pagesBelow nodes height page).tail, nodes' other = nodes other

/-- A part of a tree is ordered, and has the landmarks and pages that it had. -/
structure SamePart (nodes nodes' : Nodes) (height : Nat) (region : Region) : Prop where
  ordered : Ordered nodes' height region
  landmarks : landmarks nodes' height region = landmarks nodes height region
  pages : pagesBelow nodes' height region.1 = pagesBelow nodes height region.1

namespace Ordered

variable {nodes nodes' : Nodes} {height : Nat} {region : Region}

/-- A branch above parts that are what they were. -/
theorem ofParts {id : PageNumber} {range : KeyRange} {branch : Branch}
    (found : nodes' id = .ok (.branch branch))
    (matched : branch.children.length = branch.separators.length + 1)
    (separates : range.Separates branch.separators)
    (parts : ∀ place ∈ branch.regions range, SamePart nodes nodes' height place)
    (hang : ∀ place ∈ branch.regions range, Hangs nodes' (some id) place.1) :
    Ordered nodes' (height + 1) (id, range) ∧
      landmarks nodes' (height + 1) (id, range) =
        (branch.regions range).flatMap (landmarks nodes height) ∧
      pagesBelow nodes' (height + 1) id =
        id :: (branch.regions range).flatMap fun place => pagesBelow nodes height place.1 := by
  refine ⟨.branch found matched separates hang fun place member => (parts place member).ordered,
    ?_, ?_⟩
  · rw [landmarks_branch found matched]
    exact List.flatMap_congr fun place member => (parts place member).landmarks
  · rw [pagesBelow_branch found matched height range]
    exact congrArg _ (List.flatMap_congr fun place member => (parts place member).pages)

theorem exists_pagesBelow (ordered : Ordered nodes height region) :
    ∃ rest, pagesBelow nodes height region.1 = region.1 :: rest := by
  cases ordered <;> exact ⟨_, rfl⟩

theorem mem_pagesBelow (ordered : Ordered nodes height region) :
    region.1 ∈ pagesBelow nodes height region.1 := by
  obtain ⟨rest, pages⟩ := ordered.exists_pagesBelow
  rw [pages]
  exact List.mem_cons_self

/-- All pages of an ordered tree can be loaded. -/
theorem exists_node (ordered : Ordered nodes height region) :
    ∀ page ∈ pagesBelow nodes height region.1, ∃ node, nodes page = .ok node := by
  induction ordered with
  | leaf found matched separates =>
    rw [pagesBelow_leaf found]
    intro page member
    exact ⟨_, List.mem_singleton.mp member ▸ found⟩
  | @branch height region branch found matched separates hang below ih =>
    rw [pagesBelow_branch found matched height region.2]
    intro page member
    rcases List.mem_cons.mp member with rfl | further
    · exact ⟨_, found⟩
    · obtain ⟨place, inRegions, member⟩ := List.mem_flatMap.mp further
      exact ih place inRegions page member

/-- Every child in an ordered tree names the branch that has it as a child. -/
theorem hangs_below (ordered : Ordered nodes height region) :
    ∀ page ∈ pagesBelow nodes height region.1, ∀ branch, nodes page = .ok (.branch branch) →
      ∀ child ∈ branch.children, Hangs nodes (some page) child := by
  induction ordered with
  | leaf found matched separates =>
    rw [pagesBelow_leaf found]
    intro page member branch present
    rw [List.mem_singleton.mp member] at present
    cases found.symm.trans present
  | @branch height region branch found matched separates hang below ih =>
    rw [pagesBelow_branch found matched height region.2]
    intro page member other present child isChild
    rcases List.mem_cons.mp member with rfl | further
    · cases found.symm.trans present
      obtain ⟨place, inRegions, rfl⟩ := Branch.exists_region matched region.2 isChild
      exact hang place inRegions
    · obtain ⟨place, inRegions, member⟩ := List.mem_flatMap.mp further
      exact ih place inRegions page member other present child isChild

/-- If the leaves have keys, the lower bound of the region and the separators below ascend within
the region. -/
theorem separates_landmarks (ordered : Ordered nodes height region)
    (filled : ∀ page ∈ leavesBelow nodes height region.1, keysAt nodes page ≠ []) :
    region.2.Separates ((landmarks nodes height region).filterMap key?) := by
  induction ordered with
  | @leaf region leaf found matched separates =>
    rw [filterMap_key?_landmarks, separatorsBelow_leaf found, List.append_nil]
    have keys := filled region.1 (by rw [leavesBelow_leaf found]; exact List.mem_cons_self)
    rw [keysAt_leaf found] at keys
    obtain ⟨key, inLeaf⟩ := List.exists_mem_of_ne_nil _ keys
    obtain ⟨low, high⟩ := KeyRange.contains_iff.mp (separates.within key inLeaf)
    cases bound : region.2.lower with
    | none => exact .nil _
    | some lower =>
      have before : lower ≤ key := low lower bound
      refine .singleton (KeyRange.contains_iff.mpr ⟨fun other is => ?_, fun upper is => ?_⟩)
      · rw [Option.some.inj (bound.symm.trans is)]
        exact Int32.le_refl _
      · exact Std.lt_of_le_of_lt before (high upper is)
  | @branch height region branch found matched separates hang below ih =>
    have parts : ∀ place ∈ branch.regions region.2,
        place.2.Separates ((landmarks nodes height place).filterMap key?) := by
      intro place member
      refine ih place member fun page isLeaf => filled page ?_
      rw [leavesBelow_branch found matched height region.2, List.mem_flatMap]
      exact ⟨place, member, isLeaf⟩
    rw [landmarks_branch found matched height region.2, List.filterMap_flatMap]
    refine ⟨List.pairwise_flatMap.mpr ⟨fun place member => (parts place member).ascending, ?_⟩,
      fun key member => ?_⟩
    · refine (Branch.pairwise_regions matched separates).imp_of_mem ?_
      intro first second inFirst inSecond order low inLow high inHigh
      exact order low high ((parts first inFirst).within low inLow)
        ((parts second inSecond).within high inHigh)
    · obtain ⟨place, inRegions, inPlace⟩ := List.mem_flatMap.mp member
      exact Branch.contains_of_mem_regions separates inRegions
        ((parts place inRegions).within key inPlace)

/-- **The separators of an ordered tree ascend if its leaves have keys.** -/
theorem ascending_separators {root : PageNumber} (ordered : Ordered nodes height (root, {}))
    (filled : ∀ page ∈ leavesBelow nodes height root, keysAt nodes page ≠ []) :
    (separatorsBelow nodes height root).Pairwise (· < ·) := by
  have separates := ordered.separates_landmarks filled
  rw [landmarks_unbounded] at separates
  exact separates.ascending

/-- An ordered tree stays what it is if only the place of its top page changes. -/
theorem kept (ordered : Ordered nodes height region)
    (kept : KeptBelow nodes nodes' height region.1) : SamePart nodes nodes' height region := by
  induction ordered with
  | @leaf region leaf found matched separates =>
    obtain ⟨other, found', -, keys, values⟩ := Node.exists_leaf_of_detached kept.1 found
    refine ⟨.leaf found' (by rw [keys, values, matched]) (keys ▸ separates), ?_, ?_⟩
    · rw [landmarks, landmarks, inorder_leaf found', inorder_leaf found]
    · rw [pagesBelow_leaf found', pagesBelow_leaf found]
  | @branch height region branch found matched separates hang below ih =>
    obtain ⟨same, rest⟩ := kept
    rw [pagesBelow_branch found matched height region.2, List.tail_cons] at rest
    obtain ⟨other, found', separators, children⟩ := Node.exists_branch_of_detached same found
    have regions : other.regions region.2 = branch.regions region.2 := by
      rw [Branch.regions, Branch.regions, separators, children]
    have still : ∀ place ∈ branch.regions region.2,
        ∀ page ∈ pagesBelow nodes height place.1, nodes' page = nodes page :=
      fun place member page inPlace => rest page (List.mem_flatMap.mpr ⟨place, member, inPlace⟩)
    have stillAt := fun place member => still place member _ (below place member).mem_pagesBelow
    have parts : ∀ place ∈ branch.regions region.2, SamePart nodes nodes' height place :=
      fun place member => ih place member ⟨by rw [stillAt place member],
        fun page inTail => still place member page (List.mem_of_mem_tail inTail)⟩
    rw [← regions] at parts hang
    have whole := ofParts found' (by rw [separators, children, matched]) (separators ▸ separates)
      parts fun place member => (hang place member).congr (stillAt place (regions ▸ member))
    refine ⟨whole.1, ?_, ?_⟩
    · rw [whole.2.1, landmarks_branch found matched height region.2, regions]
    · rw [whole.2.2, pagesBelow_branch found matched height region.2, regions]

/-- The tops of parts without a common page are distinct, and none stands below another. -/
theorem nodup_tops {places : List Region} (parts : ∀ place ∈ places, Ordered nodes height place)
    (distinct : (places.flatMap fun place => pagesBelow nodes height place.1).Nodup) :
    (places.map Prod.fst ++
      places.flatMap fun place => (pagesBelow nodes height place.1).tail).Nodup := by
  have pages : (places.flatMap fun place => pagesBelow nodes height place.1) =
      places.flatMap fun place => place.1 :: (pagesBelow nodes height place.1).tail := by
    refine List.flatMap_congr fun place member => ?_
    obtain ⟨rest, pages⟩ := (parts place member).exists_pagesBelow
    rw [pages, List.tail_cons]
  rw [pages] at distinct
  exact (List.map_append_flatMap_perm ..).nodup_iff.mpr distinct

end Ordered

end RowStore
