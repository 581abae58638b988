import Mathlib.Data.List.Induction
import RowStore.Proofs.Tree.Filling
import RowStore.Proofs.Tree.Lookup

/-!
# How much a tree grows

Before an insertion cuts a leaf, it counts the pages that the cuts will take, along the
parent references. What is counted there is what is taken: an insertion that succeeds
takes no page into use if the leaf can hold the new cell, and as many pages as were
counted if it cannot (`Tree.Reached.insert_grows`).

The same count says whether the tree gets a level more. Each full branch on the way up
takes a page, and above the root there is one more for a new root. So the tree gets a level
more exactly if no branch on the way from the root to the leaf has room, that is, if each
has 509 separators. If the leaf is the root, there is no branch on the way.
-/

set_option autoImplicit false

namespace RowStore

open Store

/-! ## The way down to a page -/

/-- If every child names the branch above it as its parent and the root has none, there is one way
down to each page. -/
theorem Leads.unique {nodes : Nodes} {root page : PageNumber} {path other : List Branch}
    (free : Hangs nodes none root)
    (hang : ∀ id branch, nodes id = .ok (.branch branch) → ∀ child ∈ branch.children,
      Hangs nodes (some id) child)
    (leads : Leads nodes root path page) (leads' : Leads nodes root other page) : other = path := by
  have below : ∀ {path : List Branch} {branch : Branch},
      ¬Leads nodes root (path ++ [branch]) root := by
    intro path branch around
    obtain ⟨last, -, found, isChild⟩ := leads_concat_iff.mp around
    cases (hang last branch found root isChild).unique free
  induction path using List.reverseRecOn generalizing page other with
  | nil =>
    obtain rfl : root = page := leads
    rcases List.eq_nil_or_concat' other with rfl | ⟨front, branch, rfl⟩
    · rfl
    · exact absurd leads' below
  | append_singleton path branch ih =>
    rcases List.eq_nil_or_concat' other with rfl | ⟨front, branch', rfl⟩
    · obtain rfl : root = page := leads'
      exact absurd leads below
    · obtain ⟨last, there, found, isChild⟩ := leads_concat_iff.mp leads
      obtain ⟨last', there', found', isChild'⟩ := leads_concat_iff.mp leads'
      cases (hang last branch found page isChild).unique (hang last' branch' found' page isChild')
      cases found.symm.trans found'
      rw [ih there there']

/-- A branch that fits a page is full with 509 separators, and not before. -/
theorem Branch.Fits.full_iff {branch : Branch} {range : KeyRange} (fits : branch.Fits range) :
    branch.canGrow = false ↔ branch.separators.length = 509 := by
  have few := fits.separators_le
  rw [canGrow, decide_eq_false_iff_not, Branch.size_eq fits.matched, entrySize, Page.size]
  omega

/-- There is one branch for each row on the way down to a page of a row. Cuts above the page take a
page for each row and one for a new root exactly if all these branches are full. -/
theorem Crown.exists_path {nodes : Nodes} {root : PageNumber} {levels : Nat} {row : List Region}
    {above : List PageNumber} (crown : Crown nodes root levels row above) {region : Region}
    (member : region ∈ row) :
    ∃ path, Leads nodes root path region.1 ∧ path.length = levels ∧
      ∀ parent needed, Hangs nodes parent region.1 → PagesAbove nodes parent needed →
        (needed = levels + 1 ↔ ∀ branch ∈ path, branch.separators.length = 509) := by
  induction crown generalizing region with
  | root top =>
    rw [List.mem_singleton.mp member]
    refine ⟨[], rfl, rfl, fun parent needed hangs counted => ?_⟩
    cases hangs.unique top
    cases counted
    exact iff_of_true rfl (List.forall_mem_nil _)
  | @row levels upper row above crown branches parts ih =>
    obtain ⟨place, inUpper, inRegions⟩ := List.mem_flatMap.mp (parts ▸ member)
    obtain ⟨branch, found, fits, -, hang⟩ := branches place inUpper
    rw [regionsBelow_branch found] at inRegions
    have isChild : region.1 ∈ branch.children := by
      rw [← fits.map_fst_regions]
      exact List.mem_map_of_mem inRegions
    obtain ⟨path, leads, count, all⟩ := ih inUpper
    refine ⟨path ++ [branch], leads_concat_iff.mpr ⟨place.1, leads, found, isChild⟩, ?_, ?_⟩
    · rw [List.length_append, count]
      rfl
    intro parent needed hangs counted
    cases hangs.unique (hang region.1 isChild)
    rw [List.forall_mem_append, List.forall_mem_singleton, ← fits.full_iff]
    cases counted with
    | room found' room =>
      cases found.symm.trans found'
      rw [room]
      exact iff_of_false (Nat.succ_ne_zero _).symm fun both => Bool.noConfusion both.2
    | full found' full counted =>
      cases found.symm.trans found'
      rw [Nat.succ_inj, and_iff_left full]
      exact all _ _ (crown.hangs_of inUpper found) counted

namespace Layout

variable {view : View} {root : PageNumber} {levels : Nat} {row : List Region}
  {above : List PageNumber}

/-- In a tree every child names the branch above it as its parent. -/
theorem hangs_of_branch (layout : Layout view root levels row above) (closed : view.Closed)
    {id : PageNumber} {branch : Branch} (found : view.nodes id = .ok (.branch branch)) :
    ∀ child ∈ branch.children, Hangs view.nodes (some id) child := by
  rcases List.mem_append.mp ((layout.complete id).mpr (closed id _ found)) with inRow | higher
  · obtain ⟨region, member, rfl⟩ := List.mem_map.mp inRow
    obtain ⟨leaf, present, -⟩ := layout.leaves region member
    cases found.symm.trans present
  · obtain ⟨fewest, range, other, present, -, -, hang⟩ := layout.crown.branches id higher
    cases found.symm.trans present
    exact hang

end Layout

namespace Tree

/-- What an insertion has done to the number of pages in use and to the height.

The search for the key ends at the given leaf, below the given branches, and no other way leads
there. If the leaf can hold the new cell, neither number changes. If it cannot, as many pages are
taken into use as are counted beforehand, and there is a level more exactly if all the branches are
full. -/
structure Growth (tree : Tree) (store : Store) (key : Key) (value : Bytes) (tree' : Tree)
    (after : Store) (page : PageNumber) (leaf : Leaf) (path : List Branch) (height height' : Nat) :
    Prop where
  search : answer (tree.leafFor key) store = .ok page
  found : store.peek page = .ok (.leaf leaf)
  leads : Leads store.peek tree.root path page
  only : ∀ other, Leads store.peek tree.root other page → other = path
  before : answer tree.height store = .ok height
  afterwards : answer tree'.height after = .ok height'
  kept : (leaf.insert key value).size ≤ Page.size →
    after.pagesInUse = store.pagesInUse ∧ height' = height
  cut : Page.size < (leaf.insert key value).size →
    (∃ needed, answer (pagesToDivide leaf) store = .ok needed ∧
      after.pagesInUse = store.pagesInUse + needed) ∧
    height' = if ∀ branch ∈ path, branch.separators.length = 509 then height + 1 else height

/-- **An insertion takes the pages that it has counted**, and adds a level exactly if all branches
on the way to the leaf are full. -/
theorem Reached.insert_grows {most : Nat} {tree tree' : Tree} {store after : Store}
    {accepted : List (Key × Bytes)} (reached : Reached most tree store accepted) {key : Key}
    {value : Bytes} (inserts : tree.insert key value store = .ok tree' after) :
    ∃ page leaf path height height',
      Growth tree store key value tree' after page leaf path height height' := by
  obtain ⟨regular, levels, row, above, layout, -⟩ := reached.holds
  obtain ⟨front, region, back, leaf, rfl, found, fits, has, search⟩ := layout.exists_leafFor key
  have member : region ∈ front ++ region :: back := by simp
  obtain ⟨-, -, -, -, levels', row', above', layout', entered⟩ :=
    (layout.insert regular found has search).of_ok inserts
  obtain ⟨path, leads, -, all⟩ := layout.crown.exists_path member
  have fitting := Leaf.hasRoomFor_iff fits.matched key value
  refine ⟨region.1, leaf, path, levels + 1, levels' + 1, search.answer_eq_ok, found, leads,
    fun other leads' => leads.unique layout.crown.hangs_root
      (fun id branch => layout.hangs_of_branch regular.closed) leads',
    layout.height.answer_eq_ok, layout'.height.answer_eq_ok, fun small => ?_, fun large => ?_⟩
  · cases entered with
    | whole _ _ _ pages => exact ⟨pages, rfl⟩
    | halves full => exact absurd (fitting.mpr small) full
  · cases entered with
    | whole room => exact absurd (fitting.mp room) (Nat.not_le_of_lt large)
    | @halves needed _ _ _ _ counted _ _ _ _ pages =>
      obtain ⟨_, _, run, few, -, higher, rfl, counted'⟩ :=
        (layout.pagesToDivide member found).exists_ok
      cases counted.unique counted'
      refine ⟨⟨needed + 1, by rw [answer, run], pages⟩, ?_⟩
      have full := all _ _ (layout.crown.hangs_of member found) counted
      split
      next every => rw [full.mpr every, Nat.max_eq_right (Nat.le_succ _)]
      next room =>
        have fewer : needed ≠ levels + 1 := fun equal => room (full.mp equal)
        rw [Nat.max_eq_left (by omega)]

/-- A root that is cut makes two pages and a level more. -/
theorem insert_grows_pair : ∃ page leaf path height height',
    Growth { root := 0 } (rootLeaf 100 [1, 2] [halfValue, halfValue]) 3 halfValue { root := 2 }
      cutStore page leaf path height height' :=
  Reached.insert_grows (reached_pair (by decide)) insert_pair

end Tree

end RowStore
