import RowStore.Proofs.Tree.Forks
import RowStore.Proofs.Tree.Guarantees

/-!
# What entering a new leaf in a tree adds to it

After a leaf of a tree was cut, its upper half is entered in the branches above, which may be cut in
turn, one after the other, up to a new root. However many are cut, the tree has got the new leaf
right behind the old one, the separator between them, and nothing else: all other leaves and
separators are what they were, in the same order, and every separator still occurs once
(`Tree.attach_propagates`). The separator that moves up when a branch is cut stands in neither half.

The induction is on the rows of branches above the fork. What it carries along is the list of all
landmarks, which no step changes, so that it need not be known how the children of a branch are cut.
In particular each page is found in the branch that it names as its parent, behind the separators
that are not greater than its own, at every level; the fault for a page that is not there cannot
occur.

Nothing is asked of how many bytes a node takes or how many children a branch has. Branches of any
size are cut, as long as the pages for the cuts are left, and the trees that insertions make are a
special case (`Tree.Reached.wellFormed`).
-/

set_option autoImplicit false

namespace RowStore

open Store Landmark

/-! ## Well-formed trees -/

/-- An ordered tree of the given height. No page stands in it twice, and its separators ascend from
left to right. -/
structure Tree.WellFormed (tree : Tree) (nodes : Nodes) (height : Nat) : Prop where
  hangs : Hangs nodes none tree.root
  ordered : Ordered nodes height (tree.root, {})
  distinct : (pagesBelow nodes height tree.root).Nodup
  ascending : (separatorsBelow nodes height tree.root).Pairwise (· < ·)

/-- A root above leaves is a well-formed tree if its separators ascend and each leaf has its keys
between those next to it. -/
theorem Tree.wellFormed_of_leaves {nodes : Nodes} {root : PageNumber} {branch : Branch}
    (atRoot : nodes root = .ok (.branch branch)) (free : branch.parent = none)
    (marked : branch.rootMark = true)
    (matched : branch.children.length = branch.separators.length + 1)
    (ascending : branch.separators.Pairwise (· < ·))
    (leaves : ∀ place ∈ branch.regions {}, ∃ leaf, nodes place.1 = .ok (.leaf leaf) ∧
      leaf.parent = some root ∧ leaf.rootMark = false ∧
      leaf.values.length = leaf.keys.length ∧ place.2.Separates leaf.keys)
    (distinct : (root :: branch.children).Nodup) : WellFormed { root } nodes 2 := by
  have isLeaf : ∀ child ∈ branch.children, ∃ leaf, nodes child = .ok (.leaf leaf) := by
    intro child isChild
    obtain ⟨place, member, rfl⟩ := Branch.exists_region matched {} isChild
    obtain ⟨leaf, found, -⟩ := leaves place member
    exact ⟨leaf, found⟩
  have pages : pagesBelow nodes 2 root = root :: branch.children := by
    simp only [pagesBelow, atRoot]
    refine congrArg _ ((List.flatMap_congr fun child isChild => ?_).trans
      (List.flatMap_singleton' branch.children))
    obtain ⟨leaf, found⟩ := isLeaf child isChild
    simp only [found]
  have separators : separatorsBelow nodes 2 root = branch.separators := by
    simp only [separatorsBelow, inorder, atRoot]
    refine filterMap_key?_interleave (List.forall_mem_map.mpr fun child isChild => ?_)
      (by rw [List.length_map, matched])
    obtain ⟨leaf, found⟩ := isLeaf child isChild
    simp only [found]
    rfl
  refine ⟨⟨_, atRoot, free, marked⟩, .branch atRoot matched ⟨ascending, fun key _ => ?_⟩
    (fun place member => ?_) fun place member => ?_, pages ▸ distinct, separators ▸ ascending⟩
  · exact KeyRange.contains_unbounded key
  · obtain ⟨leaf, found, hung, unmarked, -⟩ := leaves place member
    exact ⟨_, found, hung, unmarked⟩
  · obtain ⟨leaf, found, -, -, matched, separates⟩ := leaves place member
    exact .leaf found matched separates

section Fork

variable {view : View} {root upper : PageNumber} {height levels : Nat} {region : Region}
  {separator : Key} {front back whole : List Landmark} {others : List PageNumber}

/-- A tree with a part in its place. -/
theorem Placed.wellFormed (placed : Placed view root height levels region front back others)
    (marks : front ++ landmarks view.nodes height region ++ back = whole)
    (ascending : (whole.filterMap key?).Pairwise (· < ·)) :
    Tree.WellFormed { root } view.nodes (height + levels) ∧
      inorder view.nodes (height + levels) root = whole := by
  have read := placed.around.inorder_eq.trans marks
  refine ⟨⟨placed.around.hangs_root, placed.around.ordered placed.part, ?_, ?_⟩, read⟩
  · exact placed.around.pagesBelow_perm.nodup_iff.mpr placed.distinct
  · rw [separatorsBelow, read]
    exact ascending

/-- The landmarks of a tree with a leaf in its place. -/
theorem Placed.inorder_leaf {leaf : Leaf}
    (placed : Placed view root 1 levels region front back others)
    (found : view.nodes region.1 = .ok (.leaf leaf)) :
    inorder view.nodes (1 + levels) root =
      front ++ ofLower region.2 ++ .leaf region.1 :: back := by
  rw [placed.around.inorder_eq, landmarks, RowStore.inorder_leaf found]
  simp only [List.append_assoc, List.singleton_append]

theorem Placed.mem_pagesBelow_leaf {leaf : Leaf}
    (placed : Placed view root 1 levels region front back others)
    (found : view.nodes region.1 = .ok (.leaf leaf)) {page : PageNumber} :
    page ∈ pagesBelow view.nodes (1 + levels) root ↔ page = region.1 ∨ page ∈ others := by
  rw [placed.around.pagesBelow_perm.mem_iff, pagesBelow_leaf found, List.singleton_append,
    List.mem_cons]

/-- If the separators of a tree ascend, they do with one more in the place where the range of a leaf
can be cut. -/
theorem Placed.ascending_insert {leaf : Leaf}
    (placed : Placed view root 1 levels region front back others)
    (found : view.nodes region.1 = .ok (.leaf leaf)) (admits : region.2.Admits separator)
    (ascending : (separatorsBelow view.nodes (1 + levels) root).Pairwise (· < ·))
    (upper : PageNumber) :
    ((front ++ ofLower region.2 ++ .leaf region.1 :: .separator separator :: .leaf upper ::
      back).filterMap key?).Pairwise (· < ·) := by
  rw [separatorsBelow, placed.inorder_leaf found] at ascending
  simp only [List.filterMap_append, filterMap_key?_ofLower] at ascending ⊢
  exact placed.around.pairwise_insert admits ascending

/-! ## All the way up -/

/-- **Entering the upper half of a fork makes a well-formed tree with the landmarks of the fork.**
It takes as many pages as were counted above it, and cannot fail if these are left. -/
theorem Forked.attachWithin
    (forked : Forked view root height levels region separator upper front back others)
    (marks : front ++ (cutRegion region separator upper).flatMap (landmarks view.nodes height) ++
      back = whole)
    (ascending : (whole.filterMap key?).Pairwise (· < ·)) {parent : Option PageNumber}
    (hangs : Hangs view.nodes parent region.1) {needed : Nat}
    (counted : PagesAbove view.nodes parent needed) {budget : Nat} (enough : needed ≤ budget)
    (room : view.pagesInUse + needed ≤ view.limit.toNat) :
    Promises view (Tree.attachWithin { root } budget region.1 separator upper)
      (fun tree after => after.pagesInUse = view.pagesInUse + needed ∧
        Spares view after ((cutRegion region separator upper).flatMap
          (fun place => pagesBelow view.nodes height place.1) ++ others) ∧
        ∃ height', tree.WellFormed after.nodes height' ∧
          inorder after.nodes height' tree.root = whole)
      (fun _ _ => False) := by
  induction levels generalizing view height region separator upper front back others parent needed
    budget with
  | zero =>
    obtain ⟨rfl, rfl, rfl, rfl⟩ := forked.eq_root
    cases hangs.unique forked.around.hangs_root
    cases counted
    obtain ⟨node, atRoot, free, -⟩ := hangs
    obtain ⟨node', atUpper, -⟩ := forked.unmarked
    rw [Tree.attachWithin_eq]
    refine .bind (.load_of atRoot ?_)
    rw [free]
    refine .growRoot_of forked.closed atRoot atUpper forked.upper_ne (fun left => ?_)
      fun full => absurd room (by omega)
    obtain ⟨placed, marks'⟩ := forked.crowned atRoot atUpper left
    refine ⟨rfl, forked.spares_crowned atRoot atUpper left, _, placed.wellFormed ?_ ascending⟩
    rw [marks', ← marks]
  | succ levels ih =>
    obtain ⟨branchAt, branch, near, far, front', back', others', below, rfl, rfl, pages⟩ :=
      forked.exists_parent
    obtain ⟨node, found, -⟩ := below.unmarked
    cases hangs.unique (below.hang region (mem_row_iff.mpr (.inl rfl)))
    obtain ⟨child, childFound, hung, -⟩ := hangs
    obtain ⟨placed, marks', -⟩ := below.placed found
    have whole' : front' ++ landmarks (view.entered branchAt.1 (branch.insert separator upper) upper
        node).nodes (height + 1) branchAt ++ back' = whole := by
      rw [marks', cutRow_eq, ← marks]
      simp only [List.flatMap_append, List.append_assoc]
    have isFull := Branch.canGrow_eq_false_iff below.matched separator upper
    rw [Tree.attachWithin_eq_enterAbove]
    refine .enterAbove_of childFound hung below.found
      (Branch.getElem?_position below.separates below.admits below.here) below.upper_ne found
      (fun fitting => ?_) fun large => ?_
    · cases counted with
      | full present full =>
        cases below.found.symm.trans present
        exact absurd fitting (Nat.not_le.mpr (isFull.mp full))
      | room =>
        exact ⟨rfl, (below.spares found).mono pages.subset, _, placed.wellFormed whole' ascending⟩
    · cases counted with
      | room present room =>
        cases below.found.symm.trans present
        rw [isFull.mpr large] at room
        cases room
      | @full _ _ needed present full counted =>
        cases below.found.symm.trans present
        obtain ⟨budget, rfl⟩ : ∃ fewer, budget = fewer + 1 := ⟨budget - 1, by omega⟩
        have left : view.pagesInUse < view.limit.toNat := by omega
        have onwards : view.pagesInUse + 1 + needed ≤ view.limit.toNat := by omega
        obtain ⟨forked', marks'', hangs, counts, spares, pages'⟩ := below.climb found large left rfl
        have several := Branch.several_separators
          (Branch.matched_insert below.matched separator upper) large
        refine .bind (placed.divideBranch (View.nodes_entered_branch below.upper_ne.symm) several
          left ?_)
        refine (ih forked' (by rw [marks'', ← marks', whole']) hangs (counts needed counted)
          (Nat.le_of_succ_le_succ enough) onwards).weaken ?_ fun _ _ never => never
        rintro tree after ⟨inUse, higher, settled⟩
        refine ⟨inUse.trans (Nat.succ_add_eq_add_succ ..), ?_, settled⟩
        refine (spares.mono pages.subset).trans higher (Nat.le_succ _) fun page member old => ?_
        rcases List.mem_cons.mp (pages'.subset member) with rfl | known
        · exact absurd rfl (View.ne_fresh left old)
        · exact pages.subset known

/-- Entering the upper half of a fork takes as many rounds as there are pages left, which is
enough. -/
theorem Forked.attach
    (forked : Forked view root height levels region separator upper front back others)
    (marks : front ++ (cutRegion region separator upper).flatMap (landmarks view.nodes height) ++
      back = whole)
    (ascending : (whole.filterMap key?).Pairwise (· < ·)) {parent : Option PageNumber}
    (hangs : Hangs view.nodes parent region.1) {needed : Nat}
    (counted : PagesAbove view.nodes parent needed)
    (room : view.pagesInUse + needed ≤ view.limit.toNat) :
    Promises view (Tree.attach { root } region.1 separator upper)
      (fun tree after => after.pagesInUse = view.pagesInUse + needed ∧
        Spares view after ((cutRegion region separator upper).flatMap
          (fun place => pagesBelow view.nodes height place.1) ++ others) ∧
        ∃ height', tree.WellFormed after.nodes height' ∧
          inorder after.nodes height' tree.root = whole)
      (fun _ _ => False) := by
  refine .bind (.bind (.get fun store same => .pure ?_))
  subst same
  exact forked.attachWithin marks ascending hangs counted (Nat.le_sub_of_add_le' room) room

end Fork

/-! ## After a cut of a leaf -/

namespace Tree

/-- A leaf was cut in a tree and its upper half has been entered above. The tree has the new leaf
and the separator between the halves, and it has nothing else that it did not have.

Before the cut, the old leaf stands between some landmarks, `front` and `back`. Afterwards, the
separator and the new leaf stand between them too, and this says where the new leaf is among the
leaves, and the new separator among the separators. Each separator stands in one branch, and once.
Every child names the branch that has it as a child. No leaf has changed since the cut but for its
parent, and pages that do not belong to the tree have not changed. -/
structure Propagated (store split after : Store) (tree tree' : Tree) (height height' : Nat)
    (lower : PageNumber) (separator : Key) (upper : PageNumber) (front back : List Landmark) :
    Prop where
  wellFormed : tree'.WellFormed after.peek height'
  before : inorder store.peek height tree.root = front ++ .leaf lower :: back
  landmarks : inorder after.peek height' tree'.root =
    front ++ .leaf lower :: .separator separator :: .leaf upper :: back
  leaves : leavesBelow store.peek height tree.root =
      front.filterMap page? ++ lower :: back.filterMap page? ∧
    leavesBelow after.peek height' tree'.root =
      front.filterMap page? ++ lower :: upper :: back.filterMap page?
  separators : separatorsBelow store.peek height tree.root =
      front.filterMap key? ++ back.filterMap key? ∧
    separatorsBelow after.peek height' tree'.root =
      front.filterMap key? ++ separator :: back.filterMap key?
  once : (separatorsBelow after.peek height' tree'.root).Nodup
  parents : ∀ page ∈ pagesBelow after.peek height' tree'.root, ∀ branch,
    after.peek page = .ok (.branch branch) →
      ∀ child ∈ branch.children, Hangs after.peek (some page) child
  cells : ∀ page leaf, split.peek page = .ok (.leaf leaf) →
    ∃ leaf', after.peek page = .ok (.leaf leaf') ∧ leaf'.next = leaf.next ∧
      leaf'.keys = leaf.keys ∧ leaf'.values = leaf.values
  elsewhere : ∀ page, page.toNat < store.pagesInUse →
    page ∉ pagesBelow store.peek height tree.root → after.peek page = store.peek page

section Attach

variable {store split : Store} {tree : Tree} {height : Nat} {lower upper : PageNumber}
  {separator : Key}

/-- What is around a leaf of a well-formed tree. -/
theorem WellFormed.exists_placed (wellFormed : tree.WellFormed store.peek height)
    (closed : store.view.Closed) (member : lower ∈ leavesBelow store.peek height tree.root) :
    ∃ levels range front back others, 1 + levels = height ∧
      Placed store.view tree.root 1 levels (lower, range) front back others := by
  obtain ⟨levels, range, front, back, others, around, part, rfl⟩ :=
    (Around.root wellFormed.hangs).exists_of_mem wellFormed.ordered member
  exact ⟨levels, range, front, back, others, rfl, closed, around, part,
    around.pagesBelow_perm.nodup_iff.mp wellFormed.distinct⟩

/-- **After a leaf of a well-formed tree was cut, entering its upper half adds one leaf and one
separator to the tree, and nothing else.** It cannot fail if the pages are left that the cuts take,
of which there is at most one for each level. -/
theorem attach_propagates (closed : store.view.Closed)
    (wellFormed : tree.WellFormed store.peek height)
    (member : lower ∈ leavesBelow store.peek height tree.root)
    (cut : divideLeaf lower store = .ok (separator, upper) split) :
    ∃ leaf needed, store.peek lower = .ok (.leaf leaf) ∧
      PagesAbove split.peek leaf.parent needed ∧ needed ≤ height ∧
      (split.pagesInUse + needed ≤ split.limit.toNat →
        ∃ tree' after height' front back,
          tree.attach lower separator upper split = .ok tree' after ∧
          after.pagesInUse = split.pagesInUse + needed ∧
          Propagated store split after tree tree' height height' lower separator upper front
            back) := by
  obtain ⟨leaf, found, -⟩ := wellFormed.ordered.exists_leaf lower member
  obtain ⟨levels, range, front, back, others, rfl, placed⟩ :=
    wellFormed.exists_placed closed member
  obtain ⟨several, room, pair, view⟩ :=
    (promises_divideLeaf found (closed lower _ found)).of_ok cut
  obtain ⟨rfl, rfl⟩ := Prod.mk.inj pair
  obtain ⟨forked, marks, pages⟩ := placed.fork_leaf found several room
  have atLower : split.view.nodes lower = .ok (.leaf (leaf.divide store.view.fresh).1) := by
    rw [view]
    exact View.nodes_split_self
  rw [← view] at forked marks pages
  have hangs := forked.around.hangs_of atLower
  obtain ⟨needed, few, counted⟩ := forked.around.exists_pagesAbove hangs
  refine ⟨leaf, needed, found, counted, Nat.add_comm 1 levels ▸ few, fun enough => ?_⟩
  have before : inorder store.peek (1 + levels) tree.root =
      front ++ ofLower range ++ .leaf lower :: back := placed.inorder_leaf found
  have ascending := placed.ascending_insert found forked.admits wellFormed.ascending
    store.view.fresh
  obtain ⟨tree', after, run, inUse, spares, height', wellFormed', read⟩ :=
    (forked.attach (by rw [marks]; simp) ascending hangs counted enough).exists_ok
  have read : inorder after.peek height' tree'.root = _ := read
  refine ⟨tree', after, height', front ++ ofLower range, back, run, inUse, {
    wellFormed := wellFormed'
    before
    landmarks := read
    leaves := ?_
    separators := ?_
    once := wellFormed'.ascending.imp fun low => Int32.ne_of_lt low
    parents := wellFormed'.ordered.hangs_below
    cells := spares.leaves
    elsewhere := ?_ }⟩
  · rw [leavesBelow_eq_filterMap, leavesBelow_eq_filterMap, before, read]
    constructor <;> rw [List.filterMap_append] <;> rfl
  · rw [separatorsBelow, separatorsBelow, before, read]
    constructor <;> rw [List.filterMap_append] <;> rfl
  · intro page old absent
    have listed : page ∈ pagesBelow store.peek (1 + levels) tree.root ↔
      page = lower ∨ page ∈ others := placed.mem_pagesBelow_leaf found
    rw [listed, not_or] at absent
    have notFresh : page ≠ store.view.fresh := View.ne_fresh room old
    have still : split.view.nodes page = store.peek page := by
      rw [view]
      exact View.nodes_split_of_ne absent.1 notFresh
    have inSplit : page.toNat < split.view.pagesInUse := by
      rw [view]
      exact Nat.lt_succ_of_lt old
    refine (spares.elsewhere page inSplit ?_).trans still
    rw [pages]
    exact List.not_mem_cons_of_ne_of_not_mem absent.1
      (List.not_mem_cons_of_ne_of_not_mem notFresh absent.2)

section WideRoot

variable {count : Nat}

/-- A root with many children. -/
def wideRoot (count : Nat) : Branch where
  rootMark := true
  separators := 10 :: (List.range count).map fun index => Int32.ofNat (index + 11)
  children := 1 :: (List.range (count + 1)).map fun index => UInt32.ofNat (index + 2)

/-- A leaf with two cells. -/
def twoCells : Leaf := { parent := some 0, keys := [1, 5], values := [[], [7]] }

/-- A store with a root above this leaf and many empty ones. -/
def wideStore (count : Nat) : Store where
  slots := (some (.branch (wideRoot count)) :: some (.leaf twoCells) ::
    List.replicate (count + 1) (some (.leaf { parent := some 0 }))).toArray
  limit := 600

theorem matched_wideRoot (count : Nat) :
    (wideRoot count).children.length = (wideRoot count).separators.length + 1 := by
  simp [wideRoot]

theorem ascending_wideRoot (few : count ≤ 600) :
    (wideRoot count).separators.Pairwise (· < ·) := by
  refine List.pairwise_cons.mpr ⟨fun other member => ?_, List.pairwise_map.mpr ?_⟩
  · obtain ⟨index, below, rfl⟩ := List.mem_map.mp member
    have below := List.mem_range.mp below
    exact (Int32.ofNat_lt_iff_lt (a := 10) (by decide) (by omega)).mpr (by omega)
  · refine List.pairwise_lt_range.imp_of_mem fun _ inSecond below => ?_
    have inside := List.mem_range.mp inSecond
    exact (Int32.ofNat_lt_iff_lt (by omega) (by omega)).mpr (by omega)

theorem peek_wideStore_root (count : Nat) :
    (wideStore count).peek 0 = .ok (.branch (wideRoot count)) :=
  peek_of_slot (by simp [wideStore])

theorem peek_wideStore_first (count : Nat) : (wideStore count).peek 1 = .ok (.leaf twoCells) :=
  peek_of_slot (by simp [wideStore])

theorem peek_wideStore_later (few : count ≤ 600) {page : PageNumber}
    (later : page ∈ (wideRoot count).children.tail) :
    2 ≤ page.toNat ∧ (wideStore count).peek page = .ok (.leaf { parent := some 0 }) := by
  obtain ⟨index, below, rfl⟩ := List.mem_map.mp later
  have below := List.mem_range.mp below
  have number : (UInt32.ofNat (index + 2)).toNat = index + 2 := by
    rw [UInt32.toNat_ofNat']
    omega
  refine ⟨by omega, peek_of_slot ?_⟩
  rw [number, wideStore]
  simp [below]

theorem nodup_wideRoot (few : count ≤ 600) : (0 :: (wideRoot count).children).Nodup := by
  have large : ∀ page ∈ (wideRoot count).children.tail, 2 ≤ page.toNat := fun page member =>
    (peek_wideStore_later few member).1
  refine List.nodup_cons.mpr ⟨fun member => ?_, List.nodup_cons.mpr ⟨fun member => ?_, ?_⟩⟩
  · rcases List.mem_cons.mp member with isFirst | later
    · cases isFirst
    · exact absurd (large 0 later) (by decide)
  · exact absurd (large 1 member) (by decide)
  · refine List.Nodup.map_on (fun first inFirst second inSecond same => ?_) List.nodup_range
    have inside := List.mem_range.mp inFirst
    have inside' := List.mem_range.mp inSecond
    have number := congrArg UInt32.toNat same
    rw [UInt32.toNat_ofNat', UInt32.toNat_ofNat'] at number
    omega

theorem wellFormed_wide (few : count ≤ 600) :
    WellFormed { root := 0 } (wideStore count).peek 2 := by
  refine wellFormed_of_leaves (peek_wideStore_root count) rfl rfl (matched_wideRoot count)
    (ascending_wideRoot few) (fun place member => ?_) (nodup_wideRoot few)
  rcases List.mem_cons.mp member with rfl | other
  · exact ⟨_, peek_wideStore_first count, rfl, rfl, rfl,
      (KeyRange.Separates.singleton rfl).cons_of_lt rfl (by decide)⟩
  · obtain ⟨-, empty⟩ := peek_wideStore_later few (List.of_mem_zip other).1
    exact ⟨_, empty, rfl, rfl, rfl, .nil _⟩

theorem mem_leavesBelow_wide (count : Nat) :
    (1 : PageNumber) ∈ leavesBelow (wideStore count).peek 2 0 := by
  rw [leavesBelow_branch (peek_wideStore_root count) (matched_wideRoot count) 1 {}]
  refine List.mem_flatMap.mpr ⟨(1, KeyRange.below {} 10), List.mem_cons_self, ?_⟩
  rw [leavesBelow_leaf (peek_wideStore_first count)]
  exact List.mem_cons_self

/-- The first leaf can be cut, which leaves the root as it is. -/
theorem divideLeaf_wide (few : count < 520) :
    ∃ split, divideLeaf 1 (wideStore count) = .ok (5, UInt32.ofNat (count + 3)) split ∧
      split.peek 0 = .ok (.branch (wideRoot count)) ∧ split.pagesInUse = count + 4 ∧
      split.limit = 600 := by
  have pages : (wideStore count).view.pagesInUse = count + 3 := by
    show (wideStore count).slots.size = count + 3
    rw [wideStore, List.size_toArray, List.length_cons, List.length_cons, List.length_replicate]
  have inUse : ∀ page : PageNumber, page.toNat ≤ 1 →
      page.toNat < (wideStore count).view.pagesInUse := fun page low => by omega
  have room : (wideStore count).view.pagesInUse < (wideStore count).view.limit.toNat := by
    rw [pages]
    show count + 3 < 600
    omega
  have cuts : Promises (wideStore count).view (divideLeaf 1)
      (fun cut after => cut = (5, (wideStore count).view.fresh) ∧
        after = cutInTwo (wideStore count).view 1 twoCells) fun _ _ => False :=
    .divideLeaf (inUse 1 (Nat.le_refl 1)) (peek_wideStore_first count) (by decide)
      (fun _ => ⟨rfl, rfl⟩) fun full => absurd full (Nat.not_le.mpr room)
  obtain ⟨_, split, cut, rfl, view⟩ := cuts.exists_ok
  refine ⟨split, ?_, ?_, ?_, congrArg View.limit view⟩
  · rw [cut, View.fresh, pages]
  · have still : split.view.nodes 0 = (wideStore count).view.nodes 0 := by
      rw [view]
      exact View.nodes_split_of_ne (by decide) (View.ne_fresh room (inUse 0 (Nat.zero_le 1)))
    exact still.trans (peek_wideStore_root count)
  · exact (congrArg View.pagesInUse view).trans (congrArg (· + 1) pages)

/-- When the first leaf below a full root is cut, the root is cut too, and a new root stands above
the halves. -/
theorem attach_propagates_wide :
    ∃ split tree' after height' front back,
      divideLeaf 1 (wideStore 508) = .ok (5, 511) split ∧
      attach { root := 0 } 1 5 511 split = .ok tree' after ∧
      after.pagesInUse = split.pagesInUse + 2 ∧
      Propagated (wideStore 508) split after { root := 0 } tree' 2 height' 1 5 511 front back := by
  have closed : (wideStore 508).view.Closed :=
    closed_view (Nat.zero_le _) fun _ => inMemory?_eq_none_of_strays rfl
  obtain ⟨split, cut, atRoot, pages, limit⟩ := divideLeaf_wide (by decide : 508 < 520)
  have isFull : (wideRoot 508).canGrow = false := by
    have separators : (wideRoot 508).separators.length = 509 := by
      rw [wideRoot, List.length_cons, List.length_map, List.length_range]
    rw [Branch.canGrow_eq_false_iff (matched_wideRoot 508) 0 0,
      Branch.size_insert (matched_wideRoot 508), Branch.size_eq (matched_wideRoot 508), separators]
    decide
  obtain ⟨leaf, needed, found, counted, -, enters⟩ :=
    attach_propagates closed (wellFormed_wide (by decide)) (mem_leavesBelow_wide 508) cut
  cases (peek_wideStore_first 508).symm.trans found
  cases counted with
  | room present room =>
    cases atRoot.symm.trans present
    cases isFull.symm.trans room
  | full present full above =>
    cases atRoot.symm.trans present
    cases above
    obtain ⟨tree', after, height', front, back, run, inUse, propagated⟩ :=
      enters (by rw [pages, limit]; decide)
    exact ⟨split, tree', after, height', front, back, cut, run, inUse, propagated⟩

end WideRoot

end Attach

/-! ## The trees of a run -/

section Layout

variable {view : View} {root : PageNumber} {levels : Nat} {row : List Region}
  {above : List PageNumber}

theorem separatorsBelow_root_ascending (layout : Layout view root levels row above) :
    (separatorsBelow view.nodes (1 + levels) root).Pairwise (· < ·) := by
  have ordered := layout.passes.ordered
  rcases layout.filled with rfl | filled
  · have crown := layout.crown
    cases crown with
    | root hangs =>
      obtain ⟨leaf, found, -⟩ := layout.leaves _ List.mem_cons_self
      rw [separatorsBelow_leaf found]
      exact .nil
  · refine ordered.ascending_separators fun page member => ?_
    rw [leavesBelow_root layout] at member
    obtain ⟨region, inRow, rfl⟩ := List.mem_map.mp member
    intro empty
    have cells := map_fst_cellsAt view.nodes region.1
    rw [empty, List.sublist_nil, List.map_eq_nil_iff] at cells
    exact filled region inRow cells

end Layout

/-- **In every state that a run reaches, the tree is well-formed.** -/
theorem Reached.wellFormed {most : Nat} {tree : Tree} {store : Store} {cells : List (Key × Bytes)}
    (reached : Reached most tree store cells) : ∃ height, tree.WellFormed store.peek height := by
  obtain ⟨-, levels, row, above, layout, -⟩ := reached.holds
  exact ⟨1 + levels, layout.crown.hangs_root, layout.passes.ordered,
    (pagesBelow_row layout).nodup_iff.mpr layout.distinct, separatorsBelow_root_ascending layout⟩

end Tree

end RowStore
