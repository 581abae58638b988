import RowStore.Proofs.Tree.Check

/-!
# What holds of every tree

A tree that a run has reached is a sorted map (`Reached.isSortedMap`): scanning it
gives the cells of the insertions that succeeded, in ascending order, a key that it
has is refused, and a search ends at the one leaf that has the key. The pages of the
store are exactly the pages of the tree, which is balanced and in order from the root
to the leaves (`Reached.isBalanced`). And an insertion that is refused has changed
nothing (`Tree.insert_refused`), on any store of sound nodes.
-/

set_option autoImplicit false

namespace RowStore

open Store

namespace Tree

/-! ## A sorted map -/

/-- The tree holds the given cells in the order of their keys, and its two ways to a key, along
the leaves and down from the root, agree. -/
structure IsSortedMap (tree : Tree) (store : Store) (accepted : List (Key × Bytes)) : Prop where
  scans : ∃ cells : List (Key × Bytes), cells.Perm accepted ∧
    cells.Pairwise (fun first second => first.1 < second.1) ∧
    answer tree.cells store = .ok cells ∧
    ∀ (α : Type) (read : Key → Bytes → Except Fault α),
      answer (tree.collect read) store = cells.mapM fun cell => read cell.1 cell.2
  refuses : ∀ (key other : Key) (value : Bytes), value.length ≤ maxValueLength →
    (answer (tree.insert key value) store = .error (.duplicateKey other) ↔
      other = key ∧ key ∈ accepted.map Prod.fst)
  finds : ∀ key ∈ accepted.map Prod.fst, ∃ page leaf,
    answer (tree.leafFor key) store = .ok page ∧ store.peek page = .ok (.leaf leaf) ∧
    key ∈ leaf.keys ∧
    ∀ id other, store.peek id = .ok (.leaf other) → key ∈ other.keys → id = page

variable {most : Nat} {tree : Tree} {store : Store} {accepted : List (Key × Bytes)}

theorem Holds.scans (holds : tree.Holds store.view accepted) :
    ∃ cells : List (Key × Bytes), cells.Perm accepted ∧
      cells.Pairwise (fun first second => first.1 < second.1) ∧
      answer tree.cells store = .ok cells ∧
      ∀ (α : Type) (read : Key → Bytes → Except Fault α),
        answer (tree.collect read) store = cells.mapM fun cell => read cell.1 cell.2 := by
  obtain ⟨ordered, same, ascending, collect⟩ := holds.collect
  have scan : ∀ (α : Type) (read : Key → Bytes → Except Fault α),
      answer (tree.collect read) store = ordered.mapM fun cell => read cell.1 cell.2 :=
    fun α read => Promises.answer_eq
      ((collect α read).weaken (fun _ _ done => done.2) fun _ _ failed => failed.2)
  exact ⟨ordered, same, ascending, (scan _ _).trans (mapM_ok ordered), scan⟩

/-- A key is refused as a duplicate exactly if the tree has it, and the fault names it. -/
theorem Holds.refuses (holds : tree.Holds store.view accepted) (key other : Key) (value : Bytes)
    (ordinary : value.length ≤ maxValueLength) :
    answer (tree.insert key value) store = .error (.duplicateKey other) ↔
      other = key ∧ key ∈ accepted.map Prod.fst := by
  have insert := holds.insert key value
  unfold answer
  cases run : tree.insert key value store with
  | ok tree' after =>
    obtain ⟨-, -, absent, -⟩ := insert.of_ok run
    exact iff_of_false (fun equal => by cases equal) fun named => absent named.2
  | error fault after =>
    obtain ⟨-, refusal, duplicate⟩ := insert.of_error run
    have duplicate := duplicate ordinary
    constructor
    · intro equal
      cases equal
      cases refusal
      exact ⟨rfl, duplicate.mp rfl⟩
    · rintro ⟨rfl, member⟩
      exact congrArg Except.error (duplicate.mpr member)

/-- A search for a key of the tree ends at the one leaf that has it. -/
theorem Holds.finds (holds : tree.Holds store.view accepted) (key : Key)
    (member : key ∈ accepted.map Prod.fst) :
    ∃ page leaf, answer (tree.leafFor key) store = .ok page ∧
      store.peek page = .ok (.leaf leaf) ∧ key ∈ leaf.keys ∧
      ∀ id other, store.peek id = .ok (.leaf other) → key ∈ other.keys → id = page := by
  obtain ⟨regular, levels, row, above, layout, same⟩ := holds
  obtain ⟨region, inRow, has, search⟩ := layout.leafFor key
  obtain ⟨leaf, found, fits⟩ := layout.leaves region inRow
  refine ⟨region.1, leaf, search.answer_eq_ok, found, ?_, ?_⟩
  · rw [← (same.map Prod.fst).mem_iff] at member
    obtain ⟨front, back, rfl⟩ := List.append_of_mem inRow
    exact (Leaf.hasKey_iff fits.separates.ascending).mp ((layout.mem_keys_iff found has).mp member)
  · intro id other present inOther
    rcases List.mem_append.mp ((layout.complete id).mpr (regular.closed id _ present)) with
      inLeaves | higher
    · obtain ⟨place, listed, rfl⟩ := List.mem_map.mp inLeaves
      obtain ⟨leaf', present', fits'⟩ := layout.leaves place listed
      cases present.symm.trans present'
      rw [layout.crown.eq_of_contains listed inRow (fits'.separates.within key inOther) has]
    · obtain ⟨fewest, range, branch, present', -⟩ := layout.crown.branches id higher
      cases present.symm.trans present'

/-- **A tree is a sorted map of the cells whose insertions succeeded.** -/
theorem Reached.isSortedMap (reached : Reached most tree store accepted) :
    IsSortedMap tree store accepted :=
  ⟨reached.holds.scans, reached.holds.refuses, reached.holds.finds⟩

/-- The two leaves of a root that was cut are found again when the file is opened. -/
theorem isSortedMap_cut : IsSortedMap { root := 2 } cutStore cutRows ∧
    ∃ saved opened walked, flush Page.blank cutStore = .ok () saved ∧
      Store.ofContents saved.contents 1 = .ok opened ∧
      Tree.rootAbove 0 opened = .ok 2 walked ∧ IsSortedMap { root := 2 } walked cutRows := by
  obtain ⟨saved, opened, walked, saves, opens, climbs⟩ := exists_reopened_cut
  exact ⟨Reached.isSortedMap reached_cut, saved, opened, walked, saves, opens, climbs,
    Reached.isSortedMap (reached_cut.reopened saves (by decide) (by decide) opens climbs)⟩

/-! ## A balanced tree on all pages -/

/-- The pages from the root down form a tree with all leaves at one depth, the leaves are linked
from left to right from the first page on, every page in use occurs in the tree once, every way up
ends at the root, and the check of the tree finds nothing. There are at most `most` pages, and if
the size of a file with as many pages fits a word, then the tree is found again in a store that is
opened on its saved file. -/
structure IsBalanced (most : Nat) (tree : Tree) (store : Store) : Prop where
  shape : ∃ height, Subtree store.peek height none (tree.root, {}) ∧
    Linked store.peek (some 0) (leavesBelow store.peek height tree.root) ∧
    (pagesBelow store.peek height tree.root).Perm
      ((List.range store.pagesInUse).map UInt32.ofNat)
  climbs : ∀ id : PageNumber, id.toNat < store.pagesInUse →
    answer (Tree.rootAbove id) store = .ok tree.root
  sound : ∀ (id : PageNumber) (node : Node), store.peek id = .ok node →
    id.toNat < store.pagesInUse ∧ node.WellShaped ∧ node.size ≤ Page.size
  within : store.pagesInUse ≤ most
  reopens : most ≤ largestLimit → ∀ (header : Page) (limit : UInt32), ∃ after opened,
    flush header store = .ok () after ∧ Store.ofContents after.contents limit = .ok opened ∧
    opened.peek = store.peek ∧ opened.pagesInUse = store.pagesInUse ∧
    answer (Tree.rootAbove 0) opened = .ok tree.root
  passes : (tree.check store).verdict = .ok true ∧ (tree.check store).violations = []

section Layout

variable {view : View} {root : PageNumber} {levels : Nat} {row : List Region}
  {above : List PageNumber}

/-- The pages below the root are the leaves and the branches above them. -/
theorem pagesBelow_row (layout : Layout view root levels row above) :
    (pagesBelow view.nodes (1 + levels) root).Perm (row.map Prod.fst ++ above) := by
  have leaves : (row.flatMap fun region => pagesBelow view.nodes 1 region.1) =
      row.map Prod.fst := by
    rw [List.map_eq_flatMap]
    refine List.flatMap_congr fun region member => ?_
    obtain ⟨leaf, found, -⟩ := layout.leaves region member
    simp only [pagesBelow, found]
  exact leaves ▸ layout.crown.pagesBelow_perm 1

/-- The pages below the root are the pages in use. -/
theorem pagesBelow_root (layout : Layout view root levels row above) (regular : view.Regular) :
    (pagesBelow view.nodes (1 + levels) root).Perm
      ((List.range view.pagesInUse).map UInt32.ofNat) := by
  have once : ((List.range view.pagesInUse).map UInt32.ofNat).Nodup := by
    refine List.Nodup.map_on (fun first inFirst second inSecond same => ?_) List.nodup_range
    rw [← regular.toNat_ofNat (List.mem_range.mp inFirst), same,
      regular.toNat_ofNat (List.mem_range.mp inSecond)]
  refine (pagesBelow_row layout).trans
    ((List.perm_ext_iff_of_nodup layout.distinct once).mpr fun page => ?_)
  rw [layout.complete, List.mem_map]
  constructor
  · exact fun inUse => ⟨page.toNat, List.mem_range.mpr inUse, UInt32.ofNat_toNat⟩
  · rintro ⟨index, inUse, rfl⟩
    rw [regular.toNat_ofNat (List.mem_range.mp inUse)]
    exact List.mem_range.mp inUse

end Layout

/-- **The pages of a store are those of its tree, balanced, in order and linked.** -/
theorem Reached.isBalanced (reached : Reached most tree store accepted) :
    IsBalanced most tree store := by
  have within := reached.bounded.pages
  have holds := reached.holds
  obtain ⟨regular, levels, row, above, layout, -⟩ := reached.holds
  refine ⟨⟨1 + levels, ?_, ?_, pagesBelow_root layout regular⟩, fun id inUse => ?_,
    fun id node found => ⟨regular.closed id node found, layout.sound regular.closed id node found⟩,
    within, fun small header limit => ?_, holds.check⟩
  · exact layout.crown.subtree fun region member parent hangs =>
      .leaf hangs (layout.leaves region member)
  · have linked := layout.linked
    rw [← leavesBelow_root layout] at linked
    exact linked
  · exact (holds.rootAbove inUse).answer_eq_ok
  · obtain ⟨after, saves, standing, same, -, reopen⟩ := holds.flush header
    have small : after.pagesInUse ≤ largestLimit := same.pages ▸ Nat.le_trans within small
    obtain ⟨opened, opens, holds', found⟩ :=
      reopen (length_contents_lt standing.regular small) limit
    exact ⟨after, opened, saves, opens, found.nodes.nodes.trans same.nodes,
      found.nodes.pages.trans same.pages, holds'.rootAbove_first.answer_eq_ok⟩

theorem isBalanced_cut : IsBalanced 100 { root := 2 } cutStore ∧
    ∃ saved opened walked, flush Page.blank cutStore = .ok () saved ∧
      Store.ofContents saved.contents 1 = .ok opened ∧
      Tree.rootAbove 0 opened = .ok 2 walked ∧ IsBalanced 100 { root := 2 } walked := by
  obtain ⟨saved, opened, walked, saves, opens, climbs⟩ := exists_reopened_cut
  exact ⟨Reached.isBalanced reached_cut, saved, opened, walked, saves, opens, climbs,
    Reached.isBalanced (reached_cut.reopened saves (by decide) (by decide) opens climbs)⟩

/-! ## Refusals -/

/-- **An insertion that is refused has changed nothing**, on any store whose nodes are well-shaped
and fit their pages, whatever their keys are and wherever their references lead. It never runs
out of pages half way. On a tree that a run has reached, insertions fail in no other way. -/
theorem insert_refused :
    (∀ (store after : Store) (tree : Tree) (key : Key) (value : Bytes) (fault : Fault),
      (∀ (id : PageNumber) (node : Node), store.peek id = .ok node →
        node.WellShaped ∧ node.size ≤ Page.size) →
      tree.insert key value store = .error fault after →
      ((∃ other, fault = .duplicateKey other) ∨ ∃ reason, fault = .shortage reason) →
      Refusal key fault ∧ after.view = store.view) ∧
    ∀ (most : Nat) (store after : Store) (tree : Tree) (accepted : List (Key × Bytes)) (key : Key)
      (value : Bytes) (fault : Fault),
      Reached most tree store accepted → tree.insert key value store = .error fault after →
      Refusal key fault := by
  constructor
  · intro store after tree key value fault sound fails limited
    have promise : Promises store.view (tree.insert key value) _ _ := Promises.insert sound
    rcases promise.of_error fails with damaged | ⟨same, refusal⟩
    · rcases limited with ⟨other, rfl⟩ | ⟨reason, rfl⟩ <;> cases damaged
    · exact ⟨refusal, same⟩
  · intro most store after tree accepted key value fault reached fails
    exact ((reached.holds.insert key value).of_error fails).2.1

/-- The one page that may be used is full. A key that is there is refused, and a new one would take
two pages more. -/
theorem insert_refused_full :
    (∃ after, Tree.insert { root := 0 } 2 [] (rootLeaf 1 [1, 2] [halfValue, halfValue]) =
        .error (.duplicateKey 2) after ∧
      after.view = (rootLeaf 1 [1, 2] [halfValue, halfValue]).view ∧
      Refusal 2 (.duplicateKey 2)) ∧
    ∃ after, Tree.insert { root := 0 } 3 halfValue (rootLeaf 1 [1, 2] [halfValue, halfValue]) =
        .error (.shortage (.split 2)) after ∧
      after.view = (rootLeaf 1 [1, 2] [halfValue, halfValue]).view ∧
      Refusal 3 (.shortage (.split 2)) := by
  have reached := reached_pair (by decide : 0 < (1 : UInt32).toNat)
  have present : Tree.insert { root := 0 } 2 [] (rootLeaf 1 [1, 2] [halfValue, halfValue]) =
      .error (.duplicateKey 2) (rootLeaf 1 [1, 2] [halfValue, halfValue]) := rfl
  have scarce : Tree.insert { root := 0 } 3 halfValue (rootLeaf 1 [1, 2] [halfValue, halfValue]) =
      .error (.shortage (.split 2)) (rootLeaf 1 [1, 2] [halfValue, halfValue]) := by
    rw [insert_rootLeaf_of_divides 3 halfValue rfl ordinary_halfValue rfl (full_pair rfl).1
      (full_pair rfl).2]
    rfl
  have sound := reached.holds.sound
  have unchanged := insert_refused.1 _ _ _ _ _ _ sound present (.inl ⟨2, rfl⟩)
  have unchanged' := insert_refused.1 _ _ _ _ _ _ sound scarce (.inr ⟨_, rfl⟩)
  exact ⟨⟨_, present, unchanged.2, insert_refused.2 _ _ _ _ _ _ _ _ reached present⟩,
    _, scarce, unchanged'.2, insert_refused.2 _ _ _ _ _ _ _ _ reached scarce⟩

end Tree

end RowStore
