import RowStore.Proofs.Tree.Editing
import RowStore.Proofs.Tree.Findings
import RowStore.Proofs.Tree.Still

/-!
# Looking up keys in a tree that passes the check

The check goes down to the leaves with the range that is left for each page, and asks each
key to lie in it. A search takes at each branch the child whose range has the key. So in a
tree that passes the check, however it came about, the search for a key that is on some leaf
below the root cannot miss this leaf, and there is no other leaf with the key.

An insertion looks the key up in the same way, and so refuses exactly the keys that are on
the leaves below the root (`Tree.locates_of_check`). This takes that nothing later in an
insertion is stopped over a key that is there already, whatever is wrong in the store
(`Store.editing_undoubted`).
-/

set_option autoImplicit false

namespace RowStore

open Store RowStore.Tree

/-! ## Below the root -/

/-- References from branches to their children lead from the top page down to a page, through the
given branches. -/
def Leads (nodes : Nodes) : PageNumber → List Branch → PageNumber → Prop
  | top, [], page => top = page
  | top, branch :: path, page =>
    nodes top = .ok (.branch branch) ∧ ∃ child ∈ branch.children, Leads nodes child path page

/-- The last branch on the way down is the one with the page among its children. -/
theorem leads_concat_iff {nodes : Nodes} {top page : PageNumber} {path : List Branch}
    {branch : Branch} : Leads nodes top (path ++ [branch]) page ↔
      ∃ last, Leads nodes top path last ∧ nodes last = .ok (.branch branch) ∧
        page ∈ branch.children := by
  induction path generalizing top with
  | nil => simp [Leads]
  | cons first path ih =>
    simp only [List.cons_append, Leads, ih]
    constructor
    · rintro ⟨found, child, isChild, last, leads, atLast⟩
      exact ⟨last, ⟨found, child, isChild, leads⟩, atLast⟩
    · rintro ⟨last, ⟨found, child, isChild, leads⟩, atLast⟩
      exact ⟨found, child, isChild, last, leads, atLast⟩

/-- The leaf is on a page below the top page. -/
def LeafBelow (nodes : Nodes) (top page : PageNumber) (leaf : Leaf) : Prop :=
  nodes page = .ok (.leaf leaf) ∧ ∃ path, Leads nodes top path page

namespace Ordered

variable {nodes : Nodes} {height : Nat} {region : Region}

/-- The leaves at the bottom of an ordered tree are all that references lead to. -/
theorem mem_leavesBelow_iff (ordered : Ordered nodes height region) {page : PageNumber} :
    page ∈ leavesBelow nodes height region.1 ↔ ∃ leaf, LeafBelow nodes region.1 page leaf := by
  induction ordered generalizing page with
  | @leaf region leaf found matched separates =>
    rw [leavesBelow_leaf found, List.mem_singleton]
    constructor
    · rintro rfl
      exact ⟨leaf, found, [], rfl⟩
    · rintro ⟨_, -, path, leads⟩
      cases path with
      | nil => exact leads.symm
      | cons branch path => cases found.symm.trans leads.1
  | @branch height region branch found matched separates hang below ih =>
    rw [leavesBelow_branch found matched height region.2, List.mem_flatMap]
    constructor
    · rintro ⟨place, inRegions, member⟩
      obtain ⟨leaf, isLeaf, path, leads⟩ := (ih place inRegions).mp member
      have child : place.1 ∈ branch.children := by
        rw [← Branch.map_fst_regions matched region.2]
        exact List.mem_map_of_mem inRegions
      exact ⟨leaf, isLeaf, branch :: path, found, place.1, child, leads⟩
    · rintro ⟨leaf, isLeaf, path, leads⟩
      cases path with
      | nil =>
        have here : region.1 = page := leads
        rw [here] at found
        cases found.symm.trans isLeaf
      | cons other path =>
        obtain ⟨found', child, isChild, leads⟩ := leads
        cases found.symm.trans found'
        obtain ⟨place, inRegions, rfl⟩ := Branch.exists_region matched region.2 isChild
        exact ⟨place, inRegions, (ih place inRegions).mpr ⟨leaf, isLeaf, path, leads⟩⟩

/-- The way down for a key ends at a leaf, and no other leaf can have the key. -/
theorem descend_childFor? {view : View} (ordered : Ordered view.nodes height region) {key : Key}
    (has : region.2.contains key = true) {budget : Nat} (enough : height ≤ budget) :
    ∃ page ∈ leavesBelow view.nodes height region.1,
      Promises view (descendWithin (·.childFor? key) budget region.1)
        (fun found after => found = page ∧ after = view) (fun _ _ => False) ∧
      ∀ other ∈ leavesBelow view.nodes height region.1, key ∈ keysAt view.nodes other →
        other = page := by
  induction ordered generalizing budget with
  | @leaf region leaf found matched separates =>
    obtain ⟨budget, rfl⟩ : ∃ fewer, budget = fewer + 1 := ⟨budget - 1, by omega⟩
    rw [leavesBelow_leaf found]
    exact ⟨region.1, List.mem_cons_self, .descendWithin_leaf found ⟨rfl, rfl⟩,
      fun other member _ => List.mem_singleton.mp member⟩
  | @branch height region branch found matched separates hang below ih =>
    obtain ⟨budget, rfl⟩ : ∃ fewer, budget = fewer + 1 := ⟨budget - 1, by omega⟩
    obtain ⟨place, inRegions, chosen, inPlace⟩ := Branch.childFor?_eq matched has
    obtain ⟨page, member, onwards, only⟩ := ih place inRegions inPlace
      (Nat.le_of_succ_le_succ enough)
    rw [leavesBelow_branch found matched height region.2]
    refine ⟨page, List.mem_flatMap.mpr ⟨place, inRegions, member⟩,
      .descendWithin_branch found chosen onwards, fun other reached stored => ?_⟩
    -- A leaf with the key is below the child that was chosen, as ranges do not overlap.
    obtain ⟨place', inRegions', reached⟩ := List.mem_flatMap.mp reached
    obtain ⟨leaf, isLeaf, inPlace'⟩ := (below place' inRegions').exists_leaf other reached
    rw [keysAt_leaf isLeaf] at stored
    obtain rfl := eq_of_precedes (Branch.pairwise_regions matched separates) inRegions' inRegions
      (inPlace'.within key stored) inPlace
    rw [← keysAt_leaf isLeaf] at stored
    exact only other reached stored

end Ordered

/-- A search in a tree that is as the check asks ends at a leaf below the root, with ascending keys.
No other leaf below the root has the key. -/
theorem Passes.leafFor {view : View} {tree : Tree} {height : Nat} {chain : List PageNumber}
    (passes : Passes view tree.root height chain) (key : Key) :
    ∃ page leaf, LeafBelow view.nodes tree.root page leaf ∧ leaf.keys.Pairwise (· < ·) ∧
      Promises view (tree.leafFor key) (fun found after => found = page ∧ after = view)
        (fun _ _ => False) ∧
      ∀ page' leaf', LeafBelow view.nodes tree.root page' leaf' → key ∈ leaf'.keys →
        page' = page := by
  obtain ⟨page, member, descends, only⟩ :=
    passes.ordered.descend_childFor? (KeyRange.contains_unbounded key) passes.shallow
  obtain ⟨leaf, found, separates⟩ := passes.ordered.exists_leaf page member
  obtain ⟨leaf', below⟩ := passes.ordered.mem_leavesBelow_iff.mp member
  cases found.symm.trans below.1
  refine ⟨page, leaf, below, separates.ascending, .bind (.countPages descends), ?_⟩
  intro page' leaf' below' stored
  refine only page' (passes.ordered.mem_leavesBelow_iff.mpr ⟨leaf', below'⟩) ?_
  rw [keysAt_leaf below'.1]
  exact stored

/-! ## What an insertion stops over -/

/-- The computation does not stop over a key that is there already. -/
def Undoubted {α : Type} (action : StoreM α) : Prop :=
  ∀ view, Promises view action (fun _ _ => True) fun fault _ => ∀ key, fault ≠ .duplicateKey key

/-- No step of an insertion stops over a key that is there already. -/
theorem Store.editing_undoubted : Editing fun _ => Undoubted where
  pure := fun _ _ => .pure trivial
  throw := by
    intro α fault aboutPage view
    refine .throw fun key => ?_
    rintro rfl
    cases aboutPage
  shortage := fun _ _ => .throw fun _ => Fault.noConfusion
  undefined := fun _ _ => .throw fun _ => Fault.noConfusion
  bind := by
    intro α β first next here later view
    exact .bind ((here view).weaken (fun value after _ => later value after) fun _ _ stops => stops)
  load := by
    intro id view
    refine .load (fun _ _ => trivial) fun fault _ aboutPage key => ?_
    rintro rfl
    cases aboutPage
  countPages := fun _ => .countPages trivial
  replace := fun _ _ _ _ _ => trivial
  allocate := fun _ _ => .allocate (fun _ => trivial) fun _ _ => Fault.noConfusion
  look := fun _ later _ => .bind (.get fun _ _ => later _ _ _)

namespace Tree

variable {tree : Tree} {store : Store}

/-- Where the keys on the leaves below the root of a tree are found. The search for a key that is on
such a leaf ends there, and no other leaf has the key. An insertion of a value that fits a leaf is
stopped over its key exactly if the key is on one of these leaves. -/
structure Locates (tree : Tree) (store : Store) : Prop where
  finds : ∀ page leaf, LeafBelow store.peek tree.root page leaf → ∀ key ∈ leaf.keys,
    answer (tree.leafFor key) store = .ok page
  once : ∀ page leaf page' leaf', LeafBelow store.peek tree.root page leaf →
    LeafBelow store.peek tree.root page' leaf' → ∀ key ∈ leaf.keys, key ∈ leaf'.keys → page' = page
  refuses : ∀ key value other, value.length ≤ maxValueLength →
    (answer (tree.insert key value) store = .error (.duplicateKey other) ↔
      other = key ∧ ∃ page leaf, LeafBelow store.peek tree.root page leaf ∧ key ∈ leaf.keys)

/-- An insertion of a value that fits a leaf is stopped over its key exactly if the leaf that the
search ends at has the key. -/
theorem promises_insert {view : View} {page : PageNumber} {leaf : Leaf} {key : Key} {value : Bytes}
    (ordinary : value.length ≤ maxValueLength) (found : view.nodes page = .ok (.leaf leaf))
    (ascending : leaf.keys.Pairwise (· < ·))
    (search : Promises view (tree.leafFor key) (fun found after => found = page ∧ after = view)
      fun _ _ => False) :
    Promises view (tree.insert key value) (fun _ _ => key ∉ leaf.keys)
      (fun fault _ => ∀ other, fault = .duplicateKey other ↔ other = key ∧ key ∈ leaf.keys) := by
  rw [Tree.insert, if_pos ordinary]
  refine .bind (search.mono ?_)
  rintro page after ⟨rfl, rfl⟩
  refine .bind (.loadLeaf_of found ?_)
  split
  next present =>
    have stored := (Leaf.hasKey_iff ascending).mp present
    refine .throw fun other => ?_
    rw [Fault.duplicateKey.injEq, and_iff_left stored]
    exact eq_comm
  next absent =>
    have missing : key ∉ leaf.keys := fun stored => absent ((Leaf.hasKey_iff ascending).mpr stored)
    have rest : Undoubted (if leaf.hasRoomFor value.length then do
          replace page (.leaf (leaf.insert key value))
          return tree
        else if leaf.canDivideAt (leaf.position key) value.length then
          tree.insertByDividing page leaf key value
        else throw (.shortage (.leaf page))) := by
      have editing := editing_undoubted
      split
      next => exact editing.bind (editing.replace page _) fun _ => editing.pure tree
      next =>
        split
        next => exact editing.insertByDividing tree page leaf key value
        next => exact editing.shortage _
    refine (rest _).weaken (fun _ _ _ => missing) fun fault _ other key' => ?_
    exact ⟨fun is => absurd is (other key'), fun both => absurd both.2 missing⟩

/-- Keys are found in a tree that is as the check asks. -/
theorem locates_of_passes {height : Nat} {chain : List PageNumber}
    (passes : Passes store.view tree.root height chain) : Locates tree store where
  finds := by
    intro page leaf below key stored
    obtain ⟨page', -, -, -, search, only⟩ := passes.leafFor key
    obtain rfl := only page leaf below stored
    exact search.answer_eq_ok
  once := by
    intro page leaf page' leaf' below below' key stored stored'
    obtain ⟨there, -, -, -, -, only⟩ := passes.leafFor key
    exact (only page' leaf' below' stored').trans (only page leaf below stored).symm
  refuses := by
    intro key value other ordinary
    obtain ⟨page, leaf, below, ascending, search, only⟩ := passes.leafFor key
    have onLeaf : key ∈ leaf.keys ↔
        ∃ page leaf, LeafBelow store.peek tree.root page leaf ∧ key ∈ leaf.keys := by
      constructor
      · exact fun stored => ⟨page, leaf, below, stored⟩
      · rintro ⟨page', leaf', below', stored⟩
        obtain rfl := only page' leaf' below' stored
        cases below.1.symm.trans below'.1
        exact stored
    have ends := promises_insert ordinary below.1 ascending search
    rw [← onLeaf]
    unfold answer
    cases run : tree.insert key value store with
    | ok _ after =>
      have missing := ends.of_ok run
      refine ⟨fun stops => ?_, fun both => absurd both.2 missing⟩
      cases stops
    | error stopped after =>
      rw [Except.error.injEq]
      exact ends.of_error run other

/-- A check changes nothing that can be seen. -/
theorem view_check (tree : Tree) (store : Store) : (tree.check store).store.view = store.view := by
  have loading : Loading fun _ => Preserves (·.isDeclared) fun other : Store =>
      other.view = store.view :=
    loading_preserves fun id => loading_still.load id store.view
  have ends := preserves_survey tree loading { store } rfl
  unfold Tree.check
  cases run : tree.survey { store } with
  | ok value after => exact ends.of_ok run
  | error fault after => exact (ends.of_error run).1

/-- **In a tree that passes the check, a search finds the leaf of every key**, before the check and
after it, and an insertion refuses exactly the keys that are there. -/
theorem locates_of_check (passed : (tree.check store).verdict = .ok true) :
    Locates tree store ∧ Locates tree (tree.check store).store := by
  obtain ⟨height, chain, passes⟩ := check_verdict_iff.mp passed
  have passes' : Passes (tree.check store).store.view tree.root height chain := by
    rw [view_check]
    exact passes
  exact ⟨locates_of_passes passes, locates_of_passes passes'⟩

/-- Keys are found also where a scan misses them. -/
theorem locates_of_check_skipping :
    (Tree.check { root := 2 } skipping).verdict = .ok true ∧ Locates { root := 2 } skipping ∧
      Locates { root := 2 } (Tree.check { root := 2 } skipping).store :=
  ⟨rfl, locates_of_check rfl⟩

end Tree

end RowStore
