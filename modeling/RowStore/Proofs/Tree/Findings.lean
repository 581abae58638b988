import RowStore.Proofs.Tree.Check

/-!
# What a clean check establishes

A check that notes nothing has looked at an ordered tree and at a way along the leaves
with ascending keys, and every such tree passes (`Tree.check_verdict_iff`). Violations
are never taken back, so when there are none at the end there were none at any step, and
each step then says what it has compared.

The check goes along the leaves without asking whether they are those of the tree. So a
tree that passes can be read to the end, in ascending order and beginning with its first
leaf, but a reference may pass over leaves of the tree or lead to others. What is read is
the tree exactly when the way along the leaves covers it, and of that the check says
nothing.
-/

set_option autoImplicit false

namespace RowStore

open Store

namespace Survey

variable {survey after : Survey} {page : PageNumber} {range : KeyRange}

/-- Nothing was noted. -/
def Clean (survey : Survey) : Prop := survey.violations = #[]

theorem Quiet.clean (quiet : survey.Quiet after) (clean : after.Clean) : survey.Clean :=
  quiet.violations.symm.trans clean

/-! ## Steps that have noted nothing -/

theorem not_clean_of_note {violation : Violation} {value : Unit}
    (run : note violation survey = .ok value after) : ¬ after.Clean := by
  cases run
  exact Array.push_ne_empty

theorem of_noteIf {condition : Bool} {violation : Violation} {value : Unit}
    (run : noteIf condition violation survey = .ok value after) (clean : after.Clean) :
    condition = false ∧ after = survey := by
  cases condition with
  | false =>
    cases run
    exact ⟨rfl, rfl⟩
  | true => exact absurd clean (not_clean_of_note run)

/-- A computation on the store leaves the rest of a survey alone. -/
theorem of_onStore {α : Type} {action : StoreM α} {value : α}
    (run : onStore action survey = .ok value after) :
    ∃ store, action survey.store = .ok value store ∧ after = { survey with store } := by
  unfold onStore at run
  split at run
  next value store here =>
    cases run
    exact ⟨store, here, rfl⟩
  next => cases run

theorem of_load {node : Node} (run : onStore (Store.load page) survey = .ok node after) :
    survey.store.view.nodes page = .ok node ∧ survey.Quiet after ∧
      after.depthOfLeaves = survey.depthOfLeaves := by
  have promise : Promises survey.store.view (Store.load page)
      (fun node view => survey.store.view.nodes page = .ok node ∧ view = survey.store.view)
      (fun _ _ => True) := .load (fun _ found => ⟨found, rfl⟩) fun _ _ _ => trivial
  obtain ⟨store, here, rfl⟩ := of_onStore run
  obtain ⟨found, same⟩ := promise.of_ok here
  exact ⟨found, ⟨same, rfl⟩, rfl⟩

theorem of_loadLeaf {leaf : Leaf} (run : onStore (loadLeaf page) survey = .ok leaf after) :
    survey.store.view.nodes page = .ok (.leaf leaf) ∧ survey.Quiet after := by
  have promise : Promises survey.store.view (loadLeaf page)
      (fun leaf view => survey.store.view.nodes page = .ok (.leaf leaf) ∧
        view = survey.store.view)
      (fun _ _ => True) := .loadLeaf (fun _ found => ⟨found, rfl⟩) fun _ _ _ => trivial
  obtain ⟨store, here, rfl⟩ := of_onStore run
  obtain ⟨found, same⟩ := promise.of_ok here
  exact ⟨found, ⟨same, rfl⟩⟩

theorem of_surveyKeys {position : Nat} {before : Option Key} {keys : List Key} {value : Unit}
    (run : surveyKeys page range position before keys survey = .ok value after)
    (clean : after.Clean) :
    after = survey ∧ (before.toList ++ keys).Pairwise (· < ·) ∧
      ∀ key ∈ keys, range.contains key = true := by
  induction keys generalizing position before survey with
  | nil =>
    cases run
    exact ⟨rfl, pairwise_toList_append_nil before, List.forall_mem_nil _⟩
  | cons key keys ih =>
    obtain ⟨_, ascended, ascent, run⟩ := exists_of_bind_ok run
    obtain ⟨_, bounded, bounds, run⟩ := exists_of_bind_ok run
    obtain ⟨rfl, ascending, within⟩ := ih run
    obtain ⟨inside, rfl⟩ := of_noteIf bounds clean
    obtain ⟨ascends, rfl⟩ := of_noteIf ascent clean
    refine ⟨rfl, pairwise_toList_append_cons.mpr ⟨ascends, ascending⟩, ?_⟩
    exact List.forall_mem_cons.mpr ⟨by simpa using inside, within⟩

theorem separates_of_surveyKeys {keys : List Key} {value : Unit}
    (run : surveyKeys page range 0 none keys survey = .ok value after) (clean : after.Clean) :
    after = survey ∧ range.Separates keys := by
  obtain ⟨same, ascending, within⟩ := of_surveyKeys run clean
  exact ⟨same, ascending, within⟩

theorem of_surveyAscent {before last : Option Key} {keys : List Key}
    (run : surveyAscent page before keys survey = .ok last after) (clean : after.Clean) :
    after = survey ∧ (before.toList ++ keys).Pairwise (· < ·) ∧
      last = (before.toList ++ keys).getLast? := by
  induction keys generalizing before survey with
  | nil =>
    cases run
    refine ⟨rfl, pairwise_toList_append_nil last, ?_⟩
    cases last <;> rfl
  | cons key keys ih =>
    cases before with
    | none =>
      have run : surveyAscent page (some key) keys survey = .ok last after := run
      exact ih run
    | some lower =>
      obtain ⟨_, compared, comparison, run⟩ := exists_of_bind_ok run
      obtain ⟨rfl, ascending, rfl⟩ := ih run
      obtain ⟨ascends, rfl⟩ := of_noteIf comparison clean
      refine ⟨rfl, pairwise_toList_append_cons.mpr ⟨ascends, ascending⟩, ?_⟩
      rw [Option.toList_some, Option.toList_some, List.singleton_append, List.singleton_append,
        List.getLast?_cons_cons]

/-! ## Down the tree -/

/-- Nothing was noted on the way from one survey to another, and if the leaves met so far are at
some depth, then what was visited is as `sound` says for that depth. -/
def Levels (before after : Survey) (sound : Nat → Prop) : Prop :=
  before.Quiet after ∧ ∀ bottom, after.AtDepth bottom → before.AtDepth bottom ∧ sound bottom

theorem of_surveyLeaf {depth : Nat} {leaf : Leaf} {value : Unit}
    (run : surveyLeaf page range depth leaf survey = .ok value after) (clean : after.Clean) :
    leaf.values.length = leaf.keys.length ∧ range.Separates leaf.keys ∧
      survey.Levels after fun bottom => depth = bottom := by
  obtain ⟨_, ordered, order, run⟩ := exists_of_bind_ok run
  obtain ⟨_, counted, counts, run⟩ := exists_of_bind_ok run
  obtain ⟨_, _, got, run⟩ := exists_of_bind_ok run
  cases got
  cases known : counted.depthOfLeaves with
  | none =>
    rw [known] at run
    cases run
    obtain ⟨matched, rfl⟩ := of_noteIf counts clean
    obtain ⟨rfl, separates⟩ := separates_of_surveyKeys order clean
    refine ⟨(bne_eq_false_iff_eq.mp matched).symm, separates, ⟨rfl, rfl⟩, fun bottom level => ?_⟩
    refine ⟨fun found is => ?_, level depth rfl⟩
    cases known.symm.trans is
  | some expected =>
    rw [known] at run
    obtain ⟨even, rfl⟩ := of_noteIf run clean
    obtain ⟨matched, rfl⟩ := of_noteIf counts clean
    obtain ⟨rfl, separates⟩ := separates_of_surveyKeys order clean
    refine ⟨(bne_eq_false_iff_eq.mp matched).symm, separates, .refl _, fun bottom level => ?_⟩
    exact ⟨level, (bne_eq_false_iff_eq.mp even).symm.trans (level expected known)⟩

/-- What each step establishes is established along all of them. -/
theorem of_forM (sound : View → Region → Nat → Prop) {step : Region → SurveyM Unit}
    {places : List Region}
    (each : ∀ place ∈ places, ∀ (survey after : Survey) (value : Unit),
      step place survey = .ok value after → after.Clean →
      survey.Levels after (sound survey.store.view place))
    {survey after : Survey} {value : Unit} (run : places.forM step survey = .ok value after)
    (clean : after.Clean) :
    survey.Levels after fun bottom => ∀ place ∈ places, sound survey.store.view place bottom := by
  induction places generalizing survey with
  | nil =>
    cases run
    exact ⟨.refl _, fun bottom level => ⟨level, List.forall_mem_nil _⟩⟩
  | cons place places ih =>
    obtain ⟨_, middle, first, run⟩ := exists_of_bind_ok run
    obtain ⟨onwards, further⟩ :=
      ih (fun other later => each other (List.mem_cons_of_mem _ later)) run
    obtain ⟨here, sound⟩ :=
      each place List.mem_cons_self survey middle _ first (onwards.clean clean)
    refine ⟨here.trans onwards, fun bottom level => ?_⟩
    obtain ⟨level, rest⟩ := further bottom level
    obtain ⟨level, head⟩ := sound bottom level
    rw [here.view] at rest
    exact ⟨level, List.forall_mem_cons.mpr ⟨head, rest⟩⟩

/-- The page has the given parent, and is not marked as root if there is one. -/
def ChildOf (nodes : Nodes) (parent : Option PageNumber) (page : PageNumber) : Prop :=
  ∃ node, nodes page = .ok node ∧ node.parent = parent ∧ (parent.isSome && node.rootMark) = false

theorem hangs_of_childOf {nodes : Nodes} {parent : PageNumber}
    (child : ChildOf nodes (some parent) page) : Hangs nodes (some parent) page := by
  obtain ⟨node, found, hung, unmarked⟩ := child
  exact ⟨node, found, hung, unmarked⟩

/-- Below a child at some depth there is an ordered tree whose leaves are at depth `bottom`. -/
def Reaches (budget depth : Nat) (parent : Option PageNumber) (view : View) (region : Region)
    (bottom : Nat) : Prop :=
  ∃ height, height ≤ budget ∧ depth + height = bottom + 1 ∧
    ChildOf view.nodes parent region.1 ∧ Ordered view.nodes height region

/-- Trees with leaves at one depth make one tree with the branch above them. -/
theorem reaches_of_children {view : View} {budget depth bottom : Nat} {parent : Option PageNumber}
    {branch : Branch} (found : view.nodes page = .ok (.branch branch))
    (child : ChildOf view.nodes parent page)
    (matched : branch.children.length = branch.separators.length + 1)
    (separates : range.Separates branch.separators)
    (children : ∀ place ∈ branch.regions range,
      Reaches budget (depth + 1) (some page) view place bottom) :
    Reaches (budget + 1) depth parent view (page, range) bottom := by
  obtain ⟨place, others, listed, -⟩ := Branch.exists_first matched range
  have inRegions : place ∈ branch.regions range := listed ▸ List.mem_cons_self
  obtain ⟨height, enough, levels, -, -⟩ := children place inRegions
  refine ⟨height + 1, Nat.succ_le_succ enough, by omega, child,
    .branch found matched separates (fun place member => ?_) fun place member => ?_⟩
  · obtain ⟨_, -, -, child, -⟩ := children place member
    exact hangs_of_childOf child
  · -- All children have the height that the first one has.
    obtain ⟨height', -, levels', -, below⟩ := children place member
    obtain rfl : height' = height := by omega
    exact below

/-- The pages that were visited form an ordered tree. -/
theorem of_surveyPages {budget depth : Nat} {parent : Option PageNumber} {region : Region}
    {value : Unit} (run : surveyPages budget depth parent region survey = .ok value after)
    (clean : after.Clean) :
    survey.Levels after (Reaches budget depth parent survey.store.view region) := by
  induction budget generalizing depth parent region survey after with
  | zero => exact absurd clean (not_clean_of_note run)
  | succ budget ih =>
    obtain ⟨page, range⟩ := region
    obtain ⟨node, loaded, load, onwards⟩ := exists_of_bind_ok run
    obtain ⟨_, hung, compared, further⟩ := exists_of_bind_ok onwards
    obtain ⟨_, marked, looked, below⟩ := exists_of_bind_ok further
    obtain ⟨found, quietLoad, unmoved⟩ := of_load load
    -- That there are no violations at the end is carried back step by step.
    cases node with
    | leaf leaf =>
      obtain ⟨matched, separates, quiet, levels⟩ := of_surveyLeaf below clean
      obtain ⟨unmarked, rfl⟩ := of_noteIf looked (quiet.clean clean)
      obtain ⟨child, rfl⟩ := of_noteIf compared (quiet.clean clean)
      refine ⟨quietLoad.trans quiet, fun bottom level => ?_⟩
      obtain ⟨level, rfl⟩ := levels bottom level
      rw [AtDepth, unmoved] at level
      exact ⟨level, 1, Nat.succ_pos _, rfl, ⟨_, found, bne_eq_false_iff_eq.mp child, unmarked⟩,
        .leaf found matched separates⟩
    | branch branch =>
      obtain ⟨_, ordered, order, visits⟩ := exists_of_bind_ok below
      split at visits
      next matched =>
        obtain ⟨quiet, levels⟩ := of_forM (Reaches budget (depth + 1) (some page))
          (fun _ _ _ _ _ visit clean => ih visit clean) visits clean
        obtain ⟨rfl, separates⟩ := separates_of_surveyKeys order (quiet.clean clean)
        obtain ⟨unmarked, rfl⟩ := of_noteIf looked (quiet.clean clean)
        obtain ⟨child, rfl⟩ := of_noteIf compared (quiet.clean clean)
        refine ⟨quietLoad.trans quiet, fun bottom level => ?_⟩
        obtain ⟨level, children⟩ := levels bottom level
        rw [AtDepth, unmoved] at level
        rw [quietLoad.view] at children
        exact ⟨level, reaches_of_children found
          ⟨_, found, bne_eq_false_iff_eq.mp child, unmarked⟩ matched separates children⟩
      next => exact absurd clean (not_clean_of_note visits)

/-! ## Along the leaves -/

/-- The leaves that were visited are linked, and their keys ascend. -/
theorem of_surveyLeaves {budget : Nat} {before : Option Key} {start : Option PageNumber}
    {value : Unit} (run : surveyLeaves budget before start survey = .ok value after)
    (clean : after.Clean) :
    survey.Quiet after ∧ ∃ chain, Linked survey.store.view.nodes start chain ∧
      chain.length ≤ budget ∧
      (before.toList ++ chain.flatMap (keysAt survey.store.view.nodes)).Pairwise (· < ·) := by
  induction budget generalizing before start survey with
  | zero =>
    cases start with
    | none =>
      cases run
      exact ⟨.refl _, [], rfl, Nat.le_refl _, pairwise_toList_append_nil before⟩
    | some page => exact absurd clean (not_clean_of_note run)
  | succ budget ih =>
    cases start with
    | none =>
      cases run
      exact ⟨.refl _, [], rfl, Nat.zero_le _, pairwise_toList_append_nil before⟩
    | some page =>
      obtain ⟨leaf, _, load, onwards⟩ := exists_of_bind_ok run
      obtain ⟨last, ascended, ascent, further⟩ := exists_of_bind_ok onwards
      obtain ⟨found, quietLoad⟩ := of_loadLeaf load
      obtain ⟨quiet, chain, linked, short, ascending⟩ := ih further
      obtain ⟨rfl, here, rfl⟩ := of_surveyAscent ascent (quiet.clean clean)
      rw [quietLoad.view] at linked ascending
      refine ⟨quietLoad.trans quiet, page :: chain, ⟨rfl, leaf, found, linked⟩,
        Nat.succ_le_succ short, ?_⟩
      rw [List.flatMap_cons, keysAt_leaf found, ← List.append_assoc]
      exact (pairwise_getLast?_append here).mp ascending

end Survey

open Survey

namespace Tree

variable {tree : Tree} {store : Store}

/-- A survey that notes nothing has visited a tree that is as the check asks. -/
theorem exists_passes_of_survey {value : Unit} {after : Survey}
    (run : tree.survey { store } = .ok value after) (clean : after.Clean) :
    ∃ height chain, Passes store.view tree.root height chain := by
  obtain ⟨budget, _, count, onwards⟩ := exists_of_bind_ok run
  cases count
  obtain ⟨_, visited, visits, further⟩ := exists_of_bind_ok onwards
  obtain ⟨node, loaded, load, rest⟩ := exists_of_bind_ok further
  obtain ⟨_, marked, looked, descent⟩ := exists_of_bind_ok rest
  obtain ⟨first, _, descend, leaves⟩ := exists_of_bind_ok descent
  obtain ⟨found, quietLoad, -⟩ := of_load load
  obtain ⟨reached, descended, rfl⟩ := of_onStore descend
  obtain ⟨quiet, chain, linked, short, ascending⟩ := of_surveyLeaves leaves clean
  have cleanThere : marked.Clean := quiet.clean clean
  obtain ⟨rootMark, unchanged⟩ := of_noteIf looked cleanThere
  rw [unchanged] at descended cleanThere
  obtain ⟨quietBelow, levels⟩ := of_surveyPages visits (quietLoad.clean cleanThere)
  obtain ⟨-, height, enough, -, ⟨root, foundRoot, orphan, -⟩, ordered⟩ :=
    levels (visited.depthOfLeaves.getD 0) fun depth is => by rw [is]; rfl
  have same : loaded.store.view = store.view := quietLoad.view.trans quietBelow.view
  rw [quietBelow.view] at found
  cases found.symm.trans foundRoot
  have hangs : Hangs store.view.nodes none tree.root :=
    ⟨node, found, orphan, by simpa using rootMark⟩
  obtain ⟨leftmost, others, listed, promise⟩ := ordered.firstLeaf enough
  obtain ⟨rfl, sameThere⟩ := (promise loaded.store same).of_ok descended
  rw [sameThere] at linked ascending
  refine ⟨height, chain, hangs, ordered, enough, ?_, short, ascending⟩
  rw [listed]
  exact linked

/-- **A tree passes the check exactly when it is as the check asks.** -/
theorem check_verdict_iff :
    (tree.check store).verdict = .ok true ↔
      ∃ height chain, Passes store.view tree.root height chain := by
  constructor
  · intro passed
    unfold Tree.check at passed
    split at passed
    next value after run =>
      simp only [Except.ok.injEq, Array.isEmpty_iff] at passed
      exact exists_passes_of_survey run passed
    next => cases passed
  · rintro ⟨height, chain, passes⟩
    exact passes.check.1

/-! ## Reading a tree that passes -/

/-- Two lists of cells that ascend and have the same cells are the same. -/
theorem eq_of_mem_iff {cells others : List (Key × Bytes)}
    (ascending : cells.Pairwise fun first second => first.1 < second.1)
    (ascending' : others.Pairwise fun first second => first.1 < second.1)
    (same : ∀ cell, cell ∈ cells ↔ cell ∈ others) : cells = others := by
  have apart : ∀ first second : Key × Bytes, first.1 < second.1 → first ≠ second := by
    rintro first _ less rfl
    exact Int32.lt_irrefl less
  have perm : cells.Perm others :=
    (List.perm_ext_iff_of_nodup (ascending.imp (apart _ _)) (ascending'.imp (apart _ _))).mpr same
  exact perm.eq_of_pairwise
    (fun _ _ _ _ less greater => (Int32.lt_irrefl (Int32.lt_trans less greater)).elim)
    ascending ascending'

/-- How the cells that a scan finds relate to those of the tree, when the tree passes the check and
the scan visits the given leaves. The cells along the way ascend, so none is found twice. They are
those of the tree, from left to right, if the way covers these and nothing else, and in no other
case (`complete`); so they are if each leaf of the tree leads to the next one (`linked`). -/
structure Scans (tree : Tree) (store : Store) (height : Nat) (chain : List PageNumber) : Prop where
  passes : Passes store.view tree.root height chain
  scan : answer tree.cells store = .ok (chain.flatMap (cellsAt store.view.nodes))
  ascending : (chain.flatMap (cellsAt store.view.nodes)).Pairwise fun first second =>
    first.1 < second.1
  complete : answer tree.cells store = .ok (cellsBelow store.view.nodes height tree.root) ↔
    ∀ cell, cell ∈ chain.flatMap (cellsAt store.view.nodes) ↔
      cell ∈ cellsBelow store.view.nodes height tree.root
  linked : Linked store.view.nodes (leavesBelow store.view.nodes height tree.root).head?
      (leavesBelow store.view.nodes height tree.root) →
    answer tree.cells store = .ok (cellsBelow store.view.nodes height tree.root)

/-- The scan of a tree that is as the check asks finds the cells along the leaves. -/
theorem answer_cells {height : Nat} {chain : List PageNumber}
    (passes : Passes store.view tree.root height chain) :
    answer tree.cells store = .ok (chain.flatMap (cellsAt store.view.nodes)) := by
  obtain ⟨first, linked, promise⟩ := passes.firstLeaf
  have scans : Promises store.view tree.cells
      (fun cells _ => (.ok (chain.flatMap (cellsAt store.view.nodes)) : Except Fault _) = .ok cells)
      (fun fault _ => (.ok (chain.flatMap (cellsAt store.view.nodes)) : Except Fault _) =
        .error fault) := by
    refine .bind (promise.mono ?_)
    rintro page after ⟨rfl, rfl⟩
    refine .bind (.countPages ((linked.collectWithin passes.short).weaken ?_ ?_))
    · rintro cells after ⟨-, read⟩
      rw [← read, mapM_ok]
    · rintro fault after ⟨-, read⟩
      rw [← read, mapM_ok]
  exact scans.answer_eq

/-- **A tree that passes the check can be read to the end**, and what is read is the tree exactly
if the references between the leaves cover it. -/
theorem scan_of_check (passed : (tree.check store).verdict = .ok true) :
    ∃ height chain, Scans tree store height chain := by
  obtain ⟨height, chain, passes⟩ := check_verdict_iff.mp passed
  have scan := answer_cells passes
  refine ⟨height, chain, passes, scan, passes.ascending_cells, ?_, ?_⟩
  · rw [scan]
    constructor
    · intro same
      rw [Except.ok.inj same]
      exact fun cell => Iff.rfl
    · intro same
      exact congrArg Except.ok (eq_of_mem_iff passes.ascending_cells passes.ordered.ascending same)
  · intro linked
    rw [scan, passes.linked.unique linked]
    rfl

/-- A store with a tree of two leaves, the first of which does not lead to the second. -/
def skipping : Store where
  slots := #[
    some (.leaf { parent := some 2, keys := [1], values := [[0xaa]] }),
    some (.leaf { parent := some 2, keys := [5], values := [[0xbb]] }),
    some (.branch { rootMark := true, separators := [5], children := [0, 1] })]
  limit := 100

theorem scan_of_check_skipping :
    (Tree.check { root := 2 } skipping).verdict = .ok true ∧
      ∃ height chain, Scans { root := 2 } skipping height chain :=
  ⟨rfl, scan_of_check rfl⟩

/-- A tree may pass the check while a scan of it misses a cell. -/
theorem check_skipping :
    (Tree.check { root := 2 } skipping).verdict = .ok true ∧
      answer (Tree.cells { root := 2 }) skipping = .ok [(1, [0xaa])] ∧
      cellsBelow skipping.view.nodes 2 2 = [(1, [0xaa]), (5, [0xbb])] :=
  ⟨rfl, rfl, rfl⟩

end Tree

end RowStore
