import RowStore.Proofs.Tree.Budget
import RowStore.Proofs.Tree.Inorder

/-!
# What is around a part of a tree

A change to the pages from some region down leaves the rest of the tree alone. The rest is a tree
with a hole: branches from the root to the hole, with the other children of these branches and all
that is below them. `Around` lists it by the way down, one branch after the other, together with the
landmarks before the hole and behind it and the pages that are not in it.

* What has the range of the hole and hangs where the hole does can be put in
  (`Around.ordered`, `Around.inorder_eq`, `Around.pagesBelow_perm`).
* What is around a hole stays there when its pages stay as they are (`Around.congr`). So does the
  number of pages that cuts take above the hole (`Around.pagesAbove_congr`).
* The separator next to a hole is its bound (`Around.bounds`). So one that the range of the hole can
  be cut at has its place between those before and those behind (`Around.pairwise_insert`).
-/

set_option autoImplicit false

namespace RowStore

open Landmark

/-- The part next to a given one starts where that ends; the first part starts and the last one ends
with the range. -/
theorem KeyRange.bounds_of_cut {range part : KeyRange} {separators : List Key}
    {near far : List KeyRange} (found : range.cut separators = near ++ part :: far) :
    (part.lower = none → near = [] ∧ range.lower = none) ∧
      (far = [] ∧ part.upper = range.upper ∨
        ∃ next rest key, far = next :: rest ∧ part.upper = some key ∧ next.lower = some key) := by
  induction separators generalizing range near with
  | nil =>
    rcases List.append_eq_cons_iff.mp found.symm with ⟨rfl, here⟩ | ⟨rest, -, short⟩
    · obtain ⟨rfl, rfl⟩ := List.cons.inj here
      exact ⟨fun unbounded => ⟨rfl, unbounded⟩, .inl ⟨rfl, rfl⟩⟩
    · exact absurd short (by simp)
  | cons separator separators ih =>
    cases near with
    | nil =>
      obtain ⟨rfl, rfl⟩ := List.cons.inj found
      refine ⟨fun unbounded => ⟨rfl, unbounded⟩, .inr ?_⟩
      cases separators <;> exact ⟨_, _, separator, rfl, rfl, rfl⟩
    | cons first near =>
      have rest : (range.above separator).cut separators = near ++ part :: far :=
        (List.cons.inj found).2
      obtain ⟨lower, upper⟩ := ih rest
      exact ⟨fun unbounded => absurd (lower unbounded).2 (Option.some_ne_none _), upper⟩

/-- Some children of a branch, apart from the branch, the other children and what is around. -/
theorem flatMap_middle_perm (pages : Region → List PageNumber) (id : PageNumber)
    (near places far : List Region) (others : List PageNumber) :
    (id :: (near ++ (places ++ far)).flatMap pages ++ others).Perm
      (places.flatMap pages ++ (id :: (near ++ far).flatMap pages ++ others)) := by
  rw [List.flatMap_append, List.flatMap_append, List.flatMap_append,
    ← List.append_assoc (places.flatMap pages)]
  refine List.Perm.append_right others ?_
  exact ((List.perm_append_comm_assoc ..).cons id).trans List.perm_middle.symm

/-- What is around the pages from a region down: `levels` rows of branches above them, the landmarks
before and behind them, and the other pages. There is nothing around the root. Around a child are
the other children, and what is around the branch. -/
inductive Around (nodes : Nodes) (root : PageNumber) :
    Nat → Nat → Region → List Landmark → List Landmark → List PageNumber → Prop where
  | root {height : Nat} : Hangs nodes none root → Around nodes root height 0 (root, {}) [] [] []
  | child {height levels : Nat} {region place : Region} {branch : Branch}
      {near far : List Region} {front back : List Landmark} {others : List PageNumber} :
      Around nodes root (height + 1) levels region front back others →
      nodes region.1 = .ok (.branch branch) →
      branch.children.length = branch.separators.length + 1 →
      region.2.Separates branch.separators →
      branch.regions region.2 = near ++ place :: far →
      (∀ other ∈ near ++ place :: far, Hangs nodes (some region.1) other.1) →
      (∀ other ∈ near ++ far, Ordered nodes height other) →
      Around nodes root height (levels + 1) place
        (front ++ near.flatMap (landmarks nodes height))
        (far.flatMap (landmarks nodes height) ++ back)
        (region.1 :: (near ++ far).flatMap (fun other => pagesBelow nodes height other.1) ++ others)

namespace Around

variable {nodes nodes' : Nodes} {root : PageNumber} {height levels : Nat} {region : Region}
  {front back : List Landmark} {others : List PageNumber}

theorem hangs_root (around : Around nodes root height levels region front back others) :
    Hangs nodes none root := by
  induction around with
  | root hangs => exact hangs
  | child around found matched separates here hang siblings ih => exact ih

theorem hangs (around : Around nodes root height levels region front back others) :
    ∃ parent, Hangs nodes parent region.1 := by
  cases around with
  | root hangs => exact ⟨none, hangs⟩
  | child around found matched separates here hang siblings => exact ⟨_, hang region (by simp)⟩

theorem hangs_of (around : Around nodes root height levels region front back others) {node : Node}
    (found : nodes region.1 = .ok node) : Hangs nodes node.parent region.1 := by
  obtain ⟨parent, other, present, rfl, marked⟩ := around.hangs
  cases found.symm.trans present
  exact ⟨_, found, rfl, marked⟩

/-- All pages around a part can be loaded. -/
theorem exists_node (around : Around nodes root height levels region front back others) :
    ∀ page ∈ others, ∃ node, nodes page = .ok node := by
  induction around with
  | root => exact fun page member => absurd member List.not_mem_nil
  | @child height levels region place branch near far front back others around found matched
      separates here hang siblings ih =>
    intro page member
    rcases List.mem_append.mp member with beside | outside
    · rcases List.mem_cons.mp beside with rfl | below
      · exact ⟨_, found⟩
      · obtain ⟨other, sibling, inOther⟩ := List.mem_flatMap.mp below
        exact (siblings other sibling).exists_node page inOther
    · exact ih page outside

/-! ## Putting a part in -/

/-- An ordered part makes an ordered tree with what is around it. -/
theorem ordered (around : Around nodes root height levels region front back others)
    (part : Ordered nodes height region) : Ordered nodes (height + levels) (root, {}) := by
  induction around with
  | root => exact part
  | @child height levels region place branch near far front back others around found matched
      separates here hang siblings ih =>
    rw [Nat.add_comm levels 1, ← Nat.add_assoc]
    refine ih (.branch found matched separates (here ▸ hang) ?_)
    rw [here]
    intro other member
    rcases mem_row_iff.mp member with rfl | sibling
    · exact part
    · exact siblings other sibling

/-- The landmarks of a part stand between those before and those behind it. -/
theorem inorder_eq (around : Around nodes root height levels region front back others) :
    inorder nodes (height + levels) root = front ++ landmarks nodes height region ++ back := by
  induction around with
  | root => exact (List.append_nil _).symm
  | @child height levels region place branch near far front back others around found matched
      separates here hang siblings ih =>
    rw [Nat.add_comm levels 1, ← Nat.add_assoc, ih,
      landmarks_branch found matched height region.2, here, List.flatMap_append,
      List.flatMap_cons]
    simp only [List.append_assoc]

/-- The pages of a tree are those of the part and the others. -/
theorem pagesBelow_perm (around : Around nodes root height levels region front back others) :
    (pagesBelow nodes (height + levels) root).Perm
      (pagesBelow nodes height region.1 ++ others) := by
  induction around with
  | root =>
    rw [List.append_nil]
    exact .refl _
  | @child height levels region place branch near far front back others around found matched
      separates here hang siblings ih =>
    rw [Nat.add_comm levels 1, ← Nat.add_assoc]
    refine ih.trans ?_
    rw [pagesBelow_branch found matched height region.2, here]
    refine (flatMap_middle_perm _ region.1 near [place] far others).trans ?_
    rw [List.flatMap_singleton]

/-! ## Changes to a part -/

/-- What is around a part stays there if its pages stay what they are and the part hangs where it
did. -/
theorem congr (around : Around nodes root height levels region front back others)
    (same : ∀ page ∈ others, nodes' page = nodes page)
    (hung : ∀ parent, Hangs nodes parent region.1 → Hangs nodes' parent region.1) :
    Around nodes' root height levels region front back others := by
  induction around with
  | root hangs => exact .root (hung none hangs)
  | @child height levels region place branch near far front back others around found matched
      separates here hang siblings ih =>
    have atRegion : nodes' region.1 = nodes region.1 :=
      same _ (List.mem_append_left _ List.mem_cons_self)
    have still : ∀ other ∈ near ++ far, ∀ page ∈ pagesBelow nodes height other.1,
        nodes' page = nodes page := fun other member page inOther =>
      same page (List.mem_append_left _
        (List.mem_cons_of_mem _ (List.mem_flatMap.mpr ⟨other, member, inOther⟩)))
    have kept := fun other member => (siblings other member).kept
      ⟨by rw [still other member _ (siblings other member).mem_pagesBelow],
        fun page inTail => still other member page (List.mem_of_mem_tail inTail)⟩
    have outer := ih (fun page member => same page (List.mem_append_right _ member))
      fun parent hangs => hangs.congr atRegion
    have inner := outer.child (atRegion.trans found) matched separates here ?_ fun other member =>
      (kept other member).ordered
    · have landmarksSame : ∀ places ⊆ near ++ far, places.flatMap (landmarks nodes' height) =
          places.flatMap (landmarks nodes height) := fun places part =>
        List.flatMap_congr fun other member => (kept other (part member)).landmarks
      have pagesSame := List.flatMap_congr fun other member => (kept other member).pages
      rw [landmarksSame near (List.subset_append_left ..),
        landmarksSame far (List.subset_append_right ..), pagesSame] at inner
      exact inner
    · intro other member
      rcases mem_row_iff.mp member with rfl | sibling
      · exact hung _ (hang other member)
      · exact (hang other member).congr
          (still other sibling _ (siblings other sibling).mem_pagesBelow)

/-- There is a number of pages that cuts take above a part, at most one for each branch and one for
a new root. -/
theorem exists_pagesAbove (around : Around nodes root height levels region front back others)
    {parent : Option PageNumber} (hangs : Hangs nodes parent region.1) :
    ∃ needed ≤ levels + 1, PagesAbove nodes parent needed := by
  induction around generalizing parent with
  | root top =>
    cases hangs.unique top
    exact ⟨1, Nat.le_refl _, .root⟩
  | @child height levels region place branch near far front back others around found matched
      separates here hang siblings ih =>
    cases hangs.unique (hang place (by simp))
    cases room : branch.canGrow with
    | true => exact ⟨0, Nat.zero_le _, .room found room⟩
    | false =>
      obtain ⟨needed, few, counted⟩ := ih (around.hangs_of found)
      exact ⟨needed + 1, Nat.succ_le_succ few, .full found room counted⟩

/-- How many pages cuts take above a part depends on the pages around it only. -/
theorem pagesAbove_congr (around : Around nodes root height levels region front back others)
    {parent : Option PageNumber} (hangs : Hangs nodes parent region.1)
    (same : ∀ page ∈ others, nodes' page = nodes page) {needed : Nat}
    (counted : PagesAbove nodes parent needed) : PagesAbove nodes' parent needed := by
  induction around generalizing parent needed with
  | root top =>
    cases hangs.unique top
    cases counted
    exact .root
  | @child height levels region place branch near far front back others around found matched
      separates here hang siblings ih =>
    cases hangs.unique (hang place (by simp))
    have atRegion : nodes' region.1 = nodes region.1 :=
      same _ (List.mem_append_left _ List.mem_cons_self)
    cases counted with
    | room present room => exact .room (atRegion.trans present) room
    | full present full counted =>
      exact .full (atRegion.trans present) full (ih (around.hangs_of present)
        (fun page member => same page (List.mem_append_right _ member)) counted)

/-! ## The separators around a part -/

/-- The first separator behind a part is its upper bound, and there is none before a part without a
lower bound. -/
theorem bounds (around : Around nodes root height levels region front back others) :
    (region.2.lower = none → front.filterMap key? = []) ∧
      (back.filterMap key?).head? = region.2.upper := by
  induction around with
  | root => exact ⟨fun _ => rfl, rfl⟩
  | @child height levels region place branch near far front back others around found matched
      separates here hang siblings ih =>
    have parts := congrArg (List.map Prod.snd) here
    rw [Branch.map_snd_regions matched, List.map_append, List.map_cons] at parts
    obtain ⟨lower, upper⟩ := KeyRange.bounds_of_cut parts
    constructor
    · intro unbounded
      obtain ⟨alone, whole⟩ := lower unbounded
      rw [List.map_eq_nil_iff.mp alone, List.flatMap_nil, List.append_nil]
      exact ih.1 whole
    · rcases upper with ⟨alone, same⟩ | ⟨next, rest, key, listed, atUpper, atNext⟩
      · rw [List.map_eq_nil_iff.mp alone, List.flatMap_nil, List.nil_append, same]
        exact ih.2
      · obtain ⟨other, rest', rfl, rfl, -⟩ := List.map_eq_cons_iff.mp listed
        rw [List.flatMap_cons, List.append_assoc, List.filterMap_append, filterMap_key?_landmarks,
          atNext, atUpper]
        rfl

/-- A key that the range of a part can be cut at has its place right behind the separators that
stand before the part and its lower bound. -/
theorem pairwise_insert (around : Around nodes root height levels region front back others)
    {separator : Key} (admits : region.2.Admits separator)
    (ascending : (front.filterMap key? ++ region.2.lower.toList ++ back.filterMap key?).Pairwise
      (· < ·)) :
    (front.filterMap key? ++ region.2.lower.toList ++ separator :: back.filterMap key?).Pairwise
      (· < ·) := by
  obtain ⟨unbounded, atUpper⟩ := around.bounds
  obtain ⟨before, behind, across⟩ := List.pairwise_append.mp ascending
  have low : ∀ key ∈ front.filterMap key? ++ region.2.lower.toList, key < separator := by
    cases bound : region.2.lower with
    | none =>
      rw [unbounded bound]
      exact fun key member => absurd member List.not_mem_nil
    | some lower =>
      rw [bound] at before
      have limit : lower < separator := admits.1 lower bound
      intro key member
      rcases List.mem_append.mp member with inFront | isLower
      · exact Int32.lt_trans
          ((List.pairwise_append.mp before).2.2 key inFront lower List.mem_cons_self) limit
      · rw [List.mem_singleton.mp isLower]
        exact limit
  have high : ∀ key ∈ back.filterMap key?, separator < key := by
    generalize back.filterMap key? = keys at behind atUpper ⊢
    cases keys with
    | nil => exact fun key member => absurd member List.not_mem_nil
    | cons upper keys =>
      have limit : separator < upper := admits.2 upper atUpper.symm
      intro key member
      rcases List.mem_cons.mp member with rfl | further
      · exact limit
      · exact Int32.lt_trans limit ((List.pairwise_cons.mp behind).1 key further)
  refine List.pairwise_append.mpr ⟨before, List.pairwise_cons.mpr ⟨high, behind⟩, ?_⟩
  intro key inBefore other member
  rcases List.mem_cons.mp member with rfl | further
  · exact low key inBefore
  · exact across key inBefore other further

/-! ## The way down to a leaf -/

/-- What is around a leaf of a part. -/
theorem exists_of_mem (around : Around nodes root height levels region front back others)
    (part : Ordered nodes height region) {page : PageNumber}
    (member : page ∈ leavesBelow nodes height region.1) :
    ∃ levels' range front' back' others',
      Around nodes root 1 levels' (page, range) front' back' others' ∧
      Ordered nodes 1 (page, range) ∧ 1 + levels' = height + levels := by
  induction part generalizing levels front back others with
  | @leaf region leaf found matched separates =>
    rw [leavesBelow_leaf found, List.mem_singleton] at member
    subst member
    exact ⟨levels, region.2, front, back, others, around, .leaf found matched separates, rfl⟩
  | @branch height region branch found matched separates hang below ih =>
    rw [leavesBelow_branch found matched height region.2] at member
    obtain ⟨place, inRegions, member⟩ := List.mem_flatMap.mp member
    obtain ⟨near, far, here⟩ := List.append_of_mem inRegions
    have sibling : ∀ other ∈ near ++ far, other ∈ branch.regions region.2 := fun other aside =>
      here ▸ mem_row_iff.mpr (.inr aside)
    obtain ⟨levels', range, front', back', others', aroundPage, atPage, total⟩ :=
      ih place inRegions (around.child found matched separates here (here ▸ hang)
        fun other aside => below other (sibling other aside)) member
    exact ⟨levels', range, front', back', others', aroundPage, atPage, by omega⟩

end Around

end RowStore
