import RowStore.Proofs.Tree.Shape

/-!
# Walks through a well-shaped tree

In a tree with a layout every walk ends where it should, within its budget: a
descent for a key at the leaf whose range has the key, a descent to the left at
the first leaf, the way up at the root, and the way along the leaves after all
cells, in ascending order of their keys. None of them changes what the store
holds.
-/

set_option autoImplicit false

namespace RowStore

open Store RowStore.Tree

variable {view : View} {root : PageNumber} {levels : Nat} {row : List Region}
  {above : List PageNumber}

/-! ## How large a tree is -/

namespace Crown

variable {nodes : Nodes}

theorem row_ne_nil (crown : Crown nodes root levels row above) : row ≠ [] := by
  induction crown with
  | root => exact List.cons_ne_nil _ _
  | @row levels upper row above crown branches parts ih =>
    obtain ⟨region, rest, rfl⟩ := List.exists_cons_of_ne_nil ih
    obtain ⟨branch, found, fits, -, -⟩ := branches region List.mem_cons_self
    intro empty
    rw [parts, List.flatMap_cons, List.append_eq_nil_iff, regionsBelow_branch found] at empty
    have count := congrArg List.length fits.map_fst_regions
    rw [empty.1, fits.matched] at count
    cases count

theorem levels_le (crown : Crown nodes root levels row above) : levels ≤ above.length := by
  induction crown with
  | root => exact Nat.le_refl _
  | @row levels upper row above crown branches parts ih =>
    have := List.length_pos_iff.mpr crown.row_ne_nil
    rw [List.length_append, List.length_map]
    omega

end Crown

namespace Layout

theorem length_le (layout : Layout view root levels row above) :
    row.length + above.length ≤ view.pagesInUse := by
  have numbers : ((row.map Prod.fst ++ above).map UInt32.toNat).Nodup :=
    layout.distinct.map fun _ _ => UInt32.toNat_inj.mp
  have inUse : (row.map Prod.fst ++ above).map UInt32.toNat ⊆ List.range view.pagesInUse := by
    intro number member
    obtain ⟨page, listed, rfl⟩ := List.mem_map.mp member
    exact List.mem_range.mpr ((layout.complete page).mp listed)
  simpa using (List.subperm_of_subset numbers inUse).length_le

theorem levels_lt (layout : Layout view root levels row above) : levels < view.pagesInUse := by
  have := layout.length_le
  have := layout.crown.levels_le
  have := List.length_pos_iff.mpr layout.crown.row_ne_nil
  omega

end Layout

/-! ## Downwards -/

namespace Promises

variable {done : PageNumber → View → Prop} {failed : Fault → View → Prop}
  {choose : Branch → Option PageNumber} {id child : PageNumber} {budget : Nat}

theorem descendWithin_leaf {leaf : Leaf} (found : view.nodes id = .ok (.leaf leaf))
    (holds : done id view) : Promises view (descendWithin choose (budget + 1) id) done failed :=
  .bind (.load_of found (.pure holds))

theorem descendWithin_branch {branch : Branch} (found : view.nodes id = .ok (.branch branch))
    (chosen : choose branch = some child)
    (onwards : Promises view (descendWithin choose budget child) done failed) :
    Promises view (descendWithin choose (budget + 1) id) done failed := by
  refine .bind (.load_of found ?_)
  simp only [chosen]
  exact onwards

end Promises

/-- The child for a key is the one whose range has the key. -/
theorem Branch.childFor?_eq {branch : Branch} {range : KeyRange}
    (matched : branch.children.length = branch.separators.length + 1) {key : Key}
    (has : range.contains key = true) :
    ∃ region ∈ branch.regions range,
      branch.childFor? key = some region.1 ∧ region.2.contains key = true := by
  obtain ⟨part, found, inPart⟩ :=
    KeyRange.exists_cut_position branch.separators has
  have inside : branch.position key < branch.children.length := by
    rw [matched, ← KeyRange.length_cut range]
    exact (List.getElem?_eq_some_iff.mp found).1
  refine ⟨(branch.children[branch.position key], part), ?_, ?_, inPart⟩
  · refine List.mem_of_getElem? (i := branch.position key) ?_
    rw [regions, List.getElem?_zip_eq_some]
    exact ⟨List.getElem?_eq_getElem inside, found⟩
  · exact List.getElem?_eq_getElem inside

namespace Crown

/-- A descent for a key reaches the row at the region that has the key. -/
theorem descend_childFor? (crown : Crown view.nodes root levels row above) (key : Key)
    (budget : Nat) :
    ∃ region ∈ row, region.2.contains key = true ∧
      ∀ done failed,
        Promises view (descendWithin (·.childFor? key) budget region.1) done failed →
        Promises view (descendWithin (·.childFor? key) (levels + budget) root) done failed := by
  induction crown generalizing budget with
  | root =>
    refine ⟨_, List.mem_cons_self, KeyRange.contains_unbounded key, fun done failed here => ?_⟩
    rw [Nat.zero_add]
    exact here
  | @row levels upper row above crown branches parts ih =>
    obtain ⟨region, member, has, reaches⟩ := ih (budget + 1)
    obtain ⟨branch, found, fits, -, -⟩ := branches region member
    obtain ⟨place, inRegions, chosen, inPlace⟩ := Branch.childFor?_eq fits.matched has
    refine ⟨place, ?_, inPlace, fun done failed here => ?_⟩
    · rw [parts, List.mem_flatMap]
      exact ⟨region, member, (regionsBelow_branch found) ▸ inRegions⟩
    · rw [Nat.add_right_comm, Nat.add_assoc]
      exact reaches done failed (.descendWithin_branch found chosen here)

/-- A descent to the left reaches the first region of the row. -/
theorem descend_head? (crown : Crown view.nodes root levels row above) (budget : Nat) :
    ∃ region rest, row = region :: rest ∧
      ∀ done failed,
        Promises view (descendWithin (·.children.head?) budget region.1) done failed →
        Promises view (descendWithin (·.children.head?) (levels + budget) root) done failed := by
  induction crown generalizing budget with
  | root =>
    refine ⟨_, _, rfl, fun done failed here => ?_⟩
    rw [Nat.zero_add]
    exact here
  | @row levels upper row above crown branches parts ih =>
    obtain ⟨region, rest, rfl, reaches⟩ := ih (budget + 1)
    obtain ⟨branch, found, fits, -, -⟩ := branches region List.mem_cons_self
    obtain ⟨place, others, listed, chosen⟩ := Branch.exists_first fits.matched region.2
    refine ⟨place, others ++ rest.flatMap (regionsBelow view.nodes), ?_,
      fun done failed here => ?_⟩
    · rw [parts, List.flatMap_cons, regionsBelow_branch found, listed]
      rfl
    · rw [Nat.add_right_comm, Nat.add_assoc]
      exact reaches done failed (.descendWithin_branch found chosen here)

end Crown

namespace Layout

/-- **A search ends at the leaf whose range has the key.** -/
theorem leafFor (layout : Layout view root levels row above) (key : Key) :
    ∃ region ∈ row, region.2.contains key = true ∧
      Promises view (Tree.leafFor { root } key)
        (fun page after => page = region.1 ∧ after = view) (fun _ _ => False) := by
  obtain ⟨budget, enough⟩ := Nat.exists_eq_add_of_lt layout.levels_lt
  obtain ⟨region, member, has, reaches⟩ := layout.crown.descend_childFor? key (budget + 1)
  obtain ⟨leaf, found, -⟩ := layout.leaves region member
  refine ⟨region, member, has, .bind (.countPages ?_)⟩
  rw [enough, Nat.add_assoc]
  exact reaches _ _ (.descendWithin_leaf found ⟨rfl, rfl⟩)

theorem firstLeaf (layout : Layout view root levels row above) :
    ∃ region rest, row = region :: rest ∧
      Promises view (Tree.firstLeaf { root })
        (fun page after => page = region.1 ∧ after = view) (fun _ _ => False) := by
  obtain ⟨budget, enough⟩ := Nat.exists_eq_add_of_lt layout.levels_lt
  obtain ⟨region, rest, rfl, reaches⟩ := layout.crown.descend_head? (budget + 1)
  obtain ⟨leaf, found, -⟩ := layout.leaves region List.mem_cons_self
  refine ⟨region, rest, rfl, .bind (.countPages ?_)⟩
  rw [enough, Nat.add_assoc]
  exact reaches _ _ (.descendWithin_leaf found ⟨rfl, rfl⟩)

end Layout

/-! ## Upwards -/

/-- The way up from a page of a crown or its row ends at the root. -/
theorem Crown.rootWithin (crown : Crown view.nodes root levels row above) {page : PageNumber}
    (member : page ∈ row.map Prod.fst ++ above) {budget : Nat} (enough : levels ≤ budget) :
    Promises view (Tree.rootWithin budget page) (fun top after => top = root ∧ after = view)
      (fun _ _ => False) := by
  induction crown generalizing page budget with
  | root hangs =>
    obtain ⟨node, found, orphan, -⟩ := hangs
    rw [List.mem_singleton.mp member, Tree.rootWithin]
    refine .bind (.load_of found ?_)
    simp only [orphan]
    exact .pure ⟨rfl, rfl⟩
  | @row levels upper row above crown branches parts ih =>
    rcases List.mem_append.mp member with here | higher
    · obtain ⟨region, inRow, rfl⟩ := List.mem_map.mp here
      obtain ⟨place, inUpper, node, found, child, -⟩ := exists_parent branches (parts ▸ inRow)
      obtain ⟨budget, rfl⟩ : ∃ fewer, budget = fewer + 1 := ⟨budget - 1, by omega⟩
      rw [Tree.rootWithin]
      refine .bind (.load_of found ?_)
      simp only [child]
      exact ih (List.mem_append_left _ (List.mem_map_of_mem inUpper)) (by omega)
    · exact ih higher (by omega)

/-- **The way up ends at the root, from every page in use.** -/
theorem Layout.rootAbove (layout : Layout view root levels row above) {page : PageNumber}
    (inUse : page.toNat < view.pagesInUse) :
    Promises view (Tree.rootAbove page) (fun top after => top = root ∧ after = view)
      (fun _ _ => False) :=
  .bind (.countPages (layout.crown.rootWithin ((layout.complete page).mpr inUse)
    (Nat.le_of_lt layout.levels_lt)))

/-! ## Along the leaves -/

/-- The references from a leaf on lead one way. -/
theorem Linked.unique {nodes : Nodes} {start : Option PageNumber}
    {pages others : List PageNumber} (linked : Linked nodes start pages)
    (linked' : Linked nodes start others) : pages = others := by
  induction pages generalizing start others with
  | nil =>
    cases others with
    | nil => rfl
    | cons other others =>
      cases (show start = none from linked).symm.trans linked'.1
  | cons page pages ih =>
    obtain ⟨rfl, leaf, found, linked⟩ := linked
    cases others with
    | nil => cases (show some page = none from linked')
    | cons other others =>
      obtain ⟨same, leaf', found', linked'⟩ := linked'
      cases same
      cases found.symm.trans found'
      exact congrArg (page :: ·) (ih linked linked')

/-- The cells of a row of leaves, from left to right. -/
def cellsOf (nodes : Nodes) (row : List Region) : List (Key × Bytes) :=
  row.flatMap fun region => cellsAt nodes region.1

section Reading

variable {α : Type} {read : Key → Bytes → Except Fault α}

/-- Reading along linked leaves is reading their cells one after the other. -/
theorem Linked.collectWithin {pages : List PageNumber} {start : Option PageNumber} {budget : Nat}
    (linked : Linked view.nodes start pages) (enough : pages.length ≤ budget) :
    Promises view (Tree.collectWithin read budget start)
      (fun values after => after = view ∧
        (pages.flatMap (cellsAt view.nodes)).mapM (fun cell => read cell.1 cell.2) = .ok values)
      (fun fault after => after = view ∧
        (pages.flatMap (cellsAt view.nodes)).mapM (fun cell => read cell.1 cell.2) =
          .error fault) := by
  induction pages generalizing start budget with
  | nil =>
    rw [show start = none from linked, Tree.collectWithin]
    exact .pure ⟨rfl, rfl⟩
  | cons page pages ih =>
    obtain ⟨rfl, leaf, found, linked⟩ := linked
    obtain ⟨budget, rfl⟩ : ∃ fewer, budget = fewer + 1 :=
      ⟨budget - 1, by rw [List.length_cons] at enough; omega⟩
    rw [Tree.collectWithin]
    simp only [List.flatMap_cons, List.mapM_append, cellsAt_leaf found]
    refine .bind (.loadLeaf_of found ?_)
    refine .bind (.lift (fun here is => ?_) (fun fault is => ⟨rfl, by rw [is]; rfl⟩))
    have rest := ih linked (Nat.le_of_succ_le_succ enough)
    refine .bind (rest.weaken ?_ ?_)
    · rintro beyond after ⟨rfl, others⟩
      refine .pure ⟨rfl, ?_⟩
      rw [is, others]
      rfl
    · rintro fault after ⟨rfl, others⟩
      refine ⟨rfl, ?_⟩
      rw [is, others]
      rfl

/-- Reading cells as they are gives the cells. -/
theorem mapM_ok (cells : List (Key × Bytes)) :
    (cells.mapM fun cell => (.ok (cell.1, cell.2) : Except Fault (Key × Bytes))) = .ok cells :=
  List.mapM_pure.trans (congrArg Except.ok (List.map_id cells))

/-- **Reading a tree is reading its cells, from the first leaf to the last.** -/
theorem Layout.collect (layout : Layout view root levels row above) :
    Promises view (Tree.collect { root } read)
      (fun values after => after = view ∧
        (cellsOf view.nodes row).mapM (fun cell => read cell.1 cell.2) = .ok values)
      (fun fault after => after = view ∧
        (cellsOf view.nodes row).mapM (fun cell => read cell.1 cell.2) = .error fault) := by
  obtain ⟨region, rest, rfl, first⟩ := layout.firstLeaf
  have budget := layout.length_le
  refine .bind (first.mono ?_)
  rintro page after ⟨rfl, rfl⟩
  refine .bind (.countPages ?_)
  have linked := layout.linked
  have start : some 0 = some region.1 := linked.1
  rw [start] at linked
  have cells : cellsOf after.nodes (region :: rest) =
      ((region :: rest).map Prod.fst).flatMap (cellsAt after.nodes) := (List.flatMap_map ..).symm
  rw [cells]
  exact linked.collectWithin (by rw [List.length_map]; omega)

end Reading

/-! ## The order of the cells -/

theorem Leaf.map_fst_cells {leaf : Leaf} (matched : leaf.values.length = leaf.keys.length) :
    leaf.cells.map Prod.fst = leaf.keys :=
  List.map_fst_zip (Nat.le_of_eq matched.symm)

theorem Leaf.Fits.map_fst_cells {leaf : Leaf} {range : KeyRange} (fits : leaf.Fits range) :
    leaf.cells.map Prod.fst = leaf.keys :=
  Leaf.map_fst_cells fits.matched

theorem LeafAt.keys_within {nodes : Nodes} {region : Region} (leaf : LeafAt nodes region)
    {cell : Key × Bytes} (member : cell ∈ cellsAt nodes region.1) :
    region.2.contains cell.1 = true := by
  obtain ⟨leaf, found, fits⟩ := leaf
  rw [cellsAt_leaf found] at member
  refine fits.separates.within cell.1 ?_
  rw [← fits.map_fst_cells]
  exact List.mem_map_of_mem member

/-- The cells of a tree ascend. -/
theorem Layout.ascending (layout : Layout view root levels row above) :
    (cellsOf view.nodes row).Pairwise fun first second => first.1 < second.1 := by
  rw [cellsOf, List.pairwise_flatMap]
  constructor
  · intro region member
    obtain ⟨leaf, found, fits⟩ := layout.leaves region member
    have ascending := fits.separates.ascending
    rw [← fits.map_fst_cells, List.pairwise_map] at ascending
    rw [cellsAt_leaf found]
    exact ascending
  · refine layout.crown.precedes.imp_of_mem fun {first second} inFirst inSecond order => ?_
    intro low inLow high inHigh
    exact order _ _ ((layout.leaves first inFirst).keys_within inLow)
      ((layout.leaves second inSecond).keys_within inHigh)

end RowStore
