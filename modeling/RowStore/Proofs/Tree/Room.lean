import RowStore.Proofs.Tree.Guarantees

/-!
# Room for one more value

A chain of cuts passes each level of a tree at most once and may end with a new root,
so it takes at most one page more than the tree has levels (`Crown.pagesAbove_le`). As
long as that many pages are left, the limit stops no insertion, and a new value is
refused for one reason only: its leaf has no room, and would not have it after a cut
either (`Tree.Reached.insert_with_spare_pages`).

The second part does happen. A leaf is cut at the cell in the middle, whatever the cells
take, so a long value beside other long ones can leave a half too large for a page while
another cut would fit (`Tree.insert_refused_with_spare_pages`).
-/

set_option autoImplicit false

namespace RowStore

open Store

/-! ## The levels of a tree -/

namespace Crown

variable {view : View} {root : PageNumber} {levels : Nat} {row : List Region}
  {above : List PageNumber}

/-- Going down at the first children counts the rows above a row. -/
theorem heightWithin (crown : Crown view.nodes root levels row above) (budget : Nat) :
    ∃ region rest, row = region :: rest ∧
      ∀ (done : Nat → View → Prop) (failed : Fault → View → Prop),
        Promises view (Tree.heightWithin budget region.1)
          (fun height after => done (height + levels) after) failed →
        Promises view (Tree.heightWithin (levels + budget) root) done failed := by
  induction crown generalizing budget with
  | root =>
    refine ⟨_, _, rfl, fun done failed here => ?_⟩
    rw [Nat.zero_add]
    exact here
  | @row levels upper row above crown branches parts ih =>
    obtain ⟨region, rest, rfl, counts⟩ := ih (budget + 1)
    obtain ⟨branch, found, fits, -, -⟩ := branches region List.mem_cons_self
    obtain ⟨place, others, listed, first⟩ := Branch.exists_first fits.matched region.2
    refine ⟨place, others ++ rest.flatMap (regionsBelow view.nodes), ?_,
      fun done failed here => ?_⟩
    · rw [parts, List.flatMap_cons, regionsBelow_branch found, listed]
      rfl
    · rw [Nat.add_right_comm, Nat.add_assoc]
      refine counts done failed ?_
      rw [Tree.heightWithin]
      refine .bind (.load_of found ?_)
      simp only [first]
      refine .bind (here.weaken ?_ fun _ _ failing => failing)
      intro height after counted
      refine .pure ?_
      rwa [Nat.add_right_comm, Nat.add_assoc]

/-- **A chain of cuts takes at most a page for each row of branches and one for a new root.** -/
theorem pagesAbove_le {nodes : Nodes} (crown : Crown nodes root levels row above)
    {region : Region} (member : region ∈ row) {parent : Option PageNumber}
    (hangs : Hangs nodes parent region.1) {needed : Nat}
    (counted : PagesAbove nodes parent needed) : needed ≤ levels + 1 := by
  induction crown generalizing region parent needed with
  | root top =>
    rw [List.mem_singleton.mp member] at hangs
    cases hangs.unique top
    cases counted
    exact Nat.le_refl _
  | @row levels upper row above crown branches parts ih =>
    obtain ⟨place, inUpper, hung⟩ := exists_parent branches (parts ▸ member)
    cases hangs.unique hung
    cases counted with
    | room => exact Nat.zero_le _
    | full found full counted =>
      have fewer := ih inUpper (crown.hangs_of inUpper found) counted
      exact Nat.succ_le_succ fewer

end Crown

namespace Layout

variable {view : View} {root : PageNumber} {levels : Nat} {row : List Region}
  {above : List PageNumber}

/-- The height of a tree is the number of its rows. -/
theorem height (layout : Layout view root levels row above) :
    Promises view (Tree.height { root })
      (fun height after => height = levels + 1 ∧ after = view) (fun _ _ => False) := by
  obtain ⟨budget, enough⟩ := Nat.exists_eq_add_of_lt layout.levels_lt
  obtain ⟨region, rest, rfl, counts⟩ := layout.crown.heightWithin (budget + 1)
  obtain ⟨leaf, found, -⟩ := layout.leaves region List.mem_cons_self
  refine .bind (.countPages ?_)
  rw [enough, Nat.add_assoc]
  refine counts _ _ ?_
  rw [Tree.heightWithin]
  exact .bind (.load_of found (.pure ⟨Nat.add_comm .., rfl⟩))

/-- The pages that cutting a leaf takes are at most one more than the tree has levels. -/
theorem pagesToDivide (layout : Layout view root levels row above) {region : Region}
    (member : region ∈ row) {leaf : Leaf} (found : view.nodes region.1 = .ok (.leaf leaf)) :
    Promises view (Tree.pagesToDivide leaf)
      (fun needed after => needed ≤ levels + 2 ∧ after = view ∧
        ∃ higher, needed = higher + 1 ∧ PagesAbove view.nodes leaf.parent higher)
      (fun _ _ => False) := by
  have hangs := layout.crown.hangs_of member found
  have counted := layout.crown.pagesAbove member hangs (Nat.le_of_lt layout.levels_lt)
  refine .bind (.countPages (.bind (counted.mono ?_)))
  rintro needed after ⟨rfl, above⟩
  exact .pure ⟨Nat.succ_le_succ (layout.crown.pagesAbove_le member hangs above), rfl, needed, rfl,
    above⟩

end Layout

/-! ## Leaves that take a value -/

/-- With one more cell the leaf fits a page, or each of its halves does. -/
def Leaf.Takes (leaf : Leaf) (key : Key) (value : Bytes) : Prop :=
  (leaf.insert key value).size ≤ Page.size ∨
    ∀ page, ((leaf.insert key value).divide page).1.size ≤ Page.size ∧
      ((leaf.insert key value).divide page).2.size ≤ Page.size

theorem Leaf.takes_iff {leaf : Leaf} (matched : leaf.values.length = leaf.keys.length) (key : Key)
    (value : Bytes) :
    leaf.Takes key value ↔ leaf.hasRoomFor value.length = true ∨
      leaf.canDivideAt (leaf.position key) value.length = true := by
  rw [Takes, Leaf.hasRoomFor_iff matched key value]
  refine or_congr_right ⟨fun halves => ?_, fun divides page => ?_⟩
  · exact (Leaf.canDivideAt_iff matched key value 0).mpr (halves 0)
  · exact (Leaf.canDivideAt_iff matched key value page).mp divides

section Insert

variable {view : View} {root : PageNumber} {levels : Nat} {front back : List Region}
  {region : Region} {above : List PageNumber} {leaf : Leaf} {key : Key} {value : Bytes}

/-- With pages for the longest chain of cuts, the leaf alone decides. -/
theorem Layout.insert_of_spare_pages
    (layout : Layout view root levels (front ++ region :: back) above) (regular : view.Regular)
    (found : view.nodes region.1 = .ok (.leaf leaf)) (has : region.2.contains key = true)
    (search : Promises view (Tree.leafFor { root } key)
      (fun page after => page = region.1 ∧ after = view) fun _ _ => False)
    (new : leaf.hasKey key ≠ true) (ordinary : value.length ≤ maxValueLength)
    (spare : view.pagesInUse + (levels + 2) ≤ view.limit.toNat) :
    Promises view (Tree.insert { root } key value)
      (fun _ _ => leaf.Takes key value)
      (fun fault after => ¬leaf.Takes key value ∧ fault = .shortage (.leaf region.1) ∧
        after = view) := by
  have matched := (layout.fits_of_mem (by simp) found).matched
  rw [Leaf.takes_iff matched]
  refine (layout.insert regular found has search).weaken ?_ ?_
  · rintro tree after ⟨-, -, grown⟩
    obtain ⟨levels', row, above', -, entered⟩ := grown.layout
    cases entered with
    | whole room => exact .inl room
    | halves _ divides => exact .inr divides
  · rintro fault after ⟨rfl, declined⟩
    cases declined with
    | long long => exact absurd ordinary (Nat.not_le_of_lt long)
    | present present => exact absurd present new
    | uncut _ full uncut => exact ⟨fun takes => takes.elim full uncut, rfl, rfl⟩
    | scarce _ _ _ counted scarce =>
      have inRow : region ∈ front ++ region :: back := by simp
      have few := layout.crown.pagesAbove_le inRow (layout.crown.hangs_of inRow found) counted
      omega

end Insert

namespace Tree

/-- **With pages for the longest chain of cuts, a new value is refused for one reason only.** There
is one leaf where the key belongs. If the leaf takes the value, whole or cut in two, then the
insertion succeeds. If it does not, then the fault names the leaf, and nothing has changed. -/
theorem Reached.insert_with_spare_pages {most : Nat} {tree : Tree} {store : Store}
    {accepted : List (Key × Bytes)} (reached : Reached most tree store accepted) {key : Key}
    {value : Bytes} (new : key ∉ accepted.map Prod.fst)
    (ordinary : value.length ≤ maxValueLength) :
    ∃ height page leaf, answer tree.height store = .ok height ∧
      answer (tree.leafFor key) store = .ok page ∧ store.peek page = .ok (.leaf leaf) ∧
      (∃ needed ≤ height + 1, answer (pagesToDivide leaf) store = .ok needed) ∧
      (store.pagesInUse + height + 1 ≤ store.limit.toNat →
        (leaf.Takes key value → ∃ tree' after, tree.insert key value store = .ok tree' after) ∧
        (¬leaf.Takes key value → ∃ after,
          tree.insert key value store = .error (.shortage (.leaf page)) after ∧
          after.view = store.view)) := by
  obtain ⟨regular, levels, row, above, layout, same⟩ := reached.holds
  obtain ⟨region, member, has, search⟩ := layout.leafFor key
  obtain ⟨front, back, rfl⟩ := List.append_of_mem member
  obtain ⟨leaf, found, -⟩ := layout.leaves region member
  have absent : leaf.hasKey key ≠ true := by
    rw [← (same.map Prod.fst).mem_iff, layout.mem_keys_iff found has] at new
    exact new
  have counted := layout.pagesToDivide member found
  obtain ⟨needed, after, run, few, -⟩ := counted.exists_ok
  refine ⟨levels + 1, region.1, leaf, layout.height.answer_eq_ok, search.answer_eq_ok, found,
    ⟨needed, few, by rw [answer, run]⟩, fun spare => ?_⟩
  have ends := layout.insert_of_spare_pages regular found has search absent ordinary
    (by show store.pagesInUse + (levels + 2) ≤ store.limit.toNat; omega)
  cases run : tree.insert key value store with
  | ok tree' after =>
    exact ⟨fun _ => ⟨tree', after, rfl⟩, fun refused => absurd (ends.of_ok run) refused⟩
  | error fault after =>
    obtain ⟨refused, rfl, unchanged⟩ := ends.of_error run
    exact ⟨fun takes => absurd takes refused, fun _ => ⟨after, rfl, unchanged⟩⟩

theorem height_rootLeaf {limit : UInt32} {keys : List Key} {values : List Bytes} :
    answer (Tree.height { root := 0 }) (rootLeaf limit keys values) = .ok 1 := by
  unfold Tree.height
  show answer (Tree.heightWithin 1 0) _ = _
  rw [Tree.heightWithin]
  rfl

/-- A root that does not take a new value refuses it. -/
theorem insert_rootLeaf_of_not_takes {limit : UInt32} {keys : List Key} {values : List Bytes}
    {leaf : Leaf} (key : Key) (value : Bytes) (isLeaf : leaf = { rootMark := true, keys, values })
    (ordinary : value.length ≤ maxValueLength) (new : leaf.hasKey key = false)
    (matched : leaf.values.length = leaf.keys.length) (refuses : ¬leaf.Takes key value) :
    answer (Tree.insert { root := 0 } key value) (rootLeaf limit keys values) =
      .error (.shortage (.leaf 0)) := by
  rw [Leaf.takes_iff matched, not_or] at refuses
  subst isLeaf
  unfold Tree.insert
  rw [if_pos ordinary]
  show answer (if Leaf.hasKey _ key = true then _ else if Leaf.hasRoomFor _ _ = true then _
    else if Leaf.canDivideAt _ _ _ = true then _ else _ : StoreM Tree)
    (rootLeaf limit keys values) = _
  rw [if_neg (Bool.eq_false_iff.mp new), if_neg refuses.1, if_neg refuses.2]
  rfl

/-- A root with an empty value and a long one. -/
def unevenLeaf : Leaf where
  rootMark := true
  keys := [1, 2]
  values := [[], List.replicate 2000 0]

/-- A store with this root and many pages left. -/
def unevenStore : Store := rootLeaf 100 unevenLeaf.keys unevenLeaf.values

/-- What was inserted there, the latest first. -/
def unevenRows : List (Key × Bytes) := [(2, List.replicate 2000 0), (1, [])]

/-- A value that is longer still. -/
def longValue : Bytes := List.replicate 3000 0

theorem lengths_uneven : unevenLeaf.values.map List.length = [0, 2000] := by
  simp only [unevenLeaf, List.map, List.length_nil, List.length_replicate]

theorem ordinary_longValue : longValue.length ≤ maxValueLength := by
  rw [longValue, List.length_replicate]
  decide

theorem reached_uneven : Reached 100 { root := 0 } unevenStore unevenRows := by
  have short := (reached_rootLeaf (by decide : 0 < (100 : UInt32).toNat)).inserted
    (insert_rootLeaf_of_room 1 [] rfl (Nat.zero_le _) rfl rfl)
  refine short.inserted (insert_rootLeaf_of_room 2 (List.replicate 2000 0) rfl ?_ rfl ?_)
  · rw [List.length_replicate]
    decide
  · rw [List.length_replicate]
    decide

/-- In front of the others, the long value stands in the lower half alone. -/
theorem takes_long_first : unevenLeaf.Takes 0 longValue := by
  refine (Leaf.takes_iff rfl 0 longValue).mpr (.inr ?_)
  rw [Leaf.canDivideAt, lengths_uneven, longValue, List.length_replicate]
  decide

/-- Behind the others, the two long values stand in the upper half together. -/
theorem not_takes_long_last : ¬unevenLeaf.Takes 3 longValue := by
  rw [Leaf.takes_iff rfl, Leaf.hasRoomFor, Leaf.size, Leaf.canDivideAt, lengths_uneven, longValue,
    List.length_replicate]
  decide

theorem insert_with_spare_pages_uneven :
    (∃ tree after, Tree.insert { root := 0 } 0 longValue unevenStore = .ok tree after) ∧
      ∃ after, Tree.insert { root := 0 } 3 longValue unevenStore =
        .error (.shortage (.leaf 0)) after ∧ after.view = unevenStore.view := by
  have spare : unevenStore.pagesInUse + 1 + 1 ≤ unevenStore.limit.toNat := by decide
  have height : answer (Tree.height { root := 0 }) unevenStore = .ok 1 := height_rootLeaf
  constructor
  · obtain ⟨levels, page, leaf, counted, searched, found, -, ends⟩ :=
      reached_uneven.insert_with_spare_pages (by decide : (0 : Key) ∉ unevenRows.map Prod.fst)
        ordinary_longValue
    cases height.symm.trans counted
    cases searched
    cases found
    exact (ends spare).1 takes_long_first
  · obtain ⟨levels, page, leaf, counted, searched, found, -, ends⟩ :=
      reached_uneven.insert_with_spare_pages (by decide : (3 : Key) ∉ unevenRows.map Prod.fst)
        ordinary_longValue
    cases height.symm.trans counted
    cases searched
    cases found
    exact (ends spare).2 not_takes_long_last

/-- A new value that fits a page can be refused with almost every page left. -/
theorem insert_refused_with_spare_pages :
    Reached 100 { root := 0 } unevenStore unevenRows ∧
      (3 : Key) ∉ unevenRows.map Prod.fst ∧ longValue.length ≤ maxValueLength ∧
      answer (Tree.height { root := 0 }) unevenStore = .ok 1 ∧
      unevenStore.pagesInUse + 1 + 1 ≤ unevenStore.limit.toNat ∧
      answer (Tree.insert { root := 0 } 3 longValue) unevenStore =
        .error (.shortage (.leaf 0)) := by
  refine ⟨reached_uneven, by decide, ordinary_longValue, height_rootLeaf, by decide, ?_⟩
  exact insert_rootLeaf_of_not_takes 3 longValue rfl ordinary_longValue rfl rfl
    not_takes_long_last

end Tree

end RowStore
