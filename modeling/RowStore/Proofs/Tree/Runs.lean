import RowStore.Proofs.Store.Reopen
import RowStore.Proofs.Tree.Editing
import RowStore.Proofs.Tree.Insertion

/-!
# Runs of insertions

A run begins with a new tree in an empty store. It inserts, successfully or not,
saves the store at any time, and opens a new store on the saved file and finds the
tree there (`Tree.Reached`). In every state that a run reaches, the tree stands in
the store as it should, and its cells are those of the insertions that succeeded
(`Tree.Reached.holds`).

Each kind of step keeps this. That saving and opening does rests on the parent and
next references: they lead to pages in use, so none of them is the word that stands
for a reference to nothing. It rests also on the number of pages: only the size of a
file with at most `largestLimit` of them is read back as it is.
-/

set_option autoImplicit false

namespace RowStore

open Store RowStore.Tree

/-! ## Trees can be written -/

section References

variable {nodes : Nodes} {root : PageNumber} {levels : Nat} {row : List Region}
  {above : List PageNumber}

/-- The parent of a page is above. -/
theorem Crown.exists_parent_above (crown : Crown nodes root levels row above) :
    ∀ page ∈ row.map Prod.fst ++ above, ∃ parent, Hangs nodes parent page ∧
      ∀ id ∈ parent, id ∈ above := by
  induction crown with
  | root hangs =>
    intro page member
    rw [List.mem_singleton.mp member]
    exact ⟨none, hangs, fun id isNone => absurd isNone (by simp)⟩
  | @row levels upper row above crown branches parts ih =>
    intro page member
    rcases List.mem_append.mp member with here | higher
    · obtain ⟨region, inRow, rfl⟩ := List.mem_map.mp here
      obtain ⟨place, inUpper, hangs⟩ := exists_parent branches (parts ▸ inRow)
      refine ⟨some place.1, hangs, fun id is => List.mem_append_left _ ?_⟩
      cases is
      exact List.mem_map_of_mem inUpper
    · obtain ⟨parent, hangs, within⟩ := ih page higher
      exact ⟨parent, hangs, fun id is => List.mem_append_right _ (within id is)⟩

/-- The next leaf of a linked leaf is linked too. -/
theorem Linked.next_mem {start : Option PageNumber} {pages : List PageNumber}
    (linked : Linked nodes start pages) {page : PageNumber} (member : page ∈ pages) {leaf : Leaf}
    (found : nodes page = .ok (.leaf leaf)) : ∀ id ∈ leaf.next, id ∈ pages := by
  induction pages generalizing start with
  | nil => cases member
  | cons first pages ih =>
    obtain ⟨-, other, present, linked⟩ := linked
    intro id is
    rcases List.mem_cons.mp member with rfl | later
    · cases found.symm.trans present
      rw [is] at linked
      cases pages with
      | nil => cases linked
      | cons second pages =>
        obtain ⟨same, -⟩ := linked
        cases same
        exact List.mem_cons_of_mem _ List.mem_cons_self
    · exact List.mem_cons_of_mem _ (ih linked later id is)

theorem ne_noReference {view : View} (regular : view.Regular) {id : PageNumber}
    (inUse : id.toNat < view.pagesInUse) : id ≠ noReference := by
  rintro rfl
  have numbered := regular.numbered
  have largest : noReference.toNat + 1 = UInt32.size := rfl
  omega

end References

/-- Every node of a tree can be written to its page and read back. -/
theorem Layout.writable {view : View} {root : PageNumber} {levels : Nat} {row : List Region}
    {above : List PageNumber} (layout : Layout view root levels row above)
    (regular : view.Regular) : view.Writable := by
  have used : ∀ reference : Option PageNumber,
      (∀ id ∈ reference, id ∈ row.map Prod.fst ++ above) → reference ≠ some noReference := by
    rintro reference within rfl
    exact ne_noReference regular ((layout.complete _).mp (within _ rfl)) rfl
  intro id inUse
  have listed := (layout.complete id).mpr inUse
  obtain ⟨parent, ⟨node, found, rfl, -⟩, within⟩ := layout.crown.exists_parent_above id listed
  obtain ⟨shaped, small⟩ := layout.sound regular.closed id node found
  have ordinary := used node.parent fun id is => List.mem_append_right _ (within id is)
  refine ⟨node, found, shaped, ?_, small⟩
  cases node with
  | branch branch => exact ordinary
  | leaf leaf =>
    refine ⟨ordinary, used leaf.next fun next is => List.mem_append_left _ ?_⟩
    refine layout.linked.next_mem ?_ found next is
    rcases List.mem_append.mp listed with inRow | higher
    · exact inRow
    · obtain ⟨fewest, range, branch, present, -⟩ := layout.crown.branches id higher
      cases found.symm.trans present

/-! ## The steps of a run -/

namespace Tree

section Steps

variable {tree : Tree} {store : Store} {cells : List (Key × Bytes)}

/-- A new tree in a store without a page has no cell. -/
theorem holds_create {view : View} (regular : view.Regular) (none : view.pagesInUse = 0) :
    Promises view create (fun tree after => tree.Holds after [] ∧ view.Grew after)
      (fun fault after => view.limit = 0 ∧ after = view ∧
        fault = .shortage (.pages view.limit)) := by
  refine .bind (.allocate (fun room => .pure ⟨?_, rfl, rfl, rfl, Nat.le_succ _⟩) fun full =>
    ⟨?_, rfl, rfl⟩)
  · have first : view.fresh = 0 := congrArg UInt32.ofNat none
    have found : (view.push (.leaf { rootMark := true })).nodes 0 =
        .ok (.leaf { rootMark := true }) := first ▸ View.nodes_push_fresh ..
    rw [first]
    refine ⟨regular.push _ room, 0, [(0, {})], [], ⟨.root ⟨_, found, rfl, rfl⟩, ?_, .inl rfl,
      ⟨rfl, _, found, rfl⟩, List.nodup_singleton _, fun page => ?_⟩, ?_⟩
    · intro region member
      rw [List.mem_singleton.mp member]
      exact ⟨_, found, rfl, .nil _, by decide⟩
    · rw [List.map_singleton, List.append_nil, List.mem_singleton, View.pagesInUse_push, none,
        Nat.lt_one_iff]
      exact UInt32.toNat_inj.symm
    · rw [cellsOf, List.flatMap_singleton, cellsAt_leaf found]
      exact .refl _
  · rw [none] at full
    exact UInt32.toNat_inj.mp (Nat.le_zero.mp full)

/-- What a tree holds depends only on the nodes. -/
theorem Holds.of_same {other : Store} (holds : tree.Holds store.view cells)
    (same : store.SameNodes other) (regular : other.view.Regular) :
    tree.Holds other.view cells := by
  obtain ⟨-, levels, row, above, layout, listed⟩ := holds
  have nodes : other.view.nodes = store.view.nodes := same.nodes
  have pages : other.view.pagesInUse = store.view.pagesInUse := same.pages
  refine ⟨regular, levels, row, above, ⟨?_, ?_, ?_, ?_, layout.distinct, ?_⟩, ?_⟩
  · rw [nodes]
    exact layout.crown
  · rw [nodes]
    exact layout.leaves
  · rw [nodes]
    exact layout.filled
  · rw [nodes]
    exact layout.linked
  · rw [pages]
    exact layout.complete
  · rw [nodes]
    exact listed

section View

variable {view : View} (holds : tree.Holds view cells)
include holds

theorem Holds.writable : view.Writable := by
  obtain ⟨regular, levels, row, above, layout, -⟩ := holds
  exact layout.writable regular

theorem Holds.sound : view.Sound := by
  obtain ⟨regular, levels, row, above, layout, -⟩ := holds
  exact layout.sound regular.closed

/-- A leaf that can be loaded has its cells in the tree. -/
theorem Holds.mem_of_leaf {id : PageNumber} {leaf : Leaf}
    (found : view.nodes id = .ok (.leaf leaf)) :
    leaf.values.length = leaf.keys.length ∧ ∀ cell ∈ leaf.cells, cell ∈ cells := by
  obtain ⟨regular, levels, row, above, layout, listed⟩ := holds
  refine ⟨(layout.sound regular.closed id _ found).1, fun cell member => ?_⟩
  rcases List.mem_append.mp ((layout.complete id).mpr (regular.closed id _ found)) with
    inRow | higher
  · obtain ⟨region, place, rfl⟩ := List.mem_map.mp inRow
    refine listed.subset (List.mem_flatMap.mpr ⟨region, place, ?_⟩)
    rw [cellsAt_leaf found]
    exact member
  · obtain ⟨fewest, range, branch, present, -⟩ := layout.crown.branches id higher
    cases found.symm.trans present

/-- The first page is in use. -/
theorem Holds.pos : 0 < view.pagesInUse := by
  obtain ⟨-, levels, row, above, layout, -⟩ := holds
  exact Nat.zero_lt_of_lt layout.levels_lt

/-- The way up from a page in use ends at the root. -/
theorem Holds.rootAbove {page : PageNumber} (inUse : page.toNat < view.pagesInUse) :
    Promises view (Tree.rootAbove page) (fun top after => top = tree.root ∧ after = view)
      (fun _ _ => False) := by
  obtain ⟨-, levels, row, above, layout, -⟩ := holds
  exact layout.rootAbove inUse

/-- The tree is found again from the first page. -/
theorem Holds.rootAbove_first : Promises view (Tree.rootAbove 0)
    (fun top after => top = tree.root ∧ after = view) (fun _ _ => False) :=
  holds.rootAbove holds.pos

/-- The root is marked as root. -/
theorem Holds.marked : ∃ node, view.nodes tree.root = .ok node ∧ node.rootMark = true := by
  obtain ⟨-, levels, row, above, layout, -⟩ := holds
  obtain ⟨node, found, -, marked⟩ := layout.crown.hangs_root
  exact ⟨node, found, marked⟩

/-- Asking whether a tree is empty tells whether it has no cell. -/
theorem Holds.isEmpty :
    Promises view tree.isEmpty (fun empty after => after = view ∧ (empty = true ↔ cells = []))
      (fun _ _ => False) := by
  obtain ⟨-, levels, row, above, layout, same⟩ := holds
  have none : cells = [] ↔ cellsOf view.nodes row = [] :=
    ⟨fun isNil => (isNil ▸ same).eq_nil, fun isNil => (isNil ▸ same).symm.eq_nil⟩
  obtain ⟨node, found, -, -⟩ := layout.crown.hangs_root
  refine .bind (.load_of found ?_)
  cases node with
  | leaf leaf =>
    refine .pure ⟨rfl, ?_⟩
    have atTop : levels = 0 := by
      by_contra several
      obtain ⟨fewest, range, branch, present, -⟩ :=
        layout.crown.branches _ (layout.crown.root_mem.2 several)
      cases found.symm.trans present
    subst atTop
    obtain ⟨⟩ := layout.crown
    have fits := layout.fits_of_mem List.mem_cons_self found
    rw [none, cellsOf, List.flatMap_singleton, cellsAt_leaf found, ← fits.map_fst_cells]
    simp
  | branch branch =>
    refine .pure ⟨rfl, iff_of_false Bool.false_ne_true ?_⟩
    rw [none]
    intro isNil
    rcases layout.filled with rfl | filled
    · obtain ⟨⟩ := layout.crown
      obtain ⟨other, present, -⟩ := layout.leaves _ List.mem_cons_self
      cases found.symm.trans present
    · obtain ⟨region, inRow⟩ := List.exists_mem_of_ne_nil row layout.crown.row_ne_nil
      exact filled region inRow (List.flatMap_eq_nil_iff.mp isNil region inRow)

/-- Reading a tree is reading its cells in the order of their keys. -/
theorem Holds.collect : ∃ ordered : List (Key × Bytes), ordered.Perm cells ∧
    ordered.Pairwise (fun first second => first.1 < second.1) ∧
    ∀ (α : Type) (read : Key → Bytes → Except Fault α),
      Promises view (tree.collect read)
        (fun values after => after = view ∧
          (ordered.mapM fun cell => read cell.1 cell.2) = .ok values)
        (fun fault after => after = view ∧
          (ordered.mapM fun cell => read cell.1 cell.2) = .error fault) := by
  obtain ⟨-, levels, row, above, layout, same⟩ := holds
  exact ⟨_, same, layout.ascending, fun α read => layout.collect⟩

end View

/-- A store that has the nodes of a saved file, and nothing else in memory. -/
structure Reopened (saved opened : Store) (header : Page) (limit : UInt32) : Prop where
  nodes : saved.SameNodes opened
  limit : opened.limit = limit
  disk : opened.disk = saved.disk
  header : opened.header = .ok header
  fileSize : opened.fileSize ≠ 0

/-- A store whose nodes can be written is saved, and they are found again in a store that is
opened on the saved file, if that is not too large. -/
theorem exists_flush (regular : store.view.Regular) (writable : store.view.Writable)
    (header : Page) :
    ∃ saved, Store.flush header store = .ok () saved ∧ saved.view.Regular ∧
      store.SameNodes saved ∧ saved.limit = store.limit ∧
      (saved.contents.length < UInt32.size → ∀ limit, ∃ opened,
        ofContents saved.contents limit = .ok opened ∧ opened.view.Regular ∧
        Reopened saved opened header limit) := by
  obtain ⟨disk, run, saved⟩ := flush_of_writable writable regular header
  obtain ⟨same, regular'⟩ := saved.flushed regular
    (max store.fileSize (sizeOfPages (store.pagesInUse + 1)))
  refine ⟨_, run, regular', same, rfl, fun small limit => ?_⟩
  have small : disk.size ≤ largestLimit + 1 := length_contents_lt_iff.mp small
  rw [saved.size] at small
  have small := Nat.le_of_succ_le_succ small
  obtain ⟨opens, sameThere, regular', nonempty⟩ := saved.reopen regular small limit
  refine ⟨_, opens, regular', ⟨?_, ?_⟩, rfl, rfl, ?_, nonempty⟩
  · exact sameThere.nodes.trans same.nodes.symm
  · exact sameThere.pages.trans same.pages.symm
  · rw [Store.header, ofPages, saved.header]

/-- **A tree can be saved, and is found again in a store that is opened on the saved file**, if that
is not too large. -/
theorem Holds.flush (holds : tree.Holds store.view cells) (header : Page) :
    ∃ saved, Store.flush header store = .ok () saved ∧ tree.Holds saved.view cells ∧
      store.SameNodes saved ∧ saved.limit = store.limit ∧
      (saved.contents.length < UInt32.size → ∀ limit, ∃ opened,
        ofContents saved.contents limit = .ok opened ∧
        tree.Holds opened.view cells ∧ Reopened saved opened header limit) := by
  obtain ⟨saved, run, regular, same, isLimit, reopen⟩ :=
    exists_flush holds.regular holds.writable header
  have holds' := holds.of_same same regular
  refine ⟨saved, run, holds', same, isLimit, fun small limit => ?_⟩
  obtain ⟨opened, opens, regular', reopened⟩ := reopen small limit
  exact ⟨opened, opens, holds'.of_same reopened.nodes regular', reopened⟩

end Steps

/-! ## Runs -/

/-- A tree in a store, with the cells of the insertions that succeeded, in a state that a run
reaches from a new tree in an empty store. No limit of the run is more than `most`, and it opens
files only if that is small enough for the size of every file to fit a word. -/
inductive Reached (most : Nat) : Tree → Store → List (Key × Bytes) → Prop where
  | create {limit : UInt32} {empty store : Store} {tree : Tree} :
      limit.toNat ≤ most → Store.ofContents [] limit = .ok empty →
      Tree.create empty = .ok tree store → Reached most tree store []
  | inserted {tree tree' : Tree} {store after : Store} {cells : List (Key × Bytes)} {key : Key}
      {value : Bytes} :
      Reached most tree store cells → tree.insert key value store = .ok tree' after →
      Reached most tree' after ((key, value) :: cells)
  | refused {tree : Tree} {store after : Store} {cells : List (Key × Bytes)} {key : Key}
      {value : Bytes} {fault : Fault} :
      Reached most tree store cells → tree.insert key value store = .error fault after →
      Reached most tree after cells
  | saved {tree : Tree} {store after : Store} {cells : List (Key × Bytes)} {header : Page} :
      Reached most tree store cells → flush header store = .ok () after →
      Reached most tree after cells
  | reopened {tree : Tree} {store after opened walked : Store} {cells : List (Key × Bytes)}
      {header : Page} {limit : UInt32} {root : PageNumber} :
      Reached most tree store cells → flush header store = .ok () after →
      most ≤ largestLimit → limit.toNat ≤ most →
      Store.ofContents after.contents limit = .ok opened →
      Tree.rootAbove 0 opened = .ok root walked → Reached most { root } walked cells

section Reached

variable {most : Nat} {tree : Tree} {store : Store} {cells : List (Key × Bytes)}

/-- A run takes no more pages into use than its limits allow. -/
theorem Reached.bounded_holds (reached : Reached most tree store cells) :
    store.Bounded most ∧ tree.Holds store.view cells := by
  have editing := editing_bounded most
  induction reached with
  | @create limit empty store tree within opens creates =>
    rw [ofContents_nil] at opens
    cases opens
    have bounded : Bounded most { limit } := ⟨Nat.zero_le _, within⟩
    exact ⟨(editing.create _ bounded).of_ok creates,
      ((holds_create (regular_empty _) rfl).of_ok creates).1⟩
  | inserted reached inserts ih =>
    obtain ⟨bounded, holds⟩ := ih
    exact ⟨(editing.insert _ _ _ (.throw trivial) _ bounded).of_ok inserts,
      ((holds.insert _ _).of_ok inserts).2.2.2⟩
  | refused reached refuses ih =>
    obtain ⟨bounded, holds⟩ := ih
    refine ⟨((editing.insert _ _ _ (.throw trivial) _ bounded).of_error refuses).1, ?_⟩
    rw [((holds.insert _ _).of_error refuses).1]
    exact holds
  | @saved tree store after cells header reached saves ih =>
    obtain ⟨bounded, holds⟩ := ih
    obtain ⟨saved, run, holds, same, limit, -⟩ := holds.flush header
    cases saves.symm.trans run
    exact ⟨⟨same.pages.symm ▸ bounded.pages, limit.symm ▸ bounded.limit⟩, holds⟩
  | @reopened tree store after opened walked cells header limit root reached saves small within
      opens climbs ih =>
    obtain ⟨bounded, holds⟩ := ih
    obtain ⟨saved, run, standing, same, -, reopen⟩ := holds.flush header
    cases saves.symm.trans run
    have small : after.pagesInUse ≤ largestLimit :=
      same.pages ▸ Nat.le_trans bounded.pages small
    obtain ⟨opened', run', holds, reopened⟩ :=
      reopen (length_contents_lt standing.regular small) limit
    cases opens.symm.trans run'
    obtain ⟨rfl, sameView⟩ := holds.rootAbove_first.of_ok climbs
    have pages : walked.pagesInUse = store.pagesInUse :=
      (congrArg View.pagesInUse sameView).trans (reopened.nodes.pages.trans same.pages)
    have isLimit : walked.limit = limit := (congrArg View.limit sameView).trans reopened.limit
    exact ⟨⟨pages.symm ▸ bounded.pages, isLimit.symm ▸ within⟩, sameView ▸ holds⟩

theorem Reached.bounded (reached : Reached most tree store cells) : store.Bounded most :=
  reached.bounded_holds.1

/-- **In every state that a run reaches, the tree stands in the store as it should.** -/
theorem Reached.holds (reached : Reached most tree store cells) : tree.Holds store.view cells :=
  reached.bounded_holds.2

end Reached

/-! ## A run that cuts the root -/

section RootLeaf

variable {limit : UInt32} {keys : List Key} {values : List Bytes} {leaf : Leaf} (key : Key)
  (value : Bytes)

/-- A store with one page in use, a leaf that is the root. -/
def rootLeaf (limit : UInt32) (keys : List Key) (values : List Bytes) : Store where
  slots := #[some (.leaf { rootMark := true, keys, values })]
  limit

/-- A new tree is an empty leaf. -/
theorem reached_rootLeaf (positive : 0 < limit.toNat) :
    Reached limit.toNat { root := 0 } (rootLeaf limit [] []) [] := by
  refine .create (Nat.le_refl _) (ofContents_nil limit) ?_
  have room : Store.pagesInUse { limit } < limit.toNat := positive
  show EStateM.bind (allocate (.leaf { rootMark := true })) _ { limit } = _
  rw [EStateM.bind, allocate, if_pos room]
  rfl

variable (isLeaf : leaf = { rootMark := true, keys, values })
  (ordinary : value.length ≤ maxValueLength) (new : leaf.hasKey key = false)
include isLeaf ordinary new

/-- A new value goes into a root that has room. -/
theorem insert_rootLeaf_of_room (room : leaf.hasRoomFor value.length = true) :
    Tree.insert { root := 0 } key value (rootLeaf limit keys values) =
      .ok { root := 0 }
        (rootLeaf limit (leaf.insert key value).keys (leaf.insert key value).values) := by
  subst isLeaf
  unfold Tree.insert
  rw [if_pos ordinary]
  show (if Leaf.hasKey _ key = true then _ else if Leaf.hasRoomFor _ value.length = true then _
    else _ : StoreM Tree) (rootLeaf limit keys values) = _
  rw [if_neg (Bool.eq_false_iff.mp new), if_pos room]
  rfl

/-- A root that has no room for a new value, but whose halves have, is cut. -/
theorem insert_rootLeaf_of_divides (full : leaf.hasRoomFor value.length = false)
    (divides : leaf.canDivideAt (leaf.position key) value.length = true) :
    Tree.insert { root := 0 } key value (rootLeaf limit keys values) =
      insertByDividing { root := 0 } 0 leaf key value (rootLeaf limit keys values) := by
  subst isLeaf
  unfold Tree.insert
  rw [if_pos ordinary]
  show (if Leaf.hasKey _ key = true then _ else if Leaf.hasRoomFor _ _ = true then _
    else if Leaf.canDivideAt _ _ _ = true then _ else _ : StoreM Tree)
      (rootLeaf limit keys values) = _
  rw [if_neg (Bool.eq_false_iff.mp new), if_neg (Bool.eq_false_iff.mp full), if_pos divides]

end RootLeaf

/-- A value of which two fit a page, beside their keys, and three do not. -/
@[irreducible] def halfValue : Bytes := List.replicate 2000 0

/-- The store after three insertions of such a value, the last of which has cut the root. -/
def cutStore : Store where
  slots := #[
    some (.leaf { parent := some 2, next := some 1, keys := [1], values := [halfValue] }),
    some (.leaf { parent := some 2, keys := [2, 3], values := [halfValue, halfValue] }),
    some (.branch { rootMark := true, separators := [2], children := [0, 1] })]
  limit := 100

/-- What was inserted there, the latest first. -/
def cutRows : List (Key × Bytes) := [(3, halfValue), (2, halfValue), (1, halfValue)]

theorem length_halfValue : halfValue.length = 2000 := by
  rw [halfValue, List.length_replicate]

theorem ordinary_halfValue : halfValue.length ≤ maxValueLength := by
  rw [length_halfValue]
  decide

theorem reached_pair {limit : UInt32} (positive : 0 < limit.toNat) :
    Reached limit.toNat { root := 0 } (rootLeaf limit [1, 2] [halfValue, halfValue])
      [(2, halfValue), (1, halfValue)] := by
  have first : Reached limit.toNat { root := 0 } (rootLeaf limit [1] [halfValue])
      [(1, halfValue)] := by
    refine (reached_rootLeaf positive).inserted
      (insert_rootLeaf_of_room 1 halfValue rfl ordinary_halfValue rfl ?_)
    simp only [Leaf.hasRoomFor, length_halfValue]
    decide
  refine first.inserted (insert_rootLeaf_of_room 2 halfValue rfl ordinary_halfValue rfl ?_)
  simp only [Leaf.hasRoomFor, Leaf.size, List.map, length_halfValue]
  decide

/-- The pair has no room for a third value. -/
theorem full_pair {leaf : Leaf}
    (isPair : leaf = { rootMark := true, keys := [1, 2], values := [halfValue, halfValue] }) :
    leaf.hasRoomFor halfValue.length = false ∧
      leaf.canDivideAt (leaf.position 3) halfValue.length = true := by
  subst isPair
  constructor
  · simp only [Leaf.hasRoomFor, Leaf.size, List.map, length_halfValue]
    decide
  · simp only [Leaf.canDivideAt, List.map, length_halfValue]
    decide

theorem insert_pair : Tree.insert { root := 0 } 3 halfValue
    (rootLeaf 100 [1, 2] [halfValue, halfValue]) = .ok { root := 2 } cutStore := by
  rw [insert_rootLeaf_of_divides 3 halfValue rfl ordinary_halfValue rfl (full_pair rfl).1
    (full_pair rfl).2]
  show attachWithin { root := 0 } 98 0 2 1 {
      slots := #[
        some (.leaf { rootMark := true, next := some 1, keys := [1], values := [halfValue] }),
        some (.leaf { keys := [2, 3], values := [halfValue, halfValue] })]
      limit := 100 } = _
  rw [attachWithin_eq]
  rfl

theorem reached_cut : Reached 100 { root := 2 } cutStore cutRows :=
  (reached_pair (by decide : 0 < (100 : UInt32).toNat)).inserted insert_pair

theorem exists_reopened_cut : ∃ saved opened walked,
    flush Page.blank cutStore = .ok () saved ∧ Store.ofContents saved.contents 1 = .ok opened ∧
    Tree.rootAbove 0 opened = .ok 2 walked := by
  obtain ⟨saved, saves, standing, same, -, reopen⟩ := reached_cut.holds.flush Page.blank
  have small : saved.pagesInUse ≤ largestLimit := same.pages ▸ (by decide : 3 ≤ largestLimit)
  obtain ⟨opened, opens, holds, -⟩ := reopen (length_contents_lt standing.regular small) 1
  obtain ⟨root, walked, climbs, rfl, -⟩ := holds.rootAbove_first.exists_ok
  exact ⟨saved, opened, walked, saves, opens, climbs⟩

end Tree

end RowStore
