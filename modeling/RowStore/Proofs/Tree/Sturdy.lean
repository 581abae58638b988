import RowStore.Proofs.Store.Sturdy
import RowStore.Proofs.Tree.Editing
import RowStore.Proofs.Tree.Still

/-!
# Trees whose references are wrong

In a file that was damaged, references between pages may lead anywhere: to pages that are not
there, in circles, to a page that has another parent, to a leaf where a branch should be.
Insertion follows them and changes them on its way, and can stop half way. Still it keeps
every node sturdy (`Tree.safe_insert`), because whatever it puts on a page is a sturdy node
changed in one of a few ways. A branch without a child stands on a new page for a moment,
until the upper half of the branch that is cut takes its place, and nothing fails in between.
Nothing is looked at in a sturdy node that is not there (`Node.Sturdy.inReach`).

Entering a new page in the levels above follows parent references that the cuts themselves
change, and counts no steps. What ends it is that every cut takes a page: it is over when
there were as many rounds as pages left and one more (`Tree.enterRounds_eq_attach`).
-/

set_option autoImplicit false

namespace RowStore

open Store

/-! ## Positions in a node -/

/-- Every position that is looked at in the leaf is there: a new cell has a place among the keys and
among the values, there is a value at the position of each key, and the upper half of a leaf that
can be cut has a first key. -/
structure Leaf.InReach (leaf : Leaf) : Prop where
  place : ∀ key, leaf.position key ≤ leaf.keys.length ∧ leaf.position key ≤ leaf.values.length
  value : ∀ index < leaf.keys.length, index < leaf.values.length
  upper : ∀ page, 2 ≤ leaf.keys.length → 0 < (leaf.divide page).2.keys.length

/-- Every position that is looked at in the branch is there: a child for each key, a first child,
and a place for a new separator with one for its child behind it. A branch that is cut has a
separator in the middle, and a child on each side of it. -/
structure Branch.InReach (branch : Branch) : Prop where
  child : ∀ key, branch.position key < branch.children.length
  first : 0 < branch.children.length
  place : ∀ separator, branch.position separator ≤ branch.separators.length ∧
    branch.position separator + 1 ≤ branch.children.length
  middle : Page.size < branch.size → branch.separators.length / 2 < branch.separators.length ∧
    branch.separators.length / 2 + 1 < branch.children.length

namespace Node

/-- Every position that is looked at in the node is there. -/
def InReach : Node → Prop
  | branch node => node.InReach
  | leaf node => node.InReach

/-- Nothing is looked at outside of a sturdy node. -/
theorem Sturdy.inReach {node : Node} (sturdy : node.Sturdy) : node.InReach := by
  obtain ⟨shaped, -⟩ := sturdy
  cases node with
  | leaf node =>
    have matched : node.values.length = node.keys.length := shaped
    refine ⟨fun key => ⟨node.position_le key, matched ▸ node.position_le key⟩,
      fun index inside => matched ▸ inside, fun page several => ?_⟩
    rw [Leaf.divide, List.length_drop]
    omega
  | branch node =>
    have matched : node.children.length = node.separators.length + 1 := shaped
    have place := node.position_le
    refine ⟨fun key => ?_, ?_, fun separator => ⟨place separator, ?_⟩, fun large => ?_⟩
    · rw [matched]
      exact Nat.lt_succ_of_le (place key)
    · rw [matched]
      exact Nat.succ_pos _
    · rw [matched]
      exact Nat.succ_le_succ (place separator)
    · have several := Branch.several_separators matched large
      rw [matched]
      omega

end Node

/-! ## Keys in order -/

/-- A key stands in order behind those it passes. -/
theorem pairwise_insertIdx {keys : List Key} {key : Key} {passed : Key → Bool}
    (ordered : keys.Pairwise (· ≤ ·)) (before : ∀ other, passed other = true → other ≤ key)
    (behind : ∀ other, passed other ≠ true → key ≤ other) :
    (keys.insertIdx (keys.takeWhile passed).length key).Pairwise (· ≤ ·) := by
  induction keys with
  | nil => exact List.pairwise_singleton ..
  | cons first keys ih =>
    obtain ⟨least, ordered⟩ := List.pairwise_cons.mp ordered
    by_cases passes : passed first = true
    · rw [List.takeWhile_cons_of_pos passes, List.length_cons, List.insertIdx_succ_cons]
      refine List.pairwise_cons.mpr ⟨fun other member => ?_, ih ordered⟩
      rcases List.eq_or_mem_of_mem_insertIdx member with rfl | member
      · exact before first passes
      · exact least other member
    · rw [List.takeWhile_cons_of_neg passes]
      have rest := List.pairwise_cons.mpr ⟨least, ordered⟩
      refine List.pairwise_cons.mpr ⟨fun other member => ?_, rest⟩
      rcases List.mem_cons.mp member with rfl | member
      · exact behind other passes
      · exact Int32.le_trans (behind first passes) (least other member)

/-! ## Changes of a sturdy node -/

namespace Node

variable {node : Node} {leaf : Leaf} {branch : Branch}

theorem Sturdy.withParent (sturdy : node.Sturdy) (parent : Option PageNumber) :
    (node.withParent parent).Sturdy := by
  cases node <;> exact ⟨sturdy.shaped, sturdy.ordered⟩

theorem Sturdy.withRootMark (sturdy : node.Sturdy) (rootMark : Bool) :
    (node.withRootMark rootMark).Sturdy := by
  cases node <;> exact ⟨sturdy.shaped, sturdy.ordered⟩

theorem Sturdy.insert_leaf (sturdy : (Node.leaf leaf).Sturdy) (key : Key) (value : Bytes) :
    (Node.leaf (leaf.insert key value)).Sturdy := by
  refine ⟨Leaf.matched_insert sturdy.shaped key value, pairwise_insertIdx sturdy.ordered ?_ ?_⟩
  · intro other passed
    exact Int32.le_of_lt (of_decide_eq_true passed)
  · intro other stays
    exact Std.not_lt.mp fun smaller => stays (decide_eq_true smaller)

theorem Sturdy.divide_leaf (sturdy : (Node.leaf leaf).Sturdy) (page : PageNumber) :
    (Node.leaf (leaf.divide page).1).Sturdy ∧ (Node.leaf (leaf.divide page).2).Sturdy := by
  have matched : leaf.values.length = leaf.keys.length := sturdy.shaped
  refine ⟨⟨?_, ?_⟩, ?_, ?_⟩
  · simp only [WellShaped, Leaf.divide, List.length_take, matched]
  · exact sturdy.ordered.sublist (List.take_sublist ..)
  · simp only [WellShaped, Leaf.divide, List.length_drop, matched]
  · exact sturdy.ordered.sublist (List.drop_sublist ..)

theorem Sturdy.insert_branch (sturdy : (Node.branch branch).Sturdy) (separator : Key)
    (child : PageNumber) : (Node.branch (branch.insert separator child)).Sturdy := by
  refine ⟨Branch.matched_insert sturdy.shaped separator child,
    pairwise_insertIdx sturdy.ordered ?_ ?_⟩
  · intro other passed
    exact of_decide_eq_true passed
  · intro other stays
    exact Int32.le_of_lt (Std.not_le.mp fun smaller => stays (decide_eq_true smaller))

theorem Sturdy.divide_branch (sturdy : (Node.branch branch).Sturdy)
    (large : Page.size < branch.size) :
    (Node.branch branch.divide.1).Sturdy ∧ (Node.branch branch.divide.2).Sturdy := by
  have several := Branch.several_separators sturdy.shaped large
  have matched := Branch.matched_divide several sturdy.shaped
  exact ⟨⟨matched.1, sturdy.ordered.sublist (List.take_sublist ..)⟩,
    matched.2, sturdy.ordered.sublist (List.drop_sublist ..)⟩

end Node

theorem View.Sturdy.split {view : View} (sturdy : view.Sturdy) {id : PageNumber}
    {node lower upper : Node} (found : view.nodes id = .ok node) (first : lower.Sturdy)
    (second : upper.Sturdy) (room : view.pagesInUse < view.limit.toNat) :
    (view.split id lower upper).Sturdy :=
  (sturdy.push second room).put first (Nat.lt_succ_of_lt (sturdy.closed id node found))

/-! ## Insertion -/

namespace Tree

variable {view : View} (sturdy : view.Sturdy)
include sturdy

theorem safe_reparent (id : PageNumber) (parent : Option PageNumber) :
    view.Safe (reparent id parent) :=
  sturdy.update fun _ node => node.withParent parent

theorem safe_reparentAll (parent : PageNumber) (ids : List PageNumber) :
    view.Safe (reparentAll parent ids) := by
  induction ids generalizing view with
  | nil => exact sturdy.pure ()
  | cons id ids ih => exact (safe_reparent sturdy id parent).bind fun _ _ after => ih after

theorem safe_divideLeaf (id : PageNumber) : view.Safe (divideLeaf id) := by
  by_cases present : ∃ leaf, view.nodes id = .ok (.leaf leaf) ∧ 2 ≤ leaf.keys.length
  · obtain ⟨leaf, found, several⟩ := present
    obtain ⟨first, second⟩ := (sturdy.nodes id _ found).divide_leaf view.fresh
    exact .divideLeaf (sturdy.closed id _ found) found several
      (fun room => sturdy.split found first second room) fun _ => ⟨sturdy, rfl⟩
  · refine sturdy.loadLeaf fun leaf found => ?_
    have few : leaf.keys.length < 2 :=
      Nat.lt_of_not_le fun several => present ⟨leaf, found, several⟩
    rw [if_pos few]
    exact sturdy.throw rfl

/-- A branch that is too large is cut, or there is no page for its upper half. -/
theorem safe_divideBranch {id : PageNumber} {branch : Branch}
    (found : view.nodes id = .ok (.branch branch)) (large : Page.size < branch.size) :
    view.Safe (divideBranch id) := by
  have several := Branch.several_separators (sturdy.nodes id _ found).shaped large
  obtain ⟨first, second⟩ := (sturdy.nodes id _ found).divide_branch large
  exact .divideBranch_of found (List.ne_nil_of_length_pos (by omega))
    (fun room _ => safe_reparentAll (sturdy.split found first second room) _ _)
    (fun _ => ⟨sturdy, rfl⟩)
    fun room same => absurd same (View.ne_fresh room (sturdy.closed id _ found))

theorem safe_growRoot (lower : PageNumber) (separator : Key) (upper : PageNumber) :
    view.Safe (growRoot lower separator upper) := by
  have new : (Node.branch {
      rootMark := true, separators := [separator], children := [lower, upper] }).Sturdy :=
    ⟨rfl, List.pairwise_singleton ..⟩
  refine (sturdy.allocate new).bind fun root _ sturdy => ?_
  refine (sturdy.update fun _ node => (node.withRootMark false).withParent _).bind
    fun _ _ sturdy => ?_
  exact (safe_reparent sturdy upper (some root)).bind fun _ _ sturdy => sturdy.pure _

/-- A branch stays where it is and as large as it is when a page gets another parent, which may
be the page of the branch itself. -/
theorem reparent_beside {id upper : PageNumber} {branch : Branch} (parent : Option PageNumber)
    (found : view.nodes id = .ok (.branch branch)) :
    Promises view (reparent upper parent)
      (fun _ after => after.Sturdy ∧
        ∃ again, after.nodes id = .ok (.branch again) ∧ again.size = branch.size)
      fun fault after => after.Sturdy ∧ fault.isDeclared = true := by
  refine .update (fun node present => ⟨?_, ?_⟩) fun _ _ aboutPage =>
    ⟨sturdy, Fault.isDeclared_of_aboutPage aboutPage⟩
  · exact sturdy.put ((sturdy.nodes upper node present).withParent parent)
      (sturdy.closed upper node present)
  · by_cases same : id = upper
    · subst same
      cases found.symm.trans present
      exact ⟨{ branch with parent }, View.nodes_put_self .., rfl⟩
    · exact ⟨branch, (View.nodes_put_of_ne _ same).trans found, rfl⟩

/-- One round of entering a page in the levels above is safe, if what follows it is. -/
theorem safe_enterAbove (tree : Tree) {further : PageNumber → Key → PageNumber → StoreM Tree}
    (later : ∀ (after : View), after.Sturdy → ∀ id median page, after.Safe (further id median page))
    (lower : PageNumber) (separator : Key) (upper : PageNumber) :
    view.Safe (tree.enterAbove further lower separator upper) := by
  refine sturdy.load fun node _ => ?_
  cases node.parent with
  | none => exact safe_growRoot sturdy lower separator upper
  | some id =>
    refine sturdy.loadBranch fun parent found => ?_
    split
    next =>
      have grown := (sturdy.nodes id _ found).insert_branch separator upper
      have inUse := sturdy.closed id _ found
      refine Promises.bind (.replace (.bind ?_))
      have put := sturdy.put grown inUse
      refine (reparent_beside put (some id) (View.nodes_put_self ..)).weaken ?_ fun _ _ stops =>
        stops
      rintro _ after ⟨sturdy, again, found, size⟩
      split
      next => exact sturdy.pure tree
      next large =>
        rw [← size] at large
        refine (safe_divideBranch sturdy found (Nat.lt_of_not_le large)).bind ?_
        rintro ⟨median, page⟩ after sturdy
        exact later after sturdy id median page
    next => exact sturdy.throw rfl

theorem safe_attachWithin (tree : Tree) (budget : Nat) (lower : PageNumber) (separator : Key)
    (upper : PageNumber) : view.Safe (tree.attachWithin budget lower separator upper) := by
  induction budget generalizing view lower separator upper with
  | zero =>
    rw [attachWithin_eq_enterAbove]
    refine safe_enterAbove sturdy tree (fun after sturdy id median page => ?_) lower separator upper
    exact Promises.bind (.get fun _ _ => sturdy.throw rfl)
  | succ budget ih =>
    rw [attachWithin_eq_enterAbove]
    exact safe_enterAbove sturdy tree (fun after sturdy => ih sturdy) lower separator upper

theorem safe_attach (tree : Tree) (lower : PageNumber) (separator : Key) (upper : PageNumber) :
    view.Safe (tree.attach lower separator upper) :=
  sturdy.still (.get fun _ => .pure _) fun budget =>
    safe_attachWithin sturdy tree budget lower separator upper

theorem safe_insertByDividing (tree : Tree) {id : PageNumber} {leaf : Leaf} (key : Key)
    (value : Bytes) (found : view.nodes id = .ok (.leaf leaf)) :
    view.Safe (tree.insertByDividing id leaf key value) := by
  refine sturdy.still (loading_still.pagesToDivide leaf) fun needed => ?_
  refine Promises.bind (.get fun _ _ => ?_)
  split
  next =>
    refine (sturdy.replace found ((sturdy.nodes id _ found).insert_leaf key value)).bind
      fun _ _ sturdy => (safe_divideLeaf sturdy id).bind ?_
    rintro ⟨separator, upper⟩ after sturdy
    exact safe_attach sturdy tree id separator upper
  next => exact sturdy.throw rfl

theorem safe_insert (tree : Tree) (key : Key) (value : Bytes) :
    view.Safe (tree.insert key value) := by
  unfold insert
  split
  next =>
    refine sturdy.still (loading_still.leafFor tree key) fun id => ?_
    refine sturdy.loadLeaf fun leaf found => ?_
    split
    next => exact sturdy.throw rfl
    next =>
      split
      next =>
        exact (sturdy.replace found ((sturdy.nodes id _ found).insert_leaf key value)).bind
          fun _ _ sturdy => sturdy.pure tree
      next =>
        split
        next => exact safe_insertByDividing sturdy tree key value found
        next => exact sturdy.throw rfl
  next => exact sturdy.throw rfl

theorem safe_growLeaf (id : PageNumber) (key : Key) (value : Bytes) :
    view.Safe (growLeaf id key value) := by
  refine sturdy.loadLeaf fun leaf found => ?_
  exact sturdy.replace found ((sturdy.nodes id _ found).insert_leaf key value)

theorem safe_growBranch (id : PageNumber) (separator : Key) (child : PageNumber) :
    view.Safe (growBranch id separator child) := by
  refine sturdy.loadBranch fun branch found => ?_
  exact (sturdy.replace found ((sturdy.nodes id _ found).insert_branch separator child)).bind
    fun _ _ sturdy => safe_reparent sturdy child (some id)

theorem safe_divideLarge (id : PageNumber) : view.Safe (divideLarge id) := by
  refine sturdy.loadBranch fun branch found => ?_
  split
  next => exact sturdy.pure ()
  next large =>
    exact (safe_divideBranch sturdy found (Nat.lt_of_not_le large)).bind
      fun _ _ sturdy => sturdy.pure ()

theorem safe_create : view.Safe create := by
  have new : (Node.leaf { rootMark := true }).Sturdy := ⟨rfl, List.Pairwise.nil⟩
  exact (sturdy.allocate new).bind fun _ _ sturdy => sturdy.pure _

end Tree

/-! ## The number of rounds -/

namespace Store

/-- How many pages may be used and how many are. -/
def counts (store : Store) : UInt32 × Nat := (store.limit, store.pagesInUse)

theorem still_counts {α : Type} {action : StoreM α} (still : Still view action) :
    Still counts action :=
  fun seen => still.preserves fun view => (view.limit, view.pagesInUse) = seen

theorem still_counts_replace (id : PageNumber) (node : Node) : Still counts (replace id node) := by
  refine fun seen => .modify fun store same => ?_
  rw [counts, pagesInUse_cache, limit_cache]
  exact same

theorem still_counts_update (id : PageNumber) (change : Node → Node) :
    Still counts (update id change) :=
  .bind (still_counts (loading_still.load id)) fun node => still_counts_replace id (change node)

end Store

namespace Tree

theorem still_counts_reparentAll (parent : PageNumber) (ids : List PageNumber) :
    Still counts (reparentAll parent ids) := by
  induction ids with
  | nil => exact .pure ()
  | cons id ids ih => exact .bind (still_counts_update id _) fun _ => ih

/-- A branch is only cut if there is a page left, and that page is used up. -/
theorem counts_of_divideBranch {id : PageNumber} {store after : Store} {cut : Key × PageNumber}
    (run : divideBranch id store = .ok cut after) :
    store.pagesInUse < store.limit.toNat ∧
      counts after = (store.limit, store.pagesInUse + 1) := by
  obtain ⟨page, middle, allocates, rest⟩ := exists_of_bind_ok run
  obtain ⟨branch, loaded, loads, rest⟩ := exists_of_bind_ok rest
  have alike := (still_counts (loading_still.loadBranch id) (counts middle) middle rfl).of_ok loads
  dsimp only at rest
  split at rest
  next => cases rest
  next =>
    have still : Still counts (do
        replace id (.branch branch.divide.1)
        replace page (.branch branch.divide.2)
        reparentAll page branch.divide.2.children
        return (branch.median, page)) :=
      .bind (still_counts_replace id _) fun _ => .bind (still_counts_replace page _) fun _ =>
      .bind (still_counts_reparentAll page _) fun _ => .pure _
    have same := (still (counts middle) loaded alike).of_ok rest
    unfold allocate at allocates
    split at allocates
    next room =>
      cases allocates
      refine ⟨room, same.trans ?_⟩
      rw [counts, pagesInUse, Array.size_push, pagesInUse]
    next => cases allocates

/-- Rounds differ only in what follows a cut, and a cut takes a page. -/
theorem enterAbove_congr (tree : Tree) {further other : PageNumber → Key → PageNumber → StoreM Tree}
    {store : Store} (agree : store.pagesInUse < store.limit.toNat → ∀ id median page after,
      counts after = (store.limit, store.pagesInUse + 1) →
      further id median page after = other id median page after)
    (lower : PageNumber) (separator : Key) (upper : PageNumber) :
    tree.enterAbove further lower separator upper store =
      tree.enterAbove other lower separator upper store := by
  have later : ∀ id between, counts between = counts store → ∀ median page after,
      divideBranch id between = .ok (median, page) after →
      further id median page after = other id median page after := by
    intro id between same median page after run
    obtain ⟨room, counted⟩ := counts_of_divideBranch run
    injection same with limit pages
    rw [limit, pages] at counted room
    exact agree room id median page after counted
  refine bind_congr_of_still (still_counts (loading_still.load lower)) rfl fun node _ same => ?_
  cases node.parent with
  | none => rfl
  | some id =>
    refine bind_congr_of_still (still_counts (loading_still.loadBranch id)) same ?_
    intro parent _ same
    dsimp only
    split
    next =>
      refine bind_congr_of_still (still_counts_replace id _) same fun _ _ same =>
        bind_congr_of_still (still_counts_update upper _) same fun _ between same => ?_
      split
      next => rfl
      next =>
        refine bind_congr_of_ok ?_
        rintro ⟨median, page⟩ after run
        exact later id between same median page after run
    next => rfl

/-- So many rounds of entering a page in the levels above, and what follows them. -/
def enterRounds (tree : Tree) (further : PageNumber → Key → PageNumber → StoreM Tree) :
    Nat → PageNumber → Key → PageNumber → StoreM Tree
  | 0 => further
  | rounds + 1 => tree.enterAbove (tree.enterRounds further rounds)

/-- **Entering a page ends without a bound on the rounds**, wherever parent references lead: it
does not get to what follows one round more than there are pages left. -/
theorem enterRounds_eq_attach (tree : Tree)
    (further : PageNumber → Key → PageNumber → StoreM Tree) {rounds : Nat} {store : Store}
    (enough : store.limit.toNat - store.pagesInUse < rounds) (lower : PageNumber)
    (separator : Key) (upper : PageNumber) :
    tree.enterRounds further rounds lower separator upper store =
      tree.attach lower separator upper store := by
  have attach_apply : ∀ (store : Store) lower separator upper,
      tree.attach lower separator upper store = tree.attachWithin
        (store.limit.toNat - store.pagesInUse) lower separator upper store := fun _ _ _ _ => rfl
  induction rounds generalizing store lower separator upper with
  | zero => cases enough
  | succ rounds ih =>
    rw [attach_apply, attachWithin_eq_enterAbove]
    refine tree.enterAbove_congr (fun room id median page after counted => ?_) lower separator upper
    injection counted with limit pages
    have left : store.limit.toNat - store.pagesInUse =
        after.limit.toNat - after.pagesInUse + 1 := by
      rw [limit, pages]
      omega
    rw [ih (by omega), attach_apply, left]
    rfl

end Tree

end RowStore
