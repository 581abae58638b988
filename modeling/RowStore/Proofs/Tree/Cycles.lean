import RowStore.Proofs.Tree.Visits
import RowStore.Proofs.Tree.Walks

/-!
# Walks that come back to a page

References may lead in a circle, and then a walk along them has no end. A walk therefore
counts the pages it visits or the references it follows, and gives up when there were more
than there are pages. Up, down and along the leaves this is counted in different ways: before
or after a page is looked at, and at the branches only or at every page.

All of them give up exactly if the walk comes back to a page (`Tree.guardsWalks`). A walk that
does so is given up in any case, since it has no end. A walk that does not has fewer steps than
there are pages, so it is never given up, even if it visits every page. Each of the five loops
follows its walk or gives up after a step that the walk still makes (`Follows`), and that is
all there is to say about the counting.
-/

set_option autoImplicit false

namespace RowStore

open Store RowStore.Tree

/-! ## Walks that computations follow -/

/-- The computation follows the walk from a page to its end and answers with what is found of the
pages on it, or gives up after a number of steps that the walk still makes. -/
def Follows {α : Type} (view : View) (action : StoreM α) (next : PageNumber → Option PageNumber)
    (page : PageNumber) (budget : Nat) (found : List PageNumber → α → Prop) : Prop :=
  Promises view action
    (fun value after => after = view ∧ ∃ pages, Visits next page pages ∧ found pages value)
    (fun fault after => after = view ∧ visit next budget page ≠ none ∧
      ∃ id defect, fault = .corrupt id defect)

/-- A walk is given up as corrupt exactly if it comes back to a page. Otherwise it has an end, each
of its pages is visited once, and they give the result. -/
structure Completes {α : Type} (next : PageNumber → Option PageNumber) (start : PageNumber)
    (found : List PageNumber → α → Prop) (result : Except Fault α) : Prop where
  stops_iff : (∃ page defect, result = .error (.corrupt page defect)) ↔ Revisits next start
  finds : ¬Revisits next start → ∃ pages value, Visits next start pages ∧ pages.Nodup ∧
    result = .ok value ∧ found pages value

section Follows

variable {α β : Type} {view : View} {page other : PageNumber} {budget : Nat}
  {next : PageNumber → Option PageNumber} {action : StoreM α}
  {found : List PageNumber → α → Prop}

theorem follows_ended {value : α} (ends : next page = none) (holds : found [page] value) :
    Follows view (pure value) next page budget found :=
  .pure ⟨rfl, [page], visits_singleton ends, holds⟩

theorem follows_stopped {id : PageNumber} {defect : PageDefect} :
    Follows view (throw (.corrupt id defect) : StoreM α) next page 0 found :=
  .throw ⟨rfl, Option.some_ne_none page, id, defect, rfl⟩

/-- A walk is followed from a page if it is followed from the page where it goes on. -/
theorem Follows.onwards {found' : List PageNumber → α → Prop} (goes : next page = some other)
    (rest : Follows view action next other budget found')
    (holds : ∀ pages value, found' pages value → found (page :: pages) value) :
    Follows view action next page (budget + 1) found := by
  refine Promises.weaken rest ?_ ?_
  · rintro value after ⟨same, pages, visits, here⟩
    exact ⟨same, page :: pages, visits.cons goes, holds pages value here⟩
  · rintro fault after ⟨same, far, stop⟩
    rw [visit_succ goes]
    exact ⟨same, far, stop⟩

theorem Follows.map {found' : List PageNumber → β → Prop} {change : α → β}
    (follows : Follows view action next page budget found)
    (holds : ∀ pages value, found pages value → found' pages (change value)) :
    Follows view (action >>= fun value => pure (change value)) next page budget found' := by
  refine .bind (Promises.weaken follows ?_ fun _ _ stops => stops)
  rintro value after ⟨rfl, pages, visits, here⟩
  exact .pure ⟨rfl, pages, visits, holds pages value here⟩

/-- **A walk with as many steps as there are pages is given up exactly if it comes back to a
page.** -/
theorem Follows.completes {store : Store} (inside : Inside store.pagesInUse next)
    (inUse : page.toNat < store.pagesInUse)
    (follows : Follows store.view action next page store.pagesInUse found) :
    Completes next page found (answer action store) := by
  unfold answer
  cases run : action store with
  | ok value after =>
    obtain ⟨-, pages, visits, here⟩ := follows.of_ok run
    have ends := visits.not_revisits
    exact ⟨iff_of_false nofun ends, fun _ => ⟨pages, value, visits, visits.nodup, rfl, here⟩⟩
  | error fault after =>
    obtain ⟨-, far, id, defect, rfl⟩ := follows.of_error run
    have revisits := revisits_of_visit inside inUse far
    exact ⟨iff_of_true ⟨id, defect, rfl⟩ revisits, fun ends => absurd revisits ends⟩

end Follows

/-- From each page in use, the way down ends at a leaf or goes on to a page in use. -/
def Descends (view : View) (choose : Branch → Option PageNumber)
    (next : PageNumber → Option PageNumber) : Prop :=
  ∀ page, page.toNat < view.pagesInUse →
    (∃ leaf, view.nodes page = .ok (.leaf leaf) ∧ next page = none) ∨
    ∃ branch child, view.nodes page = .ok (.branch branch) ∧ choose branch = some child ∧
      next page = some child ∧ child.toNat < view.pagesInUse

/-- From each page in use, the way along the leaves ends or goes on to a leaf. -/
def Chained (view : View) : Prop :=
  ∀ page leaf other, page.toNat < view.pagesInUse → view.nodes page = .ok (.leaf leaf) →
    leaf.next = some other → ∃ leaf', view.nodes other = .ok (.leaf leaf')

section Following

variable {view : View} {page : PageNumber} {choose : Branch → Option PageNumber}
  {next : PageNumber → Option PageNumber}

namespace Descends

variable (descends : Descends view choose next)
include descends

theorem inside : Inside view.pagesInUse next := by
  intro page other inUse onwards
  rcases descends page inUse with ⟨leaf, -, ends⟩ | ⟨branch, child, -, -, goes, inUse'⟩
  · cases ends.symm.trans onwards
  · cases goes.symm.trans onwards
    exact inUse'

/-- The way down ends at a leaf. -/
theorem exists_leaf {last : PageNumber} (inUse : page.toNat < view.pagesInUse)
    (ends : EndsAt next page last) :
    last.toNat < view.pagesInUse ∧ ∃ leaf, view.nodes last = .ok (.leaf leaf) := by
  obtain ⟨atEnd, steps, visited, -⟩ := ends.exists_visit
  have inUse' := descends.inside.visit inUse visited
  rcases descends last inUse' with ⟨leaf, found, -⟩ | ⟨branch, child, -, -, goes, -⟩
  · exact ⟨inUse', leaf, found⟩
  · cases goes.symm.trans atEnd

theorem descendWithin (inUse : page.toNat < view.pagesInUse) (budget : Nat) :
    Follows view (Tree.descendWithin choose budget page) next page budget
      fun pages last => pages.getLast? = some last := by
  induction budget generalizing page with
  | zero => exact follows_stopped
  | succ budget ih =>
    rcases descends page inUse with
      ⟨leaf, found, ends⟩ | ⟨branch, child, found, chosen, goes, below⟩
    · exact .descendWithin_leaf found ⟨rfl, [page], visits_singleton ends, rfl⟩
    · refine .descendWithin_branch found chosen
        ((ih below).onwards goes fun pages last ending => ?_)
      rw [List.getLast?_cons, ending, Option.getD_some]

end Descends

/-- The height is the number of pages on the way down to the left. -/
theorem Descends.heightWithin (descends : Descends view (·.children.head?) next)
    (inUse : page.toNat < view.pagesInUse) (budget : Nat) :
    Follows view (Tree.heightWithin budget page) next page budget
      fun pages height => height = pages.length := by
  induction budget generalizing page with
  | zero =>
    rw [Tree.heightWithin]
    rcases descends page inUse with ⟨leaf, found, ends⟩ | ⟨branch, child, found, -⟩
    · exact .bind (.load_of found (follows_ended ends rfl))
    · exact .bind (.load_of found follows_stopped)
  | succ budget ih =>
    rw [Tree.heightWithin]
    rcases descends page inUse with
      ⟨leaf, found, ends⟩ | ⟨branch, child, found, chosen, goes, below⟩
    · exact .bind (.load_of found (follows_ended ends rfl))
    · refine .bind (.load_of found ?_)
      simp only [chosen]
      have rest : Follows view (Tree.heightWithin budget child >>= fun height => pure (height + 1))
          next child budget fun pages height => height = pages.length + 1 :=
        (ih below).map fun _ _ measured => congrArg (· + 1) measured
      exact rest.onwards goes fun _ _ measured => measured

namespace View.Enclosed

variable (enclosed : view.Enclosed)
include enclosed

/-- A way down on which every branch has the child that is described. -/
theorem descends {described : Branch → Option PageNumber}
    (chosen : ∀ page branch, page.toNat < view.pagesInUse →
      view.nodes page = .ok (.branch branch) →
      choose branch = described branch ∧ ∃ child ∈ branch.children, described branch = some child) :
    Descends view choose (childAt view.nodes described) := by
  intro page inUse
  obtain ⟨node, found, -⟩ := enclosed page inUse
  cases node with
  | leaf leaf => exact .inl ⟨leaf, found, childAt_leaf found⟩
  | branch branch =>
    obtain ⟨same, child, isChild, goes⟩ := chosen page branch inUse found
    exact .inr ⟨branch, child, found, same.trans goes, (childAt_branch found).trans goes,
      enclosed.of_child inUse found isChild⟩

/-- On the way down to the left, a branch has a first child. -/
theorem descends_left (matched : ∀ page branch, page.toNat < view.pagesInUse →
      view.nodes page = .ok (.branch branch) →
      branch.children.length = branch.separators.length + 1) :
    Descends view (·.children.head?) (leftAt view.nodes) := by
  refine enclosed.descends fun page branch inUse found => ⟨rfl, ?_⟩
  obtain ⟨child, others, listed⟩ :=
    List.exists_cons_of_length_eq_add_one (matched page branch inUse found)
  rw [listed]
  exact ⟨child, List.mem_cons_self, rfl⟩

theorem inside_parentAt : Inside view.pagesInUse (parentAt view.nodes) := by
  intro page other inUse onwards
  obtain ⟨node, found, -⟩ := enclosed page inUse
  rw [parentAt_of found] at onwards
  exact enclosed.of_parent inUse found onwards

theorem inside_nextAt : Inside view.pagesInUse (nextAt view.nodes) := by
  intro page other inUse onwards
  obtain ⟨node, found, -⟩ := enclosed page inUse
  cases node with
  | leaf leaf =>
    rw [nextAt_leaf found] at onwards
    exact enclosed.of_next inUse found onwards
  | branch branch => cases (nextAt_branch found).symm.trans onwards

theorem rootWithin (inUse : page.toNat < view.pagesInUse) (budget : Nat) :
    Follows view (Tree.rootWithin budget page) (parentAt view.nodes) page budget
      fun pages top => pages.getLast? = some top := by
  induction budget generalizing page with
  | zero =>
    obtain ⟨node, found, -⟩ := enclosed page inUse
    rw [Tree.rootWithin]
    refine .bind (.load_of found ?_)
    cases hung : node.parent with
    | none => exact follows_ended ((parentAt_of found).trans hung) rfl
    | some other => exact follows_stopped
  | succ budget ih =>
    obtain ⟨node, found, -⟩ := enclosed page inUse
    rw [Tree.rootWithin]
    refine .bind (.load_of found ?_)
    cases hung : node.parent with
    | none => exact follows_ended ((parentAt_of found).trans hung) rfl
    | some other =>
      have rest := ih (enclosed.of_parent inUse found hung)
      refine rest.onwards ((parentAt_of found).trans hung) fun pages top ending => ?_
      rw [List.getLast?_cons, ending, Option.getD_some]

/-- A reader that takes every cell is shown the cells of each leaf on the way. -/
theorem collectWithin (chained : Chained view) {α : Type} (read : Key → Bytes → α)
    (inUse : page.toNat < view.pagesInUse) {leaf : Leaf}
    (found : view.nodes page = .ok (.leaf leaf)) (budget : Nat) :
    Follows view (Tree.collectWithin (fun key value => .ok (read key value)) budget (some page))
      (nextAt view.nodes) page budget fun chain values =>
        values = (chain.flatMap (cellsAt view.nodes)).map fun cell => read cell.1 cell.2 := by
  induction budget generalizing page leaf with
  | zero => exact follows_stopped
  | succ budget ih =>
    have here : leaf.cells.mapM (fun cell => (.ok (read cell.1 cell.2) : Except Fault α)) =
        .ok (leaf.cells.map fun cell => read cell.1 cell.2) := List.mapM_pure
    rw [Tree.collectWithin]
    refine .bind (.loadLeaf_of found (.bind (.lift (fun values is => ?_) fun fault is => ?_)))
    case refine_2 => cases here.symm.trans is
    cases here.symm.trans is
    cases follows : leaf.next with
    | none =>
      have ended : Tree.collectWithin (fun key value => .ok (read key value)) budget none =
          (pure [] : StoreM (List α)) := by
        cases budget <;> rfl
      rw [ended]
      refine .bind (.pure (follows_ended ((nextAt_leaf found).trans follows) ?_))
      rw [List.flatMap_singleton, cellsAt_leaf found, List.append_nil]
    | some other =>
      obtain ⟨leaf', found'⟩ := chained page leaf other inUse found follows
      have rest : Follows view
          (Tree.collectWithin (fun key value => .ok (read key value)) budget (some other) >>=
            fun beyond => pure (leaf.cells.map (fun cell => read cell.1 cell.2) ++ beyond))
          (nextAt view.nodes) other budget fun chain values => values =
            (leaf.cells ++ chain.flatMap (cellsAt view.nodes)).map fun cell => read cell.1 cell.2 :=
        (ih (enclosed.of_next inUse found follows) found').map fun chain beyond is => by
          rw [is, List.map_append]
      refine rest.onwards ((nextAt_leaf found).trans follows) fun chain values is => ?_
      rw [is, List.flatMap_cons, cellsAt_leaf found]

end View.Enclosed

end Following

/-! ## The walks of a tree -/

/-- References may lead in circles, but only to pages that are there and of the right kind. Branches
have one more child than separators, which do not descend. -/
structure View.Walkable (view : View) : Prop where
  enclosed : view.Enclosed
  branches : ∀ page branch, page.toNat < view.pagesInUse →
    view.nodes page = .ok (.branch branch) →
    branch.children.length = branch.separators.length + 1 ∧ branch.separators.Pairwise (· ≤ ·)
  chained : Chained view

namespace View.Walkable

variable {view : View} (walkable : view.Walkable)
include walkable

theorem descends_left : Descends view (·.children.head?) (leftAt view.nodes) :=
  walkable.enclosed.descends_left fun page branch inUse found =>
    (walkable.branches page branch inUse found).1

theorem descends_childFor? (key : Key) :
    Descends view (·.childFor? key) (childAt view.nodes (·.childBehind key)) := by
  refine walkable.enclosed.descends fun page branch inUse found => ?_
  obtain ⟨matched, ordered⟩ := walkable.branches page branch inUse found
  have place : branch.separators.countP (· ≤ key) < branch.children.length := by
    rw [matched]
    exact Nat.lt_succ_of_le List.countP_le_length
  exact ⟨Branch.childFor?_eq_childBehind ordered key, _, List.getElem_mem place,
    List.getElem?_eq_getElem place⟩

end View.Walkable

namespace Tree

/-- The way down to the smallest keys or the way along the leaves from there comes back to a
page. -/
def ScanRevisits (nodes : Nodes) (root : PageNumber) : Prop :=
  Revisits (leftAt nodes) root ∨
    ∃ first, EndsAt (leftAt nodes) root first ∧ Revisits (nextAt nodes) first

/-- The walks of a tree are given up exactly if they come back to a page.

The search for a key takes the child behind the separators that are not greater, the search for the
smallest keys takes the first child, and the number of pages on that way is the height. The way up
takes the parents. A scan is given up exactly if one of its two walks comes back to a page;
otherwise it shows the reader the cells of each leaf on the way, and no leaf twice. -/
structure GuardsWalks (tree : Tree) (store : Store) : Prop where
  leafFor : ∀ key, Completes (childAt store.peek (·.childBehind key)) tree.root
    (fun pages page => pages.getLast? = some page) (answer (tree.leafFor key) store)
  firstLeaf : Completes (leftAt store.peek) tree.root
    (fun pages page => pages.getLast? = some page) (answer tree.firstLeaf store)
  height : Completes (leftAt store.peek) tree.root
    (fun pages height => height = pages.length) (answer tree.height store)
  rootAbove : ∀ start, start.toNat < store.pagesInUse →
    Completes (parentAt store.peek) start (fun pages page => pages.getLast? = some page)
      (answer (Tree.rootAbove start) store)
  scan_stops_iff : ∀ {α : Type} (read : Key → Bytes → α),
    (∃ page defect, answer (tree.collect fun key value => .ok (read key value)) store =
      .error (.corrupt page defect)) ↔ ScanRevisits store.peek tree.root
  scan : ∀ {α : Type} (read : Key → Bytes → α), ¬ScanRevisits store.peek tree.root →
    ∃ first chain, EndsAt (leftAt store.peek) tree.root first ∧
      Visits (nextAt store.peek) first chain ∧ chain.Nodup ∧
      answer (tree.collect fun key value => .ok (read key value)) store =
        .ok ((chain.flatMap (cellsAt store.peek)).map fun cell => read cell.1 cell.2)

section Guarded

variable {tree : Tree} {store : Store} (walkable : store.view.Walkable)
  (inUse : tree.root.toNat < store.pagesInUse)
include walkable inUse

/-- What a scan shows its reader, or why it is given up. -/
theorem promises_collect {α : Type} (read : Key → Bytes → α) :
    Promises store.view (tree.collect fun key value => .ok (read key value))
      (fun values _ => ∃ first chain, EndsAt (leftAt store.peek) tree.root first ∧
        Visits (nextAt store.peek) first chain ∧
        values = (chain.flatMap (cellsAt store.peek)).map fun cell => read cell.1 cell.2)
      (fun fault _ => (∃ page defect, fault = .corrupt page defect) ∧
        ScanRevisits store.peek tree.root) := by
  have enclosed := walkable.enclosed
  have left := walkable.descends_left
  refine .bind (.bind (.countPages (Promises.weaken (left.descendWithin inUse _) ?_ ?_)))
  · rintro first after ⟨rfl, ends⟩
    obtain ⟨inUse', leaf, found⟩ := left.exists_leaf inUse ends
    have along := enclosed.collectWithin walkable.chained read inUse' found store.pagesInUse
    refine .bind (.countPages (Promises.weaken along ?_ ?_))
    · rintro values after ⟨-, chain, visits, is⟩
      exact ⟨first, chain, ends, visits, is⟩
    · rintro fault after ⟨-, far, stop⟩
      exact ⟨stop, .inr ⟨first, ends, revisits_of_visit enclosed.inside_nextAt inUse' far⟩⟩
  · rintro fault after ⟨-, far, stop⟩
    exact ⟨stop, .inl (revisits_of_visit left.inside inUse far)⟩

theorem collect_cases {α : Type} (read : Key → Bytes → α) :
    (∃ first chain, EndsAt (leftAt store.peek) tree.root first ∧
      Visits (nextAt store.peek) first chain ∧
      answer (tree.collect fun key value => .ok (read key value)) store =
        .ok ((chain.flatMap (cellsAt store.peek)).map fun cell => read cell.1 cell.2)) ∨
    (∃ page defect, answer (tree.collect fun key value => .ok (read key value)) store =
      .error (.corrupt page defect)) ∧ ScanRevisits store.peek tree.root := by
  have scan := promises_collect walkable inUse read
  unfold answer
  cases run : tree.collect (fun key value => .ok (read key value)) store with
  | ok values after =>
    obtain ⟨first, chain, ends, visits, rfl⟩ := scan.of_ok run
    exact .inl ⟨first, chain, ends, visits, rfl⟩
  | error fault after =>
    obtain ⟨⟨page, defect, rfl⟩, around⟩ := scan.of_error run
    exact .inr ⟨⟨page, defect, rfl⟩, around⟩

omit walkable inUse in
/-- If both walks of a scan have an end, none comes back to a page. -/
theorem not_scanRevisits {nodes : Nodes} {root first : PageNumber} {chain : List PageNumber}
    (ends : EndsAt (leftAt nodes) root first) (visits : Visits (nextAt nodes) first chain) :
    ¬ScanRevisits nodes root := by
  rintro (around | ⟨other, ends', around⟩)
  · exact ends.not_revisits around
  · obtain ⟨-, -, -, only⟩ := ends.exists_visit
    cases only other ends'
    exact visits.not_revisits around

/-- **Walks are given up exactly if they come back to a page.** Every other walk is followed to its
end, also one that visits every page there is. -/
theorem guardsWalks : GuardsWalks tree store where
  leafFor := by
    intro key
    have down := walkable.descends_childFor? key
    have follows : Follows store.view (tree.leafFor key) _ tree.root store.pagesInUse _ :=
      .bind (.countPages (down.descendWithin inUse store.pagesInUse))
    exact follows.completes down.inside inUse
  firstLeaf := by
    have left := walkable.descends_left
    have follows : Follows store.view tree.firstLeaf _ tree.root store.pagesInUse _ :=
      .bind (.countPages (left.descendWithin inUse store.pagesInUse))
    exact follows.completes left.inside inUse
  height := by
    have left := walkable.descends_left
    have follows : Follows store.view tree.height _ tree.root store.pagesInUse _ :=
      .bind (.countPages (left.heightWithin inUse store.pagesInUse))
    exact follows.completes left.inside inUse
  rootAbove := by
    intro start inUse'
    have follows : Follows store.view (Tree.rootAbove start) _ start store.pagesInUse _ :=
      .bind (.countPages (walkable.enclosed.rootWithin inUse' store.pagesInUse))
    exact follows.completes walkable.enclosed.inside_parentAt inUse'
  scan_stops_iff := by
    intro α read
    rcases collect_cases walkable inUse read with
      ⟨first, chain, ends, visits, answers⟩ | ⟨stops, around⟩
    · rw [answers]
      exact iff_of_false nofun (not_scanRevisits ends visits)
    · exact iff_of_true stops around
  scan := by
    intro α read once
    rcases collect_cases walkable inUse read with
      ⟨first, chain, ends, visits, answers⟩ | ⟨-, around⟩
    · exact ⟨first, chain, ends, visits, visits.nodup, answers⟩
    · exact absurd around once

end Guarded

/-- A store with a tree of two leaves that refer to each other as the leaf that follows. -/
def circling : Store where
  slots := #[
    some (.leaf { parent := some 2, next := some 1, keys := [1], values := [[0xaa]] }),
    some (.leaf { parent := some 2, next := some 0, keys := [5], values := [[0xbb]] }),
    some (.branch { rootMark := true, separators := [5], children := [0, 1] })]
  limit := 100

/-- What holds of the three pages holds of all pages in use. -/
theorem forall_inUse_circling {holds : PageNumber → Prop} (leaf : holds 0) (leaf' : holds 1)
    (root : holds 2) : ∀ page : PageNumber, page.toNat < circling.pagesInUse → holds page := by
  intro page inUse
  have number : page.toNat = 0 ∨ page.toNat = 1 ∨ page.toNat = 2 := by
    have inUse : page.toNat < 3 := inUse
    omega
  rcases number with first | second | third
  · exact (UInt32.toNat_inj.mp first : page = 0) ▸ leaf
  · exact (UInt32.toNat_inj.mp second : page = 1) ▸ leaf'
  · exact (UInt32.toNat_inj.mp third : page = 2) ▸ root

theorem walkable_circling : circling.view.Walkable where
  enclosed := by
    have pair : ∀ {first second : PageNumber}, first.toNat < 3 → second.toNat < 3 →
        ∀ other ∈ [first, second], other.toNat < 3 := fun first second =>
      List.forall_mem_cons.mpr ⟨first, List.forall_mem_singleton.mpr second⟩
    exact forall_inUse_circling ⟨_, rfl, pair (by decide) (by decide)⟩
      ⟨_, rfl, pair (by decide) (by decide)⟩ ⟨_, rfl, pair (by decide) (by decide)⟩
  branches := by
    intro page branch inUse
    revert page
    refine forall_inUse_circling ?_ ?_ ?_
    all_goals
      intro found
      cases found
    exact ⟨rfl, by decide⟩
  chained := by
    intro page leaf other inUse
    revert page
    refine forall_inUse_circling ?_ ?_ ?_
    all_goals
      intro found follows
      cases found
    · cases follows
      exact ⟨_, rfl⟩
    · cases follows
      exact ⟨_, rfl⟩

/-- The searches end, and the scan is given up where it would visit the first leaf again. -/
theorem guardsWalks_circling :
    circling.view.Walkable ∧ GuardsWalks { root := 2 } circling ∧
      ScanRevisits circling.peek 2 ∧
      answer (Tree.cells { root := 2 }) circling = .error (.corrupt 1 .referenceCycle) ∧
      answer (Tree.height { root := 2 }) circling = .ok 2 := by
  have guards : GuardsWalks { root := 2 } circling := guardsWalks walkable_circling (by decide)
  have stops :
      answer (Tree.cells { root := 2 }) circling = .error (.corrupt 1 .referenceCycle) := rfl
  exact ⟨walkable_circling, guards, (guards.scan_stops_iff Prod.mk).mp ⟨_, _, stops⟩, stops,
    by decide +kernel⟩

end Tree

end RowStore
