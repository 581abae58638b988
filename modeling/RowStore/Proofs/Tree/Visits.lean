import Mathlib.Data.Finset.Card
import RowStore.Proofs.Store.View

/-!
# Walks along references

A walk goes on from page to page as long as there is a reference to follow: to a child, to the
parent or to the next leaf. Nothing is asked of the references, so a walk may come back to a
page, and then it has no end (`Revisits.visit_ne_none`). As long as it stays among the pages in
use, a walk that has made as many steps as there are pages has come back to one
(`revisits_of_visit`).

Both hold of whatever is followed (`visit`), without a tree or a store.
-/

set_option autoImplicit false

namespace RowStore

open Store

/-! ## Walks -/

section Walks

variable {next : PageNumber → Option PageNumber} {start other : PageNumber}
  {pages : List PageNumber}

/-- The page that a walk from a page visits after a number of steps, if it has not ended by
then. -/
def visit (next : PageNumber → Option PageNumber) : Nat → PageNumber → Option PageNumber
  | 0, page => some page
  | steps + 1, page => (next page).bind (visit next steps)

/-- The walk from a page visits some page twice. -/
def Revisits (next : PageNumber → Option PageNumber) (start : PageNumber) : Prop :=
  ∃ early late page, early < late ∧
    visit next early start = some page ∧ visit next late start = some page

/-- The walk from a page visits these pages, one after the other, and ends at the last of them. -/
def Visits (next : PageNumber → Option PageNumber) (start : PageNumber)
    (pages : List PageNumber) : Prop :=
  ∀ steps, visit next steps start = pages[steps]?

theorem visit_succ (onwards : next start = some other) (steps : Nat) :
    visit next (steps + 1) start = visit next steps other := by
  rw [visit, onwards, Option.bind_some]

theorem visit_add (next : PageNumber → Option PageNumber) (first second : Nat)
    (start : PageNumber) :
    visit next (first + second) start = (visit next first start).bind (visit next second) := by
  induction first generalizing start with
  | zero =>
    rw [Nat.zero_add]
    rfl
  | succ first ih =>
    rw [Nat.add_right_comm, visit, visit, Option.bind_assoc]
    exact Option.bind_congr fun other _ => ih other

/-- A walk that has not ended after some steps had not ended before. -/
theorem visit_ne_none_of_le {steps later : Nat} (before : steps ≤ later)
    (visited : visit next later start ≠ none) : visit next steps start ≠ none := by
  obtain ⟨more, rfl⟩ := Nat.exists_eq_add_of_le before
  intro ended
  rw [visit_add, ended] at visited
  exact visited rfl

/-- **A walk that comes back to a page has no end.** -/
theorem Revisits.visit_ne_none (revisits : Revisits next start) (steps : Nat) :
    visit next steps start ≠ none := by
  obtain ⟨early, late, page, later, first, again⟩ := revisits
  obtain ⟨period, rfl⟩ := Nat.exists_eq_add_of_lt later
  have around : visit next (period + 1) page = some page := by
    rw [Nat.add_assoc, visit_add, first, Option.bind_some] at again
    exact again
  have rounds : ∀ count, visit next (count * (period + 1)) page = some page := by
    intro count
    induction count with
    | zero =>
      rw [Nat.zero_mul]
      rfl
    | succ count ih => rw [Nat.succ_mul, visit_add, ih, Option.bind_some, around]
  have far : visit next (early + steps * (period + 1)) start ≠ none := by
    rw [visit_add, first, Option.bind_some, rounds]
    exact Option.some_ne_none page
  refine visit_ne_none_of_le ?_ far
  exact Nat.le_trans (Nat.le_mul_of_pos_right steps period.succ_pos) (Nat.le_add_left ..)

/-- Steps from pages in use lead to pages in use. -/
def Inside (count : Nat) (next : PageNumber → Option PageNumber) : Prop :=
  ∀ page other, page.toNat < count → next page = some other → other.toNat < count

theorem Inside.visit {count : Nat} (inside : Inside count next) (inUse : start.toNat < count)
    {steps : Nat} {page : PageNumber} (visited : visit next steps start = some page) :
    page.toNat < count := by
  induction steps generalizing start with
  | zero =>
    cases visited
    exact inUse
  | succ steps ih =>
    obtain ⟨other, onwards, visited⟩ := Option.bind_eq_some_iff.mp visited
    exact ih (inside start other inUse onwards) visited

/-- **A walk of as many steps as there are pages has come back to a page.** -/
theorem revisits_of_visit {count : Nat} (inside : Inside count next) (inUse : start.toNat < count)
    (far : visit next count start ≠ none) : Revisits next start := by
  have listed : ∀ steps ∈ Finset.range (count + 1), visit next steps start ∈
      (Finset.range count).image fun number => some (UInt32.ofNat number) := by
    intro steps within
    have before : steps ≤ count := Nat.le_of_lt_succ (Finset.mem_range.mp within)
    obtain ⟨page, visited⟩ := Option.ne_none_iff_exists'.mp (visit_ne_none_of_le before far)
    rw [visited, Finset.mem_image]
    exact ⟨page.toNat, Finset.mem_range.mpr (inside.visit inUse visited),
      congrArg some UInt32.ofNat_toNat⟩
  have fewer : ((Finset.range count).image fun number => some (UInt32.ofNat number)).card <
      (Finset.range (count + 1)).card := by
    refine Nat.lt_of_le_of_lt Finset.card_image_le ?_
    rw [Finset.card_range, Finset.card_range]
    exact Nat.lt_succ_self count
  obtain ⟨first, inFirst, second, -, apart, same⟩ :=
    Finset.exists_ne_map_eq_of_card_lt_of_maps_to fewer listed
  have before : first ≤ count := Nat.le_of_lt_succ (Finset.mem_range.mp inFirst)
  obtain ⟨page, visited⟩ := Option.ne_none_iff_exists'.mp (visit_ne_none_of_le before far)
  rcases Nat.lt_or_gt_of_ne apart with earlier | later
  · exact ⟨first, second, page, earlier, visited, same.symm.trans visited⟩
  · exact ⟨second, first, page, later, same.symm.trans visited, visited⟩

theorem visits_singleton (ends : next start = none) : Visits next start [start] := by
  intro steps
  cases steps with
  | zero => rfl
  | succ steps => rw [visit, ends, List.getElem?_cons_succ, List.getElem?_nil, Option.bind_none]

theorem Visits.cons (onwards : next start = some other) (visits : Visits next other pages) :
    Visits next start (start :: pages) := by
  intro steps
  cases steps with
  | zero => rfl
  | succ steps => rw [visit_succ onwards, visits, List.getElem?_cons_succ]

/-- A walk with an end does not come back to a page. -/
theorem Visits.not_revisits (visits : Visits next start pages) : ¬Revisits next start := by
  intro revisits
  refine revisits.visit_ne_none pages.length ?_
  rw [visits, List.getElem?_eq_none (Nat.le_refl _)]

theorem Visits.nodup (visits : Visits next start pages) : pages.Nodup := by
  rw [List.nodup_iff_getElem?_ne_getElem?]
  intro early late later within same
  refine visits.not_revisits ⟨early, late, pages[late], later, ?_, ?_⟩
  · rw [visits, same, List.getElem?_eq_getElem within]
  · rw [visits, List.getElem?_eq_getElem within]

/-- The walk from a page has an end, which is the last page it visits. -/
def EndsAt (next : PageNumber → Option PageNumber) (start last : PageNumber) : Prop :=
  ∃ pages, Visits next start pages ∧ pages.getLast? = some last

theorem EndsAt.cons {last : PageNumber} (onwards : next start = some other)
    (ends : EndsAt next other last) : EndsAt next start last := by
  obtain ⟨pages, visits, ending⟩ := ends
  refine ⟨start :: pages, visits.cons onwards, ?_⟩
  rw [List.getLast?_cons, ending, Option.getD_some]

theorem EndsAt.not_revisits {last : PageNumber} (ends : EndsAt next start last) :
    ¬Revisits next start := by
  obtain ⟨pages, visits, -⟩ := ends
  exact visits.not_revisits

/-- A walk has one end, and does not go on from there. -/
theorem EndsAt.exists_visit {last : PageNumber} (ends : EndsAt next start last) :
    next last = none ∧ ∃ steps, visit next steps start = some last ∧
      ∀ other, EndsAt next start other → other = last := by
  obtain ⟨pages, visits, ending⟩ := ends
  obtain ⟨front, rfl⟩ := List.getLast?_eq_some_iff.mp ending
  have atLast : visit next front.length start = some last := by
    rw [visits, List.getElem?_concat_length]
  have beyond : visit next (front.length + 1) start = none := by
    rw [visits, List.getElem?_eq_none (by rw [List.length_append, List.length_singleton])]
  rw [visit_add, atLast, Option.bind_some] at beyond
  have atEnd : next last = none := (Option.bind_fun_some (next last)).symm.trans beyond
  refine ⟨atEnd, front.length, atLast, ?_⟩
  rintro other ⟨pages', visits', ending'⟩
  have same : pages' = front ++ [last] :=
    List.ext_getElem? fun steps => (visits' steps).symm.trans (visits steps)
  rw [same, ending] at ending'
  exact (Option.some.inj ending').symm

end Walks

/-! ## Where walks lead -/

/-- The child of the branch on a page that is chosen. -/
def childAt (nodes : Nodes) (choose : Branch → Option PageNumber) (page : PageNumber) :
    Option PageNumber :=
  match nodes page with
  | .ok (.branch branch) => choose branch
  | _ => none

/-- The first child of the branch on a page. -/
def leftAt (nodes : Nodes) : PageNumber → Option PageNumber := childAt nodes (·.children.head?)

/-- The parent of the node on a page. -/
def parentAt (nodes : Nodes) (page : PageNumber) : Option PageNumber :=
  match nodes page with
  | .ok node => node.parent
  | .error _ => none

/-- The leaf after the leaf on a page. -/
def nextAt (nodes : Nodes) (page : PageNumber) : Option PageNumber :=
  match nodes page with
  | .ok (.leaf leaf) => leaf.next
  | _ => none

section Steps

variable {nodes : Nodes} {choose : Branch → Option PageNumber} {page : PageNumber}

theorem childAt_leaf {leaf : Leaf} (found : nodes page = .ok (.leaf leaf)) :
    childAt nodes choose page = none := by
  simp only [childAt, found]

theorem childAt_branch {branch : Branch} (found : nodes page = .ok (.branch branch)) :
    childAt nodes choose page = choose branch := by
  simp only [childAt, found]

theorem parentAt_of {node : Node} (found : nodes page = .ok node) :
    parentAt nodes page = node.parent := by
  simp only [parentAt, found]

theorem nextAt_leaf {leaf : Leaf} (found : nodes page = .ok (.leaf leaf)) :
    nextAt nodes page = leaf.next := by
  simp only [nextAt, found]

theorem nextAt_branch {branch : Branch} (found : nodes page = .ok (.branch branch)) :
    nextAt nodes page = none := by
  simp only [nextAt, found]

end Steps

/-- The child behind as many separators as are not greater than the key. -/
def Branch.childBehind (branch : Branch) (key : Key) : Option PageNumber :=
  branch.children[branch.separators.countP (· ≤ key)]?

/-- In ascending separators, those that are not greater than a key stand in front. -/
theorem Branch.childFor?_eq_childBehind {branch : Branch}
    (ordered : branch.separators.Pairwise (· ≤ ·)) (key : Key) :
    branch.childFor? key = branch.childBehind key := by
  have counted : ∀ {separators : List Key}, separators.Pairwise (· ≤ ·) →
      (separators.takeWhile (· ≤ key)).length = separators.countP (· ≤ key) := by
    intro separators ordered
    induction ordered with
    | nil => rfl
    | @cons first separators least _ ih =>
      by_cases passes : first ≤ key
      · rw [List.takeWhile_cons_of_pos (by simpa using passes), List.length_cons, ih,
          List.countP_cons_of_pos (by simpa using passes)]
      · have none : separators.countP (· ≤ key) = 0 := by
          rw [List.countP_eq_zero]
          intro other member
          simpa using fun passes' => passes (Int32.le_trans (least other member) passes')
        rw [List.takeWhile_cons_of_neg (by simpa using passes),
          List.countP_cons_of_neg (by simpa using passes), none]
        rfl
  rw [childFor?, childBehind, position, counted ordered]

/-- The pages that a node refers to. -/
def Node.references : Node → List PageNumber
  | branch node => node.parent.toList ++ node.children
  | leaf node => node.parent.toList ++ node.next.toList

/-- Every page in use can be read, and its node refers to pages in use only. -/
def View.Enclosed (view : View) : Prop :=
  ∀ page, page.toNat < view.pagesInUse → ∃ node, view.nodes page = .ok node ∧
    ∀ other ∈ node.references, other.toNat < view.pagesInUse

namespace View.Enclosed

variable {view : View} (enclosed : view.Enclosed) {page : PageNumber}
  (inUse : page.toNat < view.pagesInUse)
include enclosed inUse

theorem of_mem {node : Node} (found : view.nodes page = .ok node) {other : PageNumber}
    (refers : other ∈ node.references) : other.toNat < view.pagesInUse := by
  obtain ⟨node', found', inside⟩ := enclosed page inUse
  cases found.symm.trans found'
  exact inside other refers

theorem of_child {branch : Branch} (found : view.nodes page = .ok (.branch branch))
    {child : PageNumber} (isChild : child ∈ branch.children) : child.toNat < view.pagesInUse :=
  enclosed.of_mem inUse found (List.mem_append_right _ isChild)

theorem of_parent {node : Node} (found : view.nodes page = .ok node) {parent : PageNumber}
    (hung : node.parent = some parent) : parent.toNat < view.pagesInUse := by
  refine enclosed.of_mem inUse found ?_
  cases node <;> exact List.mem_append_left _ (Option.mem_toList.mpr hung)

theorem of_next {leaf : Leaf} (found : view.nodes page = .ok (.leaf leaf)) {other : PageNumber}
    (follows : leaf.next = some other) : other.toNat < view.pagesInUse :=
  enclosed.of_mem inUse found (List.mem_append_right _ (Option.mem_toList.mpr follows))

end View.Enclosed

end RowStore
