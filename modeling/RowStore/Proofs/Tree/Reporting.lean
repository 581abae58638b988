import RowStore.Proofs.Tree.Cycles
import RowStore.Proofs.Tree.Lookup

/-!
# What a check makes of references that go wrong

A check visits what the references lead to, so references that go wrong must neither keep it
from ending nor be taken for those of a tree. On its own ways down and along the leaves it
counts its steps, and notes a circle as a violation. Between these ways, though, it looks for
the leaf with the smallest keys as a search does, and a search is given up on a circle; and a
page along the leaves that is not a leaf ends the check as it ends a scan.

So a check of readable pages whose references stay among them ends with an answer unless the
way down to the left is a circle or the way along the leaves from there comes to a branch
(`Tree.Derails`), and then it does not (`Tree.reports`). It never finds a tree sound on which
some way down, up or along the leaves is a circle or comes to a page of the wrong kind
(`Tree.Tangled`), as no such way exists in what the check asks for (`Passes.not_tangled`).
-/

set_option autoImplicit false

namespace RowStore

open Store RowStore.Tree

/-! ## Ways that go wrong -/

namespace Tree

/-- The way along the leaves from a page comes to a branch. -/
def Strays (nodes : Nodes) (first : PageNumber) : Prop :=
  ∃ steps page branch, visit (nextAt nodes) steps first = some page ∧
    nodes page = .ok (.branch branch)

/-- The way down to the left comes back to a page, or the way along the leaves from where it ends
comes to a branch. -/
def Derails (nodes : Nodes) (root : PageNumber) : Prop :=
  Revisits (leftAt nodes) root ∨ ∃ first, EndsAt (leftAt nodes) root first ∧ Strays nodes first

/-- Some way from the root down, from a page below the root up, or along the leaves comes back to a
page, or to one of the wrong kind: a page is below itself, the parents above a page lead in a circle
or to a leaf, or the leaves lead in a circle or to a branch. -/
inductive Tangled (nodes : Nodes) (root : PageNumber) : Prop where
  | children {path loop : List Branch} {page : PageNumber} :
      Leads nodes root path page → Leads nodes page loop page → loop ≠ [] → Tangled nodes root
  | parents {path : List Branch} {page : PageNumber} :
      Leads nodes root path page → Revisits (parentAt nodes) page → Tangled nodes root
  | leafAbove {path : List Branch} {page above : PageNumber} {steps : Nat} {leaf : Leaf} :
      Leads nodes root path page → visit (parentAt nodes) (steps + 1) page = some above →
      nodes above = .ok (.leaf leaf) → Tangled nodes root
  | leaves {first : PageNumber} :
      EndsAt (leftAt nodes) root first → Revisits (nextAt nodes) first → Tangled nodes root
  | branchAmong {first : PageNumber} :
      EndsAt (leftAt nodes) root first → Strays nodes first → Tangled nodes root

end Tree

/-! ## Ways in a tree that is as the check asks -/

namespace Ordered

variable {nodes : Nodes} {height : Nat} {region : Region}

/-- Each branch on the way down is one level. -/
theorem of_leads (ordered : Ordered nodes height region) {path : List Branch} {page : PageNumber}
    (leads : Leads nodes region.1 path page) :
    ∃ rest range, Ordered nodes rest (page, range) ∧ rest + path.length = height := by
  induction path generalizing height region with
  | nil =>
    obtain rfl : region.1 = page := leads
    exact ⟨height, region.2, ordered, rfl⟩
  | cons branch path ih =>
    obtain ⟨found, child, isChild, leads⟩ := leads
    cases ordered with
    | leaf found' => cases found.symm.trans found'
    | branch found' matched _ _ below =>
      cases found.symm.trans found'
      obtain ⟨place, member, rfl⟩ := Branch.exists_region matched region.2 isChild
      obtain ⟨rest, range, ordered, levels⟩ := ih (below place member) leads
      refine ⟨rest, range, ordered, ?_⟩
      rw [List.length_cons, ← Nat.add_assoc, levels]

/-- A page is at the top of ordered trees of one height only. -/
theorem height_unique (ordered : Ordered nodes height region) {other : Nat} {range : KeyRange}
    (ordered' : Ordered nodes other (region.1, range)) : other = height := by
  induction ordered generalizing other range with
  | leaf found =>
    cases ordered' with
    | leaf => rfl
    | branch found' => cases found.symm.trans found'
  | @branch height region branch found matched separates hang below ih =>
    cases ordered' with
    | leaf found' => cases found.symm.trans found'
    | branch found' _ _ _ below' =>
      cases found.symm.trans found'
      -- The first child has both heights.
      obtain ⟨place, _, listed, first⟩ := Branch.exists_first matched region.2
      obtain ⟨place', _, listed', first'⟩ := Branch.exists_first matched range
      have member : place ∈ branch.regions region.2 := listed ▸ List.mem_cons_self
      have member' : place' ∈ branch.regions range := listed' ▸ List.mem_cons_self
      have same : place'.1 = place.1 := Option.some.inj (first'.symm.trans first)
      have there := below' place' member'
      rw [← Prod.mk.eta (p := place'), same] at there
      rw [ih place member there]

/-- No page of an ordered tree is below itself. -/
theorem not_leads_around (ordered : Ordered nodes height region) {path loop : List Branch}
    {page : PageNumber} (leads : Leads nodes region.1 path page)
    (around : Leads nodes page loop page) : loop = [] := by
  obtain ⟨rest, range, here, -⟩ := ordered.of_leads leads
  obtain ⟨rest', range', again, levels⟩ := here.of_leads around
  have same := here.height_unique again
  exact List.eq_nil_of_length_eq_zero (by omega)

/-- The page above a page of an ordered tree is its parent. -/
theorem hangs_of_leads (ordered : Ordered nodes height region) {path : List Branch}
    {branch : Branch} {page last : PageNumber} (leads : Leads nodes region.1 path last)
    (found : nodes last = .ok (.branch branch)) (isChild : page ∈ branch.children) :
    Hangs nodes (some last) page := by
  obtain ⟨rest, range, here, -⟩ := ordered.of_leads leads
  cases here with
  | leaf found' => cases found.symm.trans found'
  | branch found' matched _ hang _ =>
    cases found.symm.trans found'
    obtain ⟨place, member, rfl⟩ := Branch.exists_region matched range isChild
    exact hang place member

/-- The way down to the left ends at the first leaf. -/
theorem endsAt_head (ordered : Ordered nodes height region) :
    ∃ first rest, leavesBelow nodes height region.1 = first :: rest ∧
      EndsAt (leftAt nodes) region.1 first := by
  induction ordered with
  | @leaf region leaf found matched separates =>
    exact ⟨region.1, [], leavesBelow_leaf found 0, [region.1],
      visits_singleton (childAt_leaf found), rfl⟩
  | @branch height region branch found matched separates hang below ih =>
    obtain ⟨place, others, listed, chosen⟩ := Branch.exists_first matched region.2
    have member : place ∈ branch.regions region.2 := listed ▸ List.mem_cons_self
    obtain ⟨first, rest, leaves, ends⟩ := ih place member
    refine ⟨first, rest ++ others.flatMap fun place => leavesBelow nodes height place.1, ?_,
      ends.cons ((childAt_branch found).trans chosen)⟩
    rw [leavesBelow_branch found matched height region.2, listed, List.flatMap_cons, leaves]
    rfl

end Ordered

/-- Linked leaves are those that the way along the leaves visits. -/
theorem Linked.visits {nodes : Nodes} {first : PageNumber} {pages : List PageNumber}
    (linked : Linked nodes (some first) pages) :
    Visits (nextAt nodes) first pages ∧ ∀ page ∈ pages, ∃ leaf, nodes page = .ok (.leaf leaf) := by
  induction pages generalizing first with
  | nil => cases linked
  | cons page pages ih =>
    obtain ⟨same, leaf, found, linked⟩ := linked
    cases same
    have onwards := nextAt_leaf found
    cases follows : leaf.next with
    | none =>
      rw [follows] at linked onwards
      cases pages with
      | nil => exact ⟨visits_singleton onwards, List.forall_mem_singleton.mpr ⟨leaf, found⟩⟩
      | cons other pages => cases linked.1
    | some other =>
      rw [follows] at linked onwards
      obtain ⟨visits, leaves⟩ := ih linked
      exact ⟨visits.cons onwards, List.forall_mem_cons.mpr ⟨⟨leaf, found⟩, leaves⟩⟩

namespace Passes

variable {view : View} {root : PageNumber} {height : Nat} {chain : List PageNumber}
  (passes : Passes view root height chain)
include passes

/-- The parents above a page below the root are the branches on the way to it, up to the root. -/
theorem visits_parents {path : List Branch} {page : PageNumber}
    (leads : Leads view.nodes root path page) :
    ∃ above, Visits (parentAt view.nodes) page (page :: above) ∧
      ∀ other ∈ above, ∃ branch, view.nodes other = .ok (.branch branch) := by
  induction path using List.reverseRecOn generalizing page with
  | nil =>
    obtain rfl : root = page := leads
    obtain ⟨node, found, free, -⟩ := passes.hangs
    exact ⟨[], visits_singleton ((parentAt_of found).trans free), List.forall_mem_nil _⟩
  | append_singleton path branch ih =>
    obtain ⟨last, leads, atLast, isChild⟩ := leads_concat_iff.mp leads
    obtain ⟨node, found, hung, -⟩ := passes.ordered.hangs_of_leads leads atLast isChild
    obtain ⟨above, visits, branches⟩ := ih leads
    exact ⟨last :: above, visits.cons ((parentAt_of found).trans hung),
      List.forall_mem_cons.mpr ⟨⟨branch, atLast⟩, branches⟩⟩

/-- The way along the leaves begins where the way down to the left ends, and visits leaves only. -/
theorem visits_chain {first : PageNumber} (ends : EndsAt (leftAt view.nodes) root first) :
    Visits (nextAt view.nodes) first chain ∧
      ∀ page ∈ chain, ∃ leaf, view.nodes page = .ok (.leaf leaf) := by
  obtain ⟨head, rest, leaves, ends'⟩ := passes.ordered.endsAt_head
  obtain ⟨-, steps, -, only⟩ := ends.exists_visit
  cases only head ends'
  have linked := passes.linked
  rw [leaves, List.head?_cons] at linked
  exact linked.visits

/-- **Where everything is as the check asks, no way goes wrong.** -/
theorem not_tangled : ¬Tangled view.nodes root := by
  intro tangled
  cases tangled with
  | children leads around some => exact some (passes.ordered.not_leads_around leads around)
  | parents leads around =>
    obtain ⟨above, visits, -⟩ := passes.visits_parents leads
    exact visits.not_revisits around
  | @leafAbove _ page above steps leaf leads visited found =>
    obtain ⟨pages, visits, branches⟩ := passes.visits_parents leads
    rw [visits, List.getElem?_cons_succ] at visited
    obtain ⟨branch, found'⟩ := branches above (List.mem_of_getElem? visited)
    cases found.symm.trans found'
  | leaves ends around => exact (passes.visits_chain ends).1.not_revisits around
  | branchAmong ends strays =>
    obtain ⟨visits, leaves⟩ := passes.visits_chain ends
    obtain ⟨steps, page, branch, visited, found⟩ := strays
    rw [visits] at visited
    obtain ⟨leaf, found'⟩ := leaves page (List.mem_of_getElem? visited)
    cases found.symm.trans found'

end Passes

/-- The way along the leaves comes to a branch in fewer steps than there are pages, as it ends
there. -/
theorem View.Enclosed.steps_to_branch_lt {view : View} (enclosed : view.Enclosed)
    {first page : PageNumber} (inUse : first.toNat < view.pagesInUse) {steps : Nat}
    {branch : Branch}
    (visited : visit (nextAt view.nodes) steps first = some page)
    (found : view.nodes page = .ok (.branch branch)) : steps < view.pagesInUse := by
  refine Nat.lt_of_not_le fun beyond => ?_
  have far := visit_ne_none_of_le beyond (visited ▸ Option.some_ne_none page)
  have around := revisits_of_visit enclosed.inside_nextAt inUse far
  refine around.visit_ne_none (steps + 1) ?_
  rw [visit_add, visited, Option.bind_some, visit, nextAt_branch found, Option.bind_none]

/-! ## How a survey ends -/

namespace Survey

variable {view : View} {survey : Survey} {page : PageNumber}

/-- A computation on the store ends the survey only where it stops itself. -/
theorem ends_onStore_cases {α : Type} {action : StoreM α} {found : α → View → Prop}
    {missing : Fault → View → Prop} {done : α → Survey → Prop} {failed : Fault → Survey → Prop}
    (promise : Promises survey.store.view action found missing)
    (ofDone : ∀ value store, found value store.view → done value { survey with store })
    (ofFailed : ∀ fault store, missing fault store.view → failed fault { survey with store }) :
    Ends survey (onStore action) done failed := by
  have ends := promise survey.store rfl
  unfold Ends onStore
  cases run : action survey.store with
  | ok value store => exact ofDone value store (ends.of_ok run)
  | error fault store => exact ofFailed fault store (ends.of_error run)

/-- The computation does not stop, and leaves what can be seen of the store as it is. -/
def Calm (view : View) {α : Type} (action : SurveyM α) : Prop :=
  ∀ survey : Survey, survey.store.view = view →
    Ends survey action (fun _ after => after.store.view = view) fun _ _ => False

/-- **Going down from pages in use, a survey does not stop**, whatever the pages refer to. -/
theorem noting_calm (enclosed : view.Enclosed) :
    Noting (fun page => page.toNat < view.pagesInUse) fun _ => Calm view where
  pure := fun _ _ same => same
  bind := fun first later survey same =>
    .bind ((first survey same).mono fun value after same => later value after same)
  get := fun later survey same => .bind (.get (later survey survey same))
  note := fun _ _ same => same
  setDepth := fun _ _ same => same
  visit := by
    intro α page next inUse later survey same
    subst same
    obtain ⟨node, found, -⟩ := enclosed page inUse
    refine .bind (ends_load found fun store same => later node ?_ { survey with store } same)
    rintro branch rfl child isChild
    exact enclosed.of_child inUse found isChild

theorem ends_noteIf (condition : Bool) (violation : Violation) :
    Ends survey (noteIf condition violation)
      (fun _ after => after.store = survey.store ∧ (after.Clean → survey.Clean))
      fun _ _ => False := by
  cases condition with
  | true => exact ⟨rfl, fun clean => absurd clean Array.push_ne_empty⟩
  | false => exact ⟨rfl, id⟩

/-- Going along the leaves, a survey stops exactly at a branch, if it has not made its steps by
then. -/
theorem ends_surveyLeaves (enclosed : view.Enclosed) (inUse : page.toNat < view.pagesInUse)
    (budget : Nat) (before : Option Key) (same : survey.store.view = view) :
    Ends survey (surveyLeaves budget before (some page))
      (fun _ _ => ∀ steps < budget, ∀ other branch,
        visit (nextAt view.nodes) steps page = some other → view.nodes other ≠ .ok (.branch branch))
      (fun fault _ => (∃ id defect, fault = .corrupt id defect) ∧ Strays view.nodes page) := by
  induction budget generalizing survey page before with
  | zero => exact fun steps none => absurd none (Nat.not_lt_zero steps)
  | succ budget ih =>
    subst same
    obtain ⟨node, found, -⟩ := enclosed page inUse
    cases node with
    | branch branch =>
      have stops : Promises survey.store.view (loadLeaf page) (fun _ _ => False)
          (fun fault _ => fault = .corrupt page .notLeaf) := .bind (.load_of found (.throw rfl))
      refine .bind (ends_onStore_cases stops (fun _ _ never => never.elim) ?_)
      rintro fault store rfl
      exact ⟨⟨page, .notLeaf, rfl⟩, 0, page, branch, rfl, found⟩
    | leaf leaf =>
      have loads : Promises survey.store.view (loadLeaf page)
          (fun other after => other = leaf ∧ after = survey.store.view) fun _ _ => False :=
        .loadLeaf_of found ⟨rfl, rfl⟩
      refine .bind (ends_onStore loads fun other store read => ?_)
      obtain ⟨rfl, same⟩ := read
      refine .bind (((noting_calm enclosed).surveyAscent page before other.keys
        { survey with store } same).mono fun last after same' => ?_)
      have onwards := nextAt_leaf found
      have here : ∀ branch, survey.store.view.nodes page ≠ .ok (.branch branch) := by
        intro branch found'
        cases found.symm.trans found'
      cases follows : other.next with
      | none =>
        have ended : surveyLeaves budget last none = pure () := by cases budget <;> rfl
        rw [ended]
        intro steps _ page' branch visited
        cases steps with
        | zero =>
          cases visited
          exact here branch
        | succ steps =>
          rw [visit, onwards, follows] at visited
          cases visited
      | some next =>
        rw [follows] at onwards
        refine (ih (enclosed.of_next inUse found follows) last same').weaken ?_ ?_
        · intro _ _ leaves steps within page' branch visited
          cases steps with
          | zero =>
            cases visited
            exact here branch
          | succ steps =>
            rw [visit_succ onwards] at visited
            exact leaves steps (Nat.lt_of_succ_lt_succ within) page' branch visited
        · rintro fault _ ⟨stop, steps, page', branch, visited, found'⟩
          rw [← visit_succ onwards] at visited
          exact ⟨stop, steps + 1, page', branch, visited, found'⟩

/-- Going down from the root, a circle to the left is noted at least. -/
theorem ends_surveyPages_root {root : PageNumber} {range : KeyRange} (enclosed : view.Enclosed)
    (inUse : root.toNat < view.pagesInUse) (same : survey.store.view = view) (budget : Nat) :
    Ends survey (surveyPages budget 1 none (root, range))
      (fun _ after => after.store.view = view ∧ (Revisits (leftAt view.nodes) root → ¬after.Clean))
      fun _ _ => False := by
  have calm : Calm view (surveyPages budget 1 none (root, range)) :=
    (noting_calm enclosed).surveyPages budget 1 none inUse
  have ends := calm survey same
  refine .intro (fun _ after run => ⟨ends.of_ok run, fun around clean => ?_⟩)
    fun fault after run => ends.of_error run
  obtain ⟨-, levels⟩ := of_surveyPages run clean
  obtain ⟨height, -, -, -, ordered⟩ :=
    (levels (after.depthOfLeaves.getD 0) fun depth is => by rw [is]; rfl).2
  obtain ⟨first, rest, -, ends⟩ := ordered.endsAt_head
  rw [same] at ends
  exact ends.not_revisits around

end Survey

open Survey

/-! ## Whole checks -/

/-- Every page in use can be read and is well-shaped, and its references stay among these pages. -/
structure View.Legible (view : View) : Prop where
  enclosed : view.Enclosed
  shaped : ∀ page node, page.toNat < view.pagesInUse → view.nodes page = .ok node →
    node.WellShaped

theorem View.Legible.descends_left {view : View} (legible : view.Legible) :
    Descends view (·.children.head?) (leftAt view.nodes) :=
  legible.enclosed.descends_left fun page branch inUse found =>
    legible.shaped page (.branch branch) inUse found

namespace Tree

/-- What a check makes of a tree whatever its references are. It ends with a fault exactly if the
way down to the left is a circle or the way along the leaves from there comes to a branch, and the
circle was noted before it ended the check. Otherwise it answers, and does not call a tree sound of
which some way goes wrong. -/
structure Reports (tree : Tree) (store : Store) : Prop where
  stops_iff : (∃ page defect, (tree.check store).verdict = .error (.corrupt page defect)) ↔
    Derails store.peek tree.root
  answers : ¬Derails store.peek tree.root → ∃ sound, (tree.check store).verdict = .ok sound ∧
    (Tangled store.peek tree.root → sound = false)
  noted : Revisits (leftAt store.peek) tree.root → (tree.check store).violations ≠ []

section Reports

variable {tree : Tree} {store : Store} (legible : store.view.Legible)
  (inUse : tree.root.toNat < store.pagesInUse)
include legible inUse

/-- **A survey of readable pages stops exactly where a scan would be stopped by its references**,
but for circles along the leaves. -/
theorem ends_survey :
    Ends { store } tree.survey (fun _ _ => ¬Derails store.peek tree.root)
      (fun fault after => (∃ page defect, fault = .corrupt page defect) ∧
        Derails store.peek tree.root ∧
        (Revisits (leftAt store.peek) tree.root → ¬after.Clean)) := by
  have enclosed := legible.enclosed
  have left := legible.descends_left
  apply Ends.bind
  apply ends_onStore (.countPages ⟨rfl, rfl⟩ : Promises store.view countPages
    (fun count view => count = store.pagesInUse ∧ view = store.view) fun _ _ => False)
  rintro budget counted ⟨rfl, same⟩
  refine .bind ((ends_surveyPages_root enclosed inUse same _).mono ?_)
  rintro _ below ⟨sameBelow, noted⟩
  obtain ⟨root, found, -⟩ := enclosed tree.root inUse
  refine .bind (ends_load (sameBelow ▸ found) fun loaded sameLoaded => ?_)
  refine .bind ((ends_noteIf _ _).mono ?_)
  rintro _ marked ⟨kept, clean⟩
  have sameMarked : marked.store.view = store.view :=
    (congrArg view kept).trans (sameLoaded.trans sameBelow)
  -- The leaf with the smallest keys is looked for as in a search.
  have search : Follows store.view tree.firstLeaf (leftAt store.peek) tree.root store.pagesInUse
      fun pages page => pages.getLast? = some page :=
    .bind (.countPages (left.descendWithin inUse store.pagesInUse))
  refine .bind (ends_onStore_cases (sameMarked ▸ search) ?_ ?_)
  · rintro first reached ⟨sameReached, way⟩
    have ends : EndsAt (leftAt store.peek) tree.root first := way
    obtain ⟨inUse', leaf, -⟩ := left.exists_leaf inUse ends
    refine (ends_surveyLeaves enclosed inUse' _ none (sameReached.trans sameMarked)).weaken ?_ ?_
    · rintro _ after leaves (around | ⟨first', ends', steps, page, branch, visited, isBranch⟩)
      · exact ends.not_revisits around
      · obtain ⟨-, -, -, only⟩ := ends.exists_visit
        cases only first' ends'
        have within := enclosed.steps_to_branch_lt inUse' visited isBranch
        exact leaves steps within page branch visited isBranch
    · rintro fault after ⟨stop, strays⟩
      exact ⟨stop, .inr ⟨first, ends, strays⟩, fun around => absurd around ends.not_revisits⟩
  · rintro fault reached ⟨-, far, stop⟩
    have around := revisits_of_visit left.inside inUse far
    exact ⟨stop, .inl around, fun _ none => noted around (clean none)⟩

/-- **A check answers unless the ways that it takes as a search go wrong**, and calls no tree sound
of which some way goes wrong. -/
theorem reports : Reports tree store := by
  have ends := ends_survey legible inUse
  cases run : tree.survey { store } with
  | ok _ after =>
    have onWay := ends.of_ok run
    have verdict : (tree.check store).verdict = .ok after.violations.isEmpty := by rw [check, run]
    refine ⟨?_, fun _ => ⟨_, verdict, fun tangled => ?_⟩, fun around => absurd (.inl around) onWay⟩
    · refine iff_of_false ?_ onWay
      rintro ⟨page, defect, stops⟩
      cases verdict.symm.trans stops
    · refine Bool.eq_false_iff.mpr fun whole => ?_
      obtain ⟨height, chain, passes⟩ := check_verdict_iff.mp (whole ▸ verdict)
      exact passes.not_tangled tangled
  | error fault after =>
    obtain ⟨⟨page, defect, rfl⟩, derails, noted⟩ := ends.of_error run
    have verdict : (tree.check store).verdict = .error (.corrupt page defect) := by rw [check, run]
    have violations : (tree.check store).violations = after.violations.toList := by rw [check, run]
    refine ⟨iff_of_true ⟨page, defect, verdict⟩ derails, fun onWay => absurd derails onWay, ?_⟩
    rw [violations]
    exact fun around none => noted around (Array.toList_eq_nil_iff.mp none)

end Reports

/-- The two leaves that follow each other are noted, and the check answers. -/
theorem reports_circling :
    circling.view.Legible ∧ Reports { root := 2 } circling ∧ Tangled circling.peek 2 ∧
      (Tree.check { root := 2 } circling).verdict = .ok false := by
  have legible : circling.view.Legible := by
    refine ⟨walkable_circling.enclosed, fun page node inUse => ?_⟩
    revert page
    refine forall_inUse_circling ?_ ?_ ?_
    all_goals
      intro found
      cases found
      rfl
  have around : Tangled circling.peek 2 := by
    have down : EndsAt (leftAt circling.peek) 2 0 :=
      ⟨[2, 0], (visits_singleton rfl).cons rfl, rfl⟩
    exact .leaves down ⟨0, 2, 0, by decide, rfl, rfl⟩
  exact ⟨legible, reports legible (by decide), around, rfl⟩

/-- A store with a branch that is its own child. -/
def looping : Store where
  slots := #[some (.branch { rootMark := true, children := [0] })]
  limit := 100

/-- The check notes the circle, and then is ended by it. -/
theorem check_looping :
    looping.view.Legible ∧
      (Tree.check { root := 0 } looping).violations = [.tooDeep 0] ∧
      (Tree.check { root := 0 } looping).verdict = .error (.corrupt 0 .referenceCycle) := by
  have only : ∀ page : PageNumber, page.toNat < looping.view.pagesInUse → page = 0 := by
    intro page inUse
    have inUse : page.toNat < 1 := inUse
    exact UInt32.toNat_inj.mp (by rw [UInt32.toNat_zero]; omega)
  refine ⟨⟨fun page inUse => ?_, fun page node inUse found => ?_⟩, rfl, rfl⟩
  · cases only page inUse
    exact ⟨_, rfl, List.forall_mem_singleton.mpr (by decide)⟩
  · cases only page inUse
    cases found
    rfl

end Tree

end RowStore
