import RowStore.Proofs.Tree.Ordered
import RowStore.Proofs.Tree.Runs
import RowStore.Tree.Check

/-!
# Trees that pass the check

The check of a tree notes nothing when the tree is as the check asks (`Passes.check`), so
in particular on a tree that stands in its store as it should (`Tree.Holds.check`).
Going down, keys ascend within their range, so the check of the keys is no computation at
all (`Survey.surveyKeys_eq_pure`), and all leaves are met at the depth of the first one
(`Ordered.surveyPages`). Going along the leaves, the keys of each leaf go on after those
of the leaf before (`Linked.surveyLeaves`).
-/

set_option autoImplicit false

namespace RowStore

/-! ## Keys that ascend after a key -/

theorem pairwise_toList_append_nil (before : Option Key) :
    (before.toList ++ []).Pairwise (· < ·) := by
  cases before <;> simp

theorem pairwise_toList_append_cons {before : Option Key} {key : Key} {keys : List Key} :
    (before.toList ++ key :: keys).Pairwise (· < ·) ↔
      (before.any fun last => key ≤ last) = false ∧ (key :: keys).Pairwise (· < ·) := by
  cases before with
  | none => simp
  | some last =>
    simp only [Option.toList_some, List.singleton_append, Option.any_some,
      decide_eq_false_iff_not, Int32.not_le]
    rw [List.pairwise_cons]
    constructor
    · rintro ⟨before, ascending⟩
      exact ⟨before key List.mem_cons_self, ascending⟩
    · rintro ⟨less, ascending⟩
      refine ⟨fun other member => ?_, ascending⟩
      rcases List.mem_cons.mp member with rfl | later
      · exact less
      · exact Int32.lt_trans less ((List.pairwise_cons.mp ascending).1 other later)

/-- Keys go on after others when they go on after the last of them. -/
theorem pairwise_getLast?_append {keys others : List Key} (ascending : keys.Pairwise (· < ·)) :
    (keys.getLast?.toList ++ others).Pairwise (· < ·) ↔ (keys ++ others).Pairwise (· < ·) := by
  rcases List.eq_nil_or_concat keys with rfl | ⟨front, last, rfl⟩
  · rfl
  · rw [List.concat_eq_append] at ascending ⊢
    rw [List.getLast?_concat, Option.toList_some, List.append_assoc]
    obtain ⟨inFront, -, follow⟩ := List.pairwise_append.mp ascending
    constructor
    · intro onwards
      refine List.pairwise_append.mpr ⟨inFront, onwards, fun key member other beyond => ?_⟩
      have less := follow key member last List.mem_cons_self
      rcases List.mem_cons.mp beyond with rfl | later
      · exact less
      · exact Int32.lt_trans less ((List.pairwise_cons.mp onwards).1 other later)
    · exact fun whole => (List.pairwise_append.mp whole).2.1

namespace Survey

/-! ## Parts of a survey that note nothing -/

/-- The survey has gone on without a change of the store or a violation. -/
structure Quiet (before after : Survey) : Prop where
  view : after.store.view = before.store.view
  violations : after.violations = before.violations

theorem Quiet.refl (survey : Survey) : survey.Quiet survey := ⟨rfl, rfl⟩

theorem Quiet.trans {first second third : Survey} (early : first.Quiet second)
    (late : second.Quiet third) : first.Quiet third :=
  ⟨late.view.trans early.view, late.violations.trans early.violations⟩

/-- A computation on the store leaves the rest of a survey alone. -/
theorem ends_onStore {α : Type} {survey : Survey} {action : StoreM α} {found : α → View → Prop}
    {done : α → Survey → Prop} {failed : Fault → Survey → Prop}
    (promise : Promises survey.store.view action found fun _ _ => False)
    (ofDone : ∀ value store, found value store.view → done value { survey with store }) :
    Ends survey (onStore action) done failed := by
  obtain ⟨value, store, run, holds⟩ := promise.exists_ok
  rw [Ends, onStore, run]
  exact ofDone value store holds

theorem noteIf_false (violation : Violation) : noteIf false violation = pure () := rfl

variable {range : KeyRange} {page : PageNumber}

/-- Keys that ascend within their range are in order. -/
theorem surveyKeys_eq_pure (before : Option Key) {keys : List Key}
    (ascending : (before.toList ++ keys).Pairwise (· < ·))
    (within : ∀ key ∈ keys, range.contains key = true) (position : Nat) :
    surveyKeys page range position before keys = pure () := by
  induction keys generalizing position before with
  | nil => rfl
  | cons key keys ih =>
    obtain ⟨ascends, ascending⟩ := pairwise_toList_append_cons.mp ascending
    have inside : (!range.contains key) = false := by
      rw [within key List.mem_cons_self]
      rfl
    rw [surveyKeys, ascends, inside, noteIf_false, noteIf_false, pure_bind, pure_bind]
    have inRange : ∀ other ∈ keys, range.contains other = true := fun other member =>
      within other (List.mem_cons_of_mem _ member)
    exact ih (some key) ascending inRange _

theorem surveyKeys_of_separates {keys : List Key} (separates : range.Separates keys) :
    surveyKeys page range 0 none keys = pure () :=
  surveyKeys_eq_pure none separates.ascending separates.within 0

/-- Keys that ascend after a key go on to the last of them. -/
theorem surveyAscent_eq_pure {before : Option Key} {keys : List Key}
    (ascending : (before.toList ++ keys).Pairwise (· < ·)) :
    surveyAscent page before keys = pure (before.toList ++ keys).getLast? := by
  induction keys generalizing before with
  | nil => cases before <;> rfl
  | cons key keys ih =>
    obtain ⟨ascends, ascending⟩ := pairwise_toList_append_cons.mp ascending
    have rest : surveyAscent page (some key) keys = pure (key :: keys).getLast? := ih ascending
    cases before with
    | none => exact rest
    | some last =>
      rw [Option.any_some] at ascends
      rw [surveyAscent, ascends, noteIf_false, pure_bind, rest, Option.toList_some,
        List.singleton_append, List.getLast?_cons_cons]

/-! ## Down the tree -/

/-- No leaf was met yet, or leaves were met at the given depth. -/
def AtDepth (survey : Survey) (depth : Nat) : Prop :=
  ∀ found ∈ survey.depthOfLeaves, found = depth

theorem ends_surveyLeaf {survey : Survey} {leaf : Leaf} {depth : Nat}
    (matched : leaf.values.length = leaf.keys.length) (separates : range.Separates leaf.keys)
    (level : survey.AtDepth depth) :
    Ends survey (surveyLeaf page range depth leaf)
      (fun _ after => survey.Quiet after ∧ after.AtDepth depth) fun _ _ => False := by
  have counts : (leaf.keys.length != leaf.values.length) = false := by
    rw [matched]
    simp
  rw [surveyLeaf, surveyKeys_of_separates separates, counts, noteIf_false,
    pure_bind, pure_bind]
  refine .bind (.get ?_)
  split
  next => exact ⟨⟨rfl, rfl⟩, fun found is => (Option.some.inj is).symm⟩
  next expected is =>
    rw [level expected is, bne_self_eq_false, noteIf_false]
    exact ⟨.refl survey, level⟩

/-- A step that notes nothing at any place notes nothing along all of them. -/
theorem ends_forM {view : View} {depth : Nat} {places : List Region} {step : Region → SurveyM Unit}
    (each : ∀ place ∈ places, ∀ survey : Survey, survey.store.view = view →
      survey.AtDepth depth → Ends survey (step place)
        (fun _ after => survey.Quiet after ∧ after.AtDepth depth) fun _ _ => False)
    {survey : Survey} (same : survey.store.view = view) (level : survey.AtDepth depth) :
    Ends survey (places.forM step)
      (fun _ after => survey.Quiet after ∧ after.AtDepth depth) fun _ _ => False := by
  induction places generalizing survey with
  | nil => exact ⟨.refl survey, level⟩
  | cons place places ih =>
    show Ends survey (step place >>= fun _ => places.forM step) _ _
    apply Ends.bind
    apply (each place List.mem_cons_self survey same level).mono
    rintro _ after ⟨quiet, level'⟩
    have rest := ih (fun other later => each other (List.mem_cons_of_mem _ later))
      (quiet.view.trans same) level'
    apply rest.mono
    rintro _ last ⟨quiet', level''⟩
    exact ⟨quiet.trans quiet', level''⟩

theorem ends_load {survey : Survey} {node : Node} {done : Node → Survey → Prop}
    {failed : Fault → Survey → Prop} (found : survey.store.view.nodes page = .ok node)
    (holds : ∀ store : Store, store.view = survey.store.view → done node { survey with store }) :
    Ends survey (onStore (Store.load page)) done failed := by
  have promise : Promises survey.store.view (Store.load page)
      (fun other after => other = node ∧ after = survey.store.view) (fun _ _ => False) :=
    .load_of found ⟨rfl, rfl⟩
  apply ends_onStore promise
  rintro other store ⟨rfl, same⟩
  exact holds store same

/-- A page that hangs where it should is checked as the node it is. -/
theorem ends_surveyPages {survey : Survey} {node : Node} {parent : Option PageNumber}
    {budget depth : Nat} {done : Unit → Survey → Prop}
    (hangs : Hangs survey.store.view.nodes parent page)
    (found : survey.store.view.nodes page = .ok node)
    (rest : ∀ store : Store, store.view = survey.store.view → Ends { survey with store }
      (match node with
        | .leaf leaf => surveyLeaf page range depth leaf
        | .branch branch => do
          surveyKeys page range 0 none branch.separators
          if branch.children.length = branch.separators.length + 1 then
            (branch.children.zip (range.cut branch.separators)).forM
              (surveyPages budget (depth + 1) (some page))
          else
            note (.childCounts page branch.separators.length branch.children.length))
      done fun _ _ => False) :
    Ends survey (surveyPages (budget + 1) depth parent (page, range)) done fun _ _ => False := by
  obtain ⟨present, found', hung, marked⟩ := hangs
  cases found.symm.trans found'
  have child : (node.parent != parent) = false := by
    rw [hung, bne_self_eq_false]
  have unmarked : (parent.isSome && node.rootMark) = false := by
    rw [marked]
    cases parent <;> rfl
  rw [surveyPages]
  apply Ends.bind
  apply ends_load found
  intro store same
  rw [child, unmarked, noteIf_false, noteIf_false, pure_bind, pure_bind]
  exact rest store same

end Survey

open Store Survey

/-- An ordered tree is in order from a page down, with its leaves at one depth. -/
theorem Ordered.surveyPages {view : View} {height : Nat} {parent : Option PageNumber}
    {region : Region} (ordered : Ordered view.nodes height region)
    (hangs : Hangs view.nodes parent region.1) {budget depth bottom : Nat}
    (enough : height ≤ budget) (levels : depth + height = bottom + 1) {survey : Survey}
    (same : survey.store.view = view) (level : survey.AtDepth bottom) :
    Ends survey (Survey.surveyPages budget depth parent region)
      (fun _ after => survey.Quiet after ∧ after.AtDepth bottom) fun _ _ => False := by
  induction ordered generalizing parent budget depth survey with
  | @leaf region leaf found matched separates =>
    obtain ⟨page, range⟩ := region
    obtain ⟨budget, rfl⟩ : ∃ fewer, budget = fewer + 1 := ⟨budget - 1, by omega⟩
    have atBottom : depth = bottom := by omega
    subst atBottom
    subst same
    apply ends_surveyPages hangs found
    intro store same
    have level' : AtDepth { survey with store } depth := level
    apply (ends_surveyLeaf matched separates level').mono
    rintro _ after ⟨quiet, reached⟩
    exact ⟨⟨quiet.view.trans same, quiet.violations⟩, reached⟩
  | @branch height region branch found matched separates hang below ih =>
    obtain ⟨page, range⟩ := region
    obtain ⟨budget, rfl⟩ : ∃ fewer, budget = fewer + 1 := ⟨budget - 1, by omega⟩
    subst same
    apply ends_surveyPages hangs found
    intro store same
    dsimp only
    rw [surveyKeys_of_separates separates, pure_bind, if_pos matched]
    have children : ∀ place ∈ branch.regions range, ∀ other : Survey,
        other.store.view = survey.store.view → other.AtDepth bottom →
        Ends other (Survey.surveyPages budget (depth + 1) (some page) place)
          (fun _ after => other.Quiet after ∧ after.AtDepth bottom) fun _ _ => False := by
      intro place member other same' level'
      exact ih place member (hang place member) (by omega) (by omega) same' level'
    have level' : AtDepth { survey with store } bottom := level
    apply (ends_forM children same level').mono
    rintro _ after ⟨quiet, reached⟩
    exact ⟨⟨quiet.view.trans same, quiet.violations⟩, reached⟩

/-! ## Along the leaves -/

/-- The keys of linked leaves that ascend as a whole are in order. -/
theorem Linked.surveyLeaves {view : View} {pages : List PageNumber} {start : Option PageNumber}
    {budget : Nat} {before : Option Key} (linked : Linked view.nodes start pages)
    (enough : pages.length ≤ budget)
    (ascending : (before.toList ++ pages.flatMap (keysAt view.nodes)).Pairwise (· < ·))
    {survey : Survey} (same : survey.store.view = view) :
    Ends survey (Survey.surveyLeaves budget before start) (fun _ after => survey.Quiet after)
      fun _ _ => False := by
  induction pages generalizing start budget before survey with
  | nil =>
    rw [show start = none from linked]
    cases budget <;> exact .refl survey
  | cons page pages ih =>
    obtain ⟨rfl, leaf, found, linked⟩ := linked
    obtain ⟨budget, rfl⟩ : ∃ fewer, budget = fewer + 1 :=
      ⟨budget - 1, by rw [List.length_cons] at enough; omega⟩
    rw [List.flatMap_cons, keysAt_leaf found, ← List.append_assoc] at ascending
    have here := (List.pairwise_append.mp ascending).1
    have onwards := (pairwise_getLast?_append here).mpr ascending
    have promise : Promises survey.store.view (loadLeaf page)
        (fun other after => other = leaf ∧ after = survey.store.view) (fun _ _ => False) :=
      .loadLeaf_of (same ▸ found) ⟨rfl, rfl⟩
    rw [Survey.surveyLeaves]
    apply Ends.bind
    apply ends_onStore promise
    rintro other store ⟨rfl, unchanged⟩
    rw [surveyAscent_eq_pure here, pure_bind]
    have rest := @ih other.next budget _ linked (Nat.le_of_succ_le_succ enough) onwards
      { survey with store } (unchanged.trans same)
    apply rest.mono
    intro _ last quiet
    exact ⟨quiet.view.trans unchanged, quiet.violations⟩

/-! ## Whole trees -/

namespace Passes

variable {tree : Tree} {store : Store} {height : Nat} {chain : List PageNumber}

/-- The survey of a tree that is as the check asks notes nothing. -/
theorem survey (passes : Passes store.view tree.root height chain) :
    Ends { store } tree.survey (fun _ after => Quiet { store } after) fun _ _ => False := by
  apply Ends.bind
  apply ends_onStore (.countPages ⟨rfl, rfl⟩ : Promises store.view countPages
    (fun count view => count = store.pagesInUse ∧ view = store.view) fun _ _ => False)
  rintro budget counted ⟨rfl, same⟩
  -- From the root down.
  apply Ends.bind
  have level : AtDepth { store := counted } height :=
    fun found is => absurd is (Option.not_mem_none found)
  apply (passes.ordered.surveyPages passes.hangs passes.shallow (Nat.add_comm 1 _) same level).mono
  rintro _ below ⟨quietBelow, -⟩
  have sameBelow : below.store.view = store.view := quietBelow.view.trans same
  apply Ends.bind
  obtain ⟨node, found, -, marked⟩ := passes.hangs
  apply ends_load (sameBelow ▸ found)
  intro loaded sameLoaded
  rw [marked, Option.isNone_none, Bool.not_true, noteIf_false, pure_bind]
  -- Along the leaves.
  apply Ends.bind
  obtain ⟨first, linked, promise⟩ := passes.firstLeaf
  have sameThere : loaded.view = store.view := sameLoaded.trans sameBelow
  apply ends_onStore (sameThere ▸ promise)
  rintro page reached ⟨rfl, sameReached⟩
  have sameHere : reached.view = store.view := sameReached.trans sameThere
  have ascending : ((none : Option Key).toList ++
      chain.flatMap (keysAt store.view.nodes)).Pairwise (· < ·) := passes.ascending
  apply (linked.surveyLeaves passes.short ascending sameHere).mono
  intro _ last quiet
  exact ⟨quiet.view.trans sameHere, quiet.violations.trans quietBelow.violations⟩

/-- A tree that is as the check asks passes it. -/
theorem check (passes : Passes store.view tree.root height chain) :
    (tree.check store).verdict = .ok true ∧ (tree.check store).violations = [] := by
  obtain ⟨_, after, run, done⟩ := passes.survey.exists_ok
  have none : after.violations = #[] := done.violations
  rw [Tree.check, run]
  simp [none]

end Passes

/-- **A tree passes the check.** -/
theorem Tree.Holds.check {tree : Tree} {store : Store} {cells : List (Key × Bytes)}
    (holds : tree.Holds store.view cells) :
    (tree.check store).verdict = .ok true ∧ (tree.check store).violations = [] := by
  obtain ⟨regular, levels, row, above, layout, -⟩ := holds
  exact layout.passes.check

end RowStore
