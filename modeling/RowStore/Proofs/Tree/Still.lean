import RowStore.Proofs.Store.View
import RowStore.Proofs.Tree.Loading
import RowStore.Tree.Check

/-!
# Walks change nothing

Whatever the references between pages are, a walk through them only brings pages into
memory, which cannot be seen (`Store.loading_still`). A check of a tree looks at pages and notes
what it finds elsewhere (`Survey.Noting`), so it keeps what loading a page keeps
(`Tree.preserves_survey`).
-/

set_option autoImplicit false

namespace RowStore

open Store

/-! ## Walks -/

/-- Loading cannot be seen. -/
theorem Store.loading_still : Loading fun _ => Still view where
  pure := .pure
  throw := fun aboutPage => .throw (Fault.isDeclared_of_aboutPage aboutPage)
  bind := .bind
  load := by
    rintro id _ store rfl
    have promise : Promises store.view (load id) (fun _ after => after = store.view)
        fun fault after => after = store.view ∧ fault.isDeclared = true :=
      .load (fun _ _ => rfl) fun _ _ aboutPage =>
        ⟨rfl, Fault.isDeclared_of_aboutPage aboutPage⟩
    exact promise store rfl
  countPages := .get fun _ => .pure _

/-- A walk keeps what loading a page keeps. -/
theorem Store.loading_preserves {invariant : Store → Prop}
    (load : ∀ id, Preserves (·.isDeclared) invariant (load id)) :
    Loading fun _ => Preserves (·.isDeclared) invariant where
  pure := .pure
  throw := fun aboutPage => .throw (Fault.isDeclared_of_aboutPage aboutPage)
  bind := .bind
  load := load
  countPages := .get fun _ _ => .pure _

/-! ## Checks -/

namespace Survey

variable {allowed : Fault → Prop} {invariant : Store → Prop}

/-- The invariant holds of the store in the course of a survey. -/
def Keeps (invariant : Store → Prop) (survey : Survey) : Prop := invariant survey.store

theorem preserves_onStore {α : Type} {action : StoreM α}
    (preserves : Preserves allowed invariant action) :
    Preserves allowed (Keeps invariant) (onStore action) := by
  intro survey holds
  have ends := preserves survey.store holds
  unfold Ends onStore
  cases run : action survey.store with
  | ok value store => exact ends.of_ok run
  | error fault store => exact ends.of_error run

/-- The property is one of noting what is found, of looking at a page that is known, where the
children that are found there are known too, and of what is put together from that. -/
structure Noting (known : PageNumber → Prop) (holds : (α : Type) → SurveyM α → Prop) : Prop where
  pure : ∀ {α : Type} (value : α), holds α (pure value)
  bind : ∀ {α β : Type} {first : SurveyM β} {next : β → SurveyM α}, holds β first →
    (∀ value, holds α (next value)) → holds α (first >>= next)
  get : ∀ {α : Type} {next : Survey → SurveyM α}, (∀ survey, holds α (next survey)) →
    holds α (get >>= next)
  note : ∀ violation, holds Unit (note violation)
  setDepth : ∀ depth, holds Unit
    (modify fun survey => { survey with depthOfLeaves := some depth })
  visit : ∀ {α : Type} {page : PageNumber} {next : Node → SurveyM α}, known page →
    (∀ node, (∀ branch, node = .branch branch → ∀ child ∈ branch.children, known child) →
      holds α (next node)) → holds α (onStore (load page) >>= next)

namespace Noting

variable {known : PageNumber → Prop} {holds : (α : Type) → SurveyM α → Prop}
  (noting : Noting known holds)
include noting

theorem noteIf (condition : Bool) (violation : Violation) :
    holds Unit (noteIf condition violation) := by
  cases condition with
  | true => exact noting.note violation
  | false => exact noting.pure ()

theorem surveyKeys (page : PageNumber) (range : KeyRange) (position : Nat) (before : Option Key)
    (keys : List Key) : holds Unit (surveyKeys page range position before keys) := by
  induction keys generalizing position before with
  | nil => exact noting.pure ()
  | cons key keys ih =>
    exact noting.bind (noting.noteIf _ _) fun _ => noting.bind (noting.noteIf _ _) fun _ =>
      ih (position + 1) (some key)

theorem surveyLeaf (page : PageNumber) (range : KeyRange) (depth : Nat) (leaf : Leaf) :
    holds Unit (surveyLeaf page range depth leaf) := by
  refine noting.bind (noting.surveyKeys page range 0 none leaf.keys) fun _ =>
    noting.bind (noting.noteIf _ _) fun _ => ?_
  refine noting.get fun survey => ?_
  cases survey.depthOfLeaves with
  | none => exact noting.setDepth depth
  | some expected => exact noting.noteIf _ _

theorem forM {α : Type} {step : α → SurveyM Unit} {places : List α}
    (each : ∀ place ∈ places, holds Unit (step place)) : holds Unit (places.forM step) := by
  induction places with
  | nil => exact noting.pure ()
  | cons place places ih =>
    obtain ⟨first, others⟩ := List.forall_mem_cons.mp each
    exact noting.bind first fun _ => ih others

theorem surveyPages (budget depth : Nat) (parent : Option PageNumber)
    {place : PageNumber × KeyRange} (here : known place.1) :
    holds Unit (surveyPages budget depth parent place) := by
  induction budget generalizing depth parent place with
  | zero => exact noting.note _
  | succ budget ih =>
    obtain ⟨page, range⟩ := place
    refine noting.visit here fun node below => ?_
    refine noting.bind (noting.noteIf _ _) fun _ => noting.bind (noting.noteIf _ _) fun _ => ?_
    cases node with
    | leaf leaf => exact noting.surveyLeaf page range depth leaf
    | branch branch =>
      refine noting.bind (noting.surveyKeys page range 0 none branch.separators) fun _ => ?_
      split
      · refine noting.forM fun place member => ih (depth + 1) (some page) ?_
        exact below branch rfl place.1 (List.of_mem_zip member).1
      · exact noting.note _

theorem surveyAscent (page : PageNumber) (before : Option Key) (keys : List Key) :
    holds (Option Key) (surveyAscent page before keys) := by
  induction keys generalizing before with
  | nil => exact noting.pure before
  | cons key keys ih =>
    cases before with
    | none => exact ih (some key)
    | some last => exact noting.bind (noting.noteIf _ _) fun _ => ih (some key)

end Noting

variable (loading : Loading fun _ => Preserves allowed invariant)
include loading

/-- A check keeps what loading a page keeps. -/
theorem noting_preserves : Noting (fun _ => True) fun _ => Preserves allowed (Keeps invariant) where
  pure := .pure
  bind := .bind
  get := fun later => .get fun survey _ => later survey
  note := fun _ => .modify fun _ holds => holds
  setDepth := fun _ => .modify fun _ holds => holds
  visit := fun _ later => .bind (preserves_onStore (loading.load _)) fun node =>
    later node fun _ _ _ _ => trivial

theorem preserves_surveyLeaves (budget : Nat) (before : Option Key) (page : Option PageNumber) :
    Preserves allowed (Keeps invariant) (surveyLeaves budget before page) := by
  have noting := noting_preserves loading
  induction budget generalizing before page with
  | zero =>
    cases page with
    | none => exact .pure ()
    | some page => exact noting.note _
  | succ budget ih =>
    cases page with
    | none => exact .pure ()
    | some page =>
      exact .bind (preserves_onStore (loading.loadLeaf page)) fun leaf =>
        .bind (noting.surveyAscent page before leaf.keys) fun last => ih last leaf.next

end Survey

namespace Tree

open Survey

/-- **Checking a tree keeps what loading a page keeps**, whatever is wrong with the tree. -/
theorem preserves_survey {allowed : Fault → Prop} {invariant : Store → Prop} (tree : Tree)
    (loading : Loading fun _ => Preserves allowed invariant) :
    Preserves allowed (Survey.Keeps invariant) tree.survey :=
  have noting := noting_preserves loading
  .bind (preserves_onStore loading.countPages) fun budget =>
    .bind (noting.surveyPages budget 1 none trivial) fun _ =>
    .bind (preserves_onStore (loading.load tree.root)) fun _ =>
    .bind (noting.noteIf _ _) fun _ =>
    .bind (preserves_onStore (loading.firstLeaf tree)) fun _ =>
      preserves_surveyLeaves loading budget none _

end Tree

end RowStore
