import RowStore.Proofs.Tree.Steps

/-!
# Enough pages for the cuts

Before an insertion changes anything, it counts the pages that the cuts will take,
along the parent references. The cuts follow these references too, but change some
of them on the way. The count holds all the same, on any store, whatever its
references are and whatever its file has beyond the pages in use: every change leads
to a branch with room, or to a page that is none, at the latest where the old
references did (`Eased`). So an insertion that has begun can only end early at a page
that is damaged (`Promises.attachWithin`).
-/

set_option autoImplicit false

namespace RowStore

open Store RowStore.Tree

/-- Whether the fault comes from a page that cannot be read or is not what it should be. -/
def Fault.isDamage : Fault → Bool
  | unreadable _ _ => true
  | corrupt _ _ => true
  | undefined _ => true
  | _ => false

theorem Fault.isDamage_of_aboutPage {fault : Fault} (aboutPage : fault.isAboutPage = true) :
    fault.isDamage = true := by
  cases fault <;> first | rfl | cases aboutPage

/-! ## The count -/

/-- The pages that a cut takes at the levels above, for a page with the given parent: one for each
branch without room, and one for a new root where nothing is above. -/
inductive PagesAbove (nodes : Nodes) : Option PageNumber → Nat → Prop where
  | root : PagesAbove nodes none 1
  | room {id : PageNumber} {branch : Branch} : nodes id = .ok (.branch branch) →
      branch.canGrow = true → PagesAbove nodes (some id) 0
  | full {id : PageNumber} {branch : Branch} {needed : Nat} :
      nodes id = .ok (.branch branch) → branch.canGrow = false →
      PagesAbove nodes branch.parent needed → PagesAbove nodes (some id) (needed + 1)

/-- There is one number of pages that a cut takes. -/
theorem PagesAbove.unique {nodes : Nodes} {parent : Option PageNumber} {needed other : Nat}
    (counted : PagesAbove nodes parent needed) (counted' : PagesAbove nodes parent other) :
    other = needed := by
  induction counted generalizing other with
  | root =>
    cases counted'
    rfl
  | room found room =>
    cases counted' with
    | room => rfl
    | full found' full =>
      cases found.symm.trans found'
      cases room.symm.trans full
  | full found full _ ih =>
    cases counted' with
    | room found' room =>
      cases found.symm.trans found'
      cases full.symm.trans room
    | full found' _ counted' =>
      cases found.symm.trans found'
      exact congrArg Nat.succ (ih counted')

/-- What counting finds, if it does not end at a page that is damaged. -/
theorem Promises.pagesAbove {view : View} (budget : Nat) (parent : Option PageNumber) :
    Promises view (Tree.pagesAbove budget parent)
      (fun needed after => after = view ∧ PagesAbove view.nodes parent needed)
      (fun fault after => after = view ∧ fault.isAboutPage = true) := by
  induction budget generalizing parent with
  | zero =>
    cases parent with
    | none => exact .pure ⟨rfl, .root⟩
    | some id => exact .throw ⟨rfl, rfl⟩
  | succ budget ih =>
    cases parent with
    | none => exact .pure ⟨rfl, .root⟩
    | some id =>
      refine .bind (.loadBranch (fun branch found => ?_) fun fault _ aboutPage =>
        ⟨rfl, aboutPage⟩)
      by_cases room : branch.canGrow = true
      · rw [if_pos room]
        exact .pure ⟨rfl, .room found room⟩
      · rw [if_neg room]
        refine .bind ((ih branch.parent).weaken ?_ fun _ _ failed => failed)
        rintro needed after ⟨rfl, above⟩
        exact .pure ⟨rfl, .full found (Bool.eq_false_iff.mpr room) above⟩

/-! ## Pages that suffice -/

/-- The cuts above a page with the given parent take at most so many pages, if they do not end
before at a page that is no branch. -/
inductive Suffices (nodes : Nodes) : Option PageNumber → Nat → Prop where
  | root (pages : Nat) : Suffices nodes none (pages + 1)
  | room {id : PageNumber} {branch : Branch} (pages : Nat) :
      nodes id = .ok (.branch branch) → branch.canGrow = true → Suffices nodes (some id) pages
  | full {id : PageNumber} {branch : Branch} {pages : Nat} :
      nodes id = .ok (.branch branch) → branch.canGrow = false →
      Suffices nodes branch.parent pages → Suffices nodes (some id) (pages + 1)
  | gone {id : PageNumber} (pages : Nat) : (∀ branch, nodes id ≠ .ok (.branch branch)) →
      Suffices nodes (some id) pages

/-- The pages that were counted suffice. -/
theorem PagesAbove.suffices {nodes : Nodes} {parent : Option PageNumber} {needed : Nat}
    (above : PagesAbove nodes parent needed) : Suffices nodes parent needed := by
  induction above with
  | root => exact .root 0
  | room found room => exact .room 0 found room
  | full found full _ ih => exact .full found full ih

theorem Suffices.mono {nodes : Nodes} {parent : Option PageNumber} {pages more : Nat}
    (enough : Suffices nodes parent pages) (le : pages ≤ more) : Suffices nodes parent more := by
  induction enough generalizing more with
  | root =>
    obtain ⟨more, rfl⟩ := Nat.exists_eq_add_one.mpr (Nat.lt_of_lt_of_le (Nat.succ_pos _) le)
    exact .root more
  | room _ found room => exact .room more found room
  | full found full _ ih =>
    obtain ⟨more, rfl⟩ := Nat.exists_eq_add_one.mpr (Nat.lt_of_lt_of_le (Nat.succ_pos _) le)
    exact .full found full (ih (Nat.le_of_succ_le_succ le))
  | gone _ absent => exact .gone more absent

/-- After the change, the pages that sufficed for the cuts still do. -/
def Eased (nodes nodes' : Nodes) : Prop :=
  ∀ parent pages, Suffices nodes parent pages → Suffices nodes' parent pages

theorem Eased.trans {first second third : Nodes} (early : Eased first second)
    (late : Eased second third) : Eased first third :=
  fun parent pages enough => late parent pages (early parent pages enough)

/-- It is enough that each branch has room afterwards, or stood there before with the same size and
the same parent, or has a parent with room. -/
theorem Eased.of_branches {nodes nodes' : Nodes}
    (change : ∀ page branch', nodes' page = .ok (.branch branch') → branch'.canGrow = true ∨
      ∃ branch, nodes page = .ok (.branch branch) ∧ branch'.canGrow = branch.canGrow ∧
        (branch'.parent = branch.parent ∨ Suffices nodes' branch'.parent 0)) :
    Eased nodes nodes' := by
  -- Where the new branch is full, it is an old one, so the pages sufficed there for one cut more.
  have onward : ∀ {id : PageNumber} {pages : Nat},
      (∀ branch, nodes id = .ok (.branch branch) → branch.canGrow = false →
        ∃ fewer, pages = fewer + 1 ∧ Suffices nodes' branch.parent fewer) →
      Suffices nodes' (some id) pages := by
    intro id pages further
    by_cases isBranch : ∃ branch', nodes' id = .ok (.branch branch')
    · obtain ⟨branch', found'⟩ := isBranch
      rcases Bool.eq_false_or_eq_true branch'.canGrow with room | full
      · exact .room pages found' room
      · obtain room | ⟨branch, found, same, onwards⟩ := change id branch' found'
        · cases full.symm.trans room
        · obtain ⟨fewer, rfl, above⟩ := further branch found (same.symm.trans full)
          refine .full found' full ?_
          rcases onwards with kept | relieved
          · exact kept ▸ above
          · exact relieved.mono (Nat.zero_le fewer)
    · exact .gone pages fun branch' found' => isBranch ⟨branch', found'⟩
  intro parent pages enough
  induction enough with
  | root pages => exact .root pages
  | room pages found room =>
    refine onward fun branch found' full => ?_
    cases found.symm.trans found'
    cases full.symm.trans room
  | full found _ _ ih =>
    refine onward fun branch found' _ => ?_
    cases found.symm.trans found'
    exact ⟨_, rfl, ih⟩
  | gone pages absent => exact onward fun branch found' _ => absurd found' (absent branch)

/-! ## The cuts -/

namespace View

/-- Every branch has one more child than separators and fits its page. -/
def BranchesFit (view : View) : Prop :=
  ∀ id branch, view.nodes id = .ok (.branch branch) →
    branch.children.length = branch.separators.length + 1 ∧ branch.size ≤ Page.size

/-- Waiting to be entered, a page is a leaf or a branch with room. -/
def Waiting (view : View) (upper : PageNumber) : Prop :=
  ∀ branch, view.nodes upper = .ok (.branch branch) → branch.canGrow = true

variable {view : View} {id upper parent : PageNumber} {branch : Branch} {node : Node}
  {ids : List PageNumber}

/-- A branch is what it was before pages got another parent, but for its own parent. -/
theorem exists_of_reparented
    (found : (view.reparented parent ids).nodes id = .ok (.branch branch)) :
    ∃ old, view.nodes id = .ok (.branch old) ∧
      (branch = old ∨ branch = { old with parent := some parent }) := by
  by_cases member : id ∈ ids
  · rw [nodes_reparented_of_mem member] at found
    cases stood : view.nodes id with
    | error fault => rw [stood] at found; cases found
    | ok node =>
      rw [stood] at found
      cases node with
      | leaf leaf => cases found
      | branch old =>
        cases found
        exact ⟨old, rfl, .inr rfl⟩
  · exact ⟨branch, (nodes_reparented_of_not_mem member).symm.trans found, .inl rfl⟩

theorem BranchesFit.reparented (fit : view.BranchesFit) :
    (view.reparented parent ids).BranchesFit := by
  intro page branch found
  obtain ⟨old, stood, rfl | rfl⟩ := exists_of_reparented found
  · exact fit page branch stood
  · exact fit page old stood

theorem nodes_reparented_branch (parent : PageNumber) (ids : List PageNumber)
    (found : view.nodes id = .ok (.branch branch)) :
    ∃ branch', (view.reparented parent ids).nodes id = .ok (.branch branch') ∧
      branch'.canGrow = branch.canGrow ∧
      (branch'.parent = branch.parent ∨ branch'.parent = some parent) := by
  by_cases member : id ∈ ids
  · refine ⟨{ branch with parent := some parent }, ?_, rfl, .inr rfl⟩
    rw [nodes_reparented_of_mem member, found]
    rfl
  · exact ⟨branch, (nodes_reparented_of_not_mem member).trans found, rfl, .inl rfl⟩

theorem nodes_divided_halves (branch : Branch) (apart : id ≠ view.fresh) :
    (∃ higher, (view.divided id branch).nodes view.fresh = .ok (.branch higher) ∧
      higher.canGrow = branch.divide.2.canGrow) ∧
    ∃ lower, (view.divided id branch).nodes id = .ok (.branch lower) ∧
      (lower.parent = branch.parent ∨ lower.parent = some view.fresh) := by
  have lowerFound : (view.split id (.branch branch.divide.1) (.branch branch.divide.2)).nodes id =
      .ok (.branch branch.divide.1) := nodes_split_self
  have higherFound : (view.split id (.branch branch.divide.1) (.branch branch.divide.2)).nodes
      view.fresh = .ok (.branch branch.divide.2) := nodes_split_fresh apart
  obtain ⟨higher, higherFound, same, -⟩ := nodes_reparented_branch view.fresh
    branch.divide.2.children higherFound
  obtain ⟨lower, lowerFound, -, onwards⟩ := nodes_reparented_branch view.fresh
    branch.divide.2.children lowerFound
  exact ⟨⟨higher, higherFound, same⟩, lower, lowerFound, onwards⟩

/-- The branches after the cut of a leaf stood there before. -/
theorem nodes_of_split {lower upper : Leaf} {page : PageNumber} (apart : id ≠ view.fresh)
    (found : (view.split id (.leaf lower) (.leaf upper)).nodes page = .ok (.branch branch)) :
    view.nodes page = .ok (.branch branch) := by
  by_cases isLower : page = id
  · subst isLower
    cases nodes_split_self.symm.trans found
  · by_cases isUpper : page = view.fresh
    · subst isUpper
      cases (nodes_split_fresh apart).symm.trans found
    · exact (nodes_split_of_ne isLower isUpper).symm.trans found

/-- A leaf can be cut without harm to the cuts above it. -/
theorem eased_split {lower upper : Leaf} (apart : id ≠ view.fresh) :
    Eased view.nodes (view.split id (.leaf lower) (.leaf upper)).nodes :=
  .of_branches fun _ branch found =>
    .inr ⟨branch, nodes_of_split apart found, rfl, .inl rfl⟩

theorem BranchesFit.split {lower upper : Leaf} (fit : view.BranchesFit)
    (apart : id ≠ view.fresh) : (view.split id (.leaf lower) (.leaf upper)).BranchesFit :=
  fun page branch found => fit page branch (nodes_of_split apart found)

/-- A new parent that has room takes no more pages. -/
theorem eased_reparented (ids : List PageNumber)
    (found : view.nodes parent = .ok (.branch branch)) (room : branch.canGrow = true) :
    Eased view.nodes (view.reparented parent ids).nodes := by
  obtain ⟨moved, present, same, -⟩ := nodes_reparented_branch parent ids found
  refine .of_branches fun page other otherFound => ?_
  obtain ⟨old, stood, rfl | rfl⟩ := exists_of_reparented otherFound
  · exact .inr ⟨other, stood, rfl, .inl rfl⟩
  · exact .inr ⟨old, stood, rfl, .inr (.room 0 present (same.trans room))⟩

/-- The halves of a branch without room that has taken another child both have room. -/
theorem BranchesFit.halves_canGrow (fit : view.BranchesFit)
    (found : view.nodes id = .ok (.branch branch)) (full : branch.canGrow = false)
    (separator : Key) (upper : PageNumber) :
    (branch.insert separator upper).divide.1.canGrow = true ∧
      (branch.insert separator upper).divide.2.canGrow = true := by
  obtain ⟨matched, small⟩ := fit id branch found
  have size := Branch.size_insert matched separator upper
  have large := (Branch.canGrow_eq_false_iff matched separator upper).mp full
  obtain ⟨⟨-, lower⟩, -, higher⟩ := Branch.canGrow_divide
    (Branch.matched_insert matched separator upper) large (by omega)
  exact ⟨lower, higher⟩

theorem Waiting.ne_of_full (waiting : view.Waiting upper)
    (found : view.nodes id = .ok (.branch branch)) (full : branch.canGrow = false) :
    id ≠ upper := by
  rintro rfl
  rw [waiting branch found] at full
  cases full

/-- What stands on the pages once a node is entered below a branch and the branch is cut. -/
theorem nodes_entered_split {page : PageNumber} {grown lower higher : Branch}
    (notFresh : page ≠ view.fresh) :
    ((view.entered id grown upper node).split id (.branch lower) (.branch higher)).nodes page =
      if page = id then .ok (.branch lower)
      else if page = upper then .ok (node.withParent (some id)) else view.nodes page := by
  by_cases isId : page = id
  · rw [isId, nodes_split_self, if_pos rfl]
  · have other : ((view.entered id grown upper node).split id (.branch lower)
        (.branch higher)).nodes page = (view.entered id grown upper node).nodes page :=
      nodes_split_of_ne isId notFresh
    rw [other, if_neg isId]
    by_cases isUpper : page = upper
    · rw [isUpper, if_pos rfl, entered, nodes_put_self]
    · rw [nodes_entered_of_ne isId isUpper, if_neg isUpper]

/-- A branch that stands there after the cut is one of the halves, the page that was entered, or
stood there before. -/
theorem branch_of_entered_split {page : PageNumber} {grown lower higher other : Branch}
    (present : view.nodes upper = .ok node) (apart : id ≠ view.fresh)
    (found : ((view.entered id grown upper node).split id (.branch lower)
      (.branch higher)).nodes page = .ok (.branch other)) :
    (other = lower ∨ other = higher) ∨
      (∃ below, view.nodes upper = .ok (.branch below) ∧
        other = { below with parent := some id }) ∨
      view.nodes page = .ok (.branch other) := by
  by_cases isFresh : page = view.fresh
  · subst isFresh
    have new : ((view.entered id grown upper node).split id (.branch lower)
        (.branch higher)).nodes view.fresh = .ok (.branch higher) := nodes_split_fresh apart
    cases new.symm.trans found
    exact .inl (.inr rfl)
  · rw [nodes_entered_split isFresh] at found
    split at found
    · cases found
      exact .inl (.inl rfl)
    · split at found
      · cases node with
        | leaf leaf => cases found
        | branch below =>
          cases found
          exact .inr (.inl ⟨below, present, rfl⟩)
      · exact .inr (.inr found)

section Full

variable (fit : view.BranchesFit) (waiting : view.Waiting upper)
  (found : view.nodes id = .ok (.branch branch)) (full : branch.canGrow = false)
  (present : view.nodes upper = .ok node) (apart : id ≠ view.fresh) (separator : Key)
include fit found full present apart

theorem branchesFit_divided :
    ((view.entered id (branch.insert separator upper) upper node).divided id
      (branch.insert separator upper)).BranchesFit := by
  have halves := fit.halves_canGrow found full separator upper
  obtain ⟨matched, -⟩ := fit id branch found
  have matched' := Branch.matched_insert matched separator upper
  have large := (Branch.canGrow_eq_false_iff matched separator upper).mp full
  have shapes := Branch.matched_divide (Branch.several_separators matched' large) matched'
  have fits : ∀ half : Branch, half.canGrow = true → half.size ≤ Page.size := fun half roomy =>
    Nat.le_of_add_right_le (of_decide_eq_true roomy)
  refine BranchesFit.reparented fun page other otherFound => ?_
  obtain (rfl | rfl) | ⟨below, stood, rfl⟩ | stood :=
    branch_of_entered_split present apart otherFound
  · exact ⟨shapes.1, fits _ halves.1⟩
  · exact ⟨shapes.2, fits _ halves.2⟩
  · exact fit upper below stood
  · exact fit page other stood

include waiting

/-- A cut branch leaves the cuts further up enough pages. -/
theorem eased_divided : Eased view.nodes
    ((view.entered id (branch.insert separator upper) upper node).divided id
      (branch.insert separator upper)).nodes := by
  have halves := fit.halves_canGrow found full separator upper
  refine Eased.trans (.of_branches fun page other otherFound => ?_)
    (eased_reparented _ (nodes_split_fresh apart) halves.2)
  obtain (rfl | rfl) | ⟨below, stood, rfl⟩ | stood :=
    branch_of_entered_split present apart otherFound
  · exact .inl halves.1
  · exact .inl halves.2
  · exact .inl (waiting below stood)
  · exact .inr ⟨other, stood, rfl, .inl rfl⟩

/-- The halves of the branch as they stand afterwards: the upper one waits to be entered, and above
the lower one as many pages suffice as above the whole. -/
theorem exists_halves {pages : Nat} (enough : Suffices view.nodes branch.parent pages) :
    ((view.entered id (branch.insert separator upper) upper node).divided id
      (branch.insert separator upper)).Waiting view.fresh ∧
    ∃ lower, ((view.entered id (branch.insert separator upper) upper node).divided id
        (branch.insert separator upper)).nodes id = .ok (.branch lower) ∧
      Suffices ((view.entered id (branch.insert separator upper) upper node).divided id
        (branch.insert separator upper)).nodes lower.parent pages := by
  have halves := fit.halves_canGrow found full separator upper
  obtain ⟨⟨higher, higherFound, same⟩, lower, lowerFound, onwards⟩ :=
    @nodes_divided_halves (view.entered id (branch.insert separator upper) upper node) id
      (branch.insert separator upper) apart
  have higherRoom : higher.canGrow = true := same.trans halves.2
  refine ⟨fun other otherFound => ?_, lower, lowerFound, ?_⟩
  · cases higherFound.symm.trans otherFound
    exact higherRoom
  · rcases onwards with kept | redirected
    · rw [kept]
      exact eased_divided fit waiting found full present apart separator _ _ enough
    · rw [redirected]
      exact .room pages higherFound higherRoom

end Full

end View

theorem Promises.growRoot {view : View} {lower upper : PageNumber} {separator : Key}
    (room : view.pagesInUse < view.limit.toNat) :
    Promises view (Tree.growRoot lower separator upper) (fun _ _ => True)
      (fun fault _ => fault.isAboutPage = true) := by
  refine .bind (.allocate (fun _ => ?_) fun full => absurd room (Nat.not_lt.mpr full))
  refine .bind (.update (fun _ _ => ?_) fun _ _ aboutPage => aboutPage)
  exact .bind (.update (fun _ _ => .pure trivial) fun _ _ aboutPage => aboutPage)

/-- **Entering a new page needs no more pages than were counted.** If it ends early, then at a page
that is damaged. -/
theorem Promises.attachWithin {tree : Tree} {view : View} {lower upper : PageNumber} {node : Node}
    {budget pages : Nat} (separator : Key) (fit : view.BranchesFit)
    (waiting : view.Waiting upper) (found : view.nodes lower = .ok node)
    (above : Suffices view.nodes node.parent pages) (budgeted : pages ≤ budget)
    (enough : view.pagesInUse + pages ≤ view.limit.toNat) :
    Promises view (Tree.attachWithin tree budget lower separator upper) (fun _ _ => True)
      (fun fault _ => fault.isDamage = true) := by
  have damaged : ∀ (fault : Fault) (_ : View), fault.isAboutPage = true → fault.isDamage = true :=
    fun _ _ aboutPage => Fault.isDamage_of_aboutPage aboutPage
  -- Only the cut of a full branch goes on further up, and with one page fewer.
  induction pages using Nat.strongRecOn generalizing view lower upper node separator budget with
  | ind pages ih =>
    rw [Tree.attachWithin_eq]
    refine .bind (.load_of found ?_)
    generalize node.parent = parent at above
    cases above with
    | root pages =>
      exact (Promises.growRoot (Nat.lt_of_lt_of_le (by omega) enough)).weaken
        (fun _ _ done => done) damaged
    | gone _ absent =>
      exact .bind (.loadBranch (fun branch present => absurd present (absent branch))
        fun fault _ => damaged fault view)
    | @room id branch _ parentFound room =>
      obtain ⟨matched, -⟩ := fit id branch parentFound
      refine .bind (.loadBranch_of parentFound ?_)
      split
      next =>
        refine .bind (.replace (.bind (.update (fun _ _ => ?_) fun fault _ => damaged fault view)))
        rw [if_pos ((Branch.canGrow_iff matched separator upper).mp room)]
        exact .pure trivial
      next => exact .throw rfl
    | @full id branch pages parentFound full above =>
      obtain ⟨budget, rfl⟩ :=
        Nat.exists_eq_add_one.mpr (Nat.lt_of_lt_of_le pages.succ_pos budgeted)
      obtain ⟨matched, -⟩ := fit id branch parentFound
      have apart := waiting.ne_of_full parentFound full
      have large := (Branch.canGrow_eq_false_iff matched separator upper).mp full
      have several :=
        Branch.several_separators (Branch.matched_insert matched separator upper) large
      have room : view.pagesInUse < view.limit.toNat := by omega
      refine .bind (.loadBranch_of parentFound ?_)
      split
      next =>
        refine .bind (.replace (.bind (.update (fun other present => ?_)
          fun fault _ => damaged fault view)))
        rw [View.nodes_put_of_ne _ apart.symm] at present
        rw [if_neg (Nat.not_le.mpr large)]
        have grownFound : (view.entered id (branch.insert separator upper) upper other).nodes id =
            .ok (.branch (branch.insert separator upper)) := View.nodes_entered_branch apart
        refine .bind (.divideBranch_of grownFound (List.ne_nil_of_length_pos (by omega))
          (fun _ old => .reparentAll ?_ fun fault after aboutPage _ =>
            damaged fault after aboutPage)
          (fun none => absurd room (Nat.not_lt.mpr none)) fun _ _ => rfl)
        obtain ⟨waiting', lower', lowerFound, above'⟩ := View.exists_halves fit waiting
          parentFound full present old separator above
        have fit' := View.branchesFit_divided fit parentFound full present old separator
        refine ih pages pages.lt_succ_self _ fit' waiting' lowerFound above' (by omega) ?_
        show view.pagesInUse + 1 + pages ≤ view.limit.toNat
        omega
      next => exact .throw rfl

/-- Entering the upper half of a leaf needs no more pages than were counted for the leaf. -/
theorem Promises.attachWithin_halves (tree : Tree) {view : View} {id : PageNumber} {leaf : Leaf}
    {key : Key} {value : Bytes} {needed : Nat} {halves : Leaf × Leaf} (separator : Key)
    (fit : view.BranchesFit) (apart : id ≠ view.fresh)
    (above : PagesAbove view.nodes leaf.parent needed)
    (enough : view.pagesInUse + (needed + 1) ≤ view.limit.toNat)
    (equal : (leaf.insert key value).divide view.fresh = halves) :
    Promises (view.split id (.leaf halves.1) (.leaf halves.2))
      (tree.attachWithin (view.limit.toNat - (view.pagesInUse + 1)) id separator view.fresh)
      (fun _ _ => True) (fun fault _ => fault.isDamage = true) := by
  have pages : (view.split id (.leaf halves.1) (.leaf halves.2)).pagesInUse =
      view.pagesInUse + 1 := rfl
  have limit : (view.split id (.leaf halves.1) (.leaf halves.2)).limit = view.limit := rfl
  subst equal
  refine .attachWithin separator (fit.split apart) ?_ View.nodes_split_self
    (View.eased_split apart _ _ above.suffices) (by omega) (by rw [pages, limit]; omega)
  intro branch waiting
  cases (View.nodes_split_fresh apart).symm.trans waiting

/-- Inserting into a leaf that has no room, up to the point where its upper half is entered. -/
theorem Promises.insertByDividing {tree : Tree} {view : View} {id : PageNumber} {leaf : Leaf}
    {key : Key} {value : Bytes} {done : Tree → View → Prop} {failed : Fault → View → Prop}
    (nonempty : leaf.keys ≠ [])
    (counted : Promises view (Tree.pagesAbove view.pagesInUse leaf.parent)
      (fun needed after => after = view ∧ PagesAbove view.nodes leaf.parent needed) failed)
    (short : ∀ needed, PagesAbove view.nodes leaf.parent needed →
      view.limit.toNat < view.pagesInUse + (needed + 1) →
      failed (.shortage (.split (needed + 1))) view)
    (cut : ∀ needed halves, (leaf.insert key value).divide view.fresh = halves →
      PagesAbove view.nodes leaf.parent needed → id ≠ view.fresh →
      view.pagesInUse + (needed + 1) ≤ view.limit.toNat →
      Promises (view.split id (.leaf halves.1) (.leaf halves.2))
        (tree.attachWithin (view.limit.toNat - (view.pagesInUse + 1)) id (halves.2.keys.headD 0)
          view.fresh) done failed)
    (gone : view.pagesInUse < view.limit.toNat → id = view.fresh →
      ∀ after, failed (.undefined id) after) :
    Promises view (tree.insertByDividing id leaf key value) done failed := by
  have several := Leaf.several_keys_insert nonempty key value
  refine .bind (.bind (.countPages (.bind (counted.weaken ?_ fun _ _ failed => failed))))
  rintro needed after ⟨rfl, above⟩
  refine .pure (.bind (.get fun store same => ?_))
  subst same
  split
  next enough =>
    have room : store.pagesInUse < store.limit.toNat := by omega
    refine .bind (.replace (.bind (.divideLeaf_of (View.nodes_put_self ..) several
      (fun _ apart => ?_) (fun full => absurd room (Nat.not_lt.mpr full))
      fun _ same => same ▸ gone room same _)))
    rw [View.split_put]
    refine .bind (.bind (.get fun later same => .pure ?_))
    have limit : later.limit = store.limit := congrArg View.limit same
    have pages : later.pagesInUse = store.pagesInUse + 1 := congrArg View.pagesInUse same
    rw [limit, pages]
    exact cut needed _ rfl above apart enough
  next scarce => exact .throw (short needed above (Nat.lt_of_not_le scarce))

end RowStore
