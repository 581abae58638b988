import RowStore.Proofs.Tree.Cuts
import RowStore.Tree.Insert

/-!
# The steps of an insertion

Cutting a node puts its halves in place and takes one page into use
(`View.split`); giving pages another parent changes nothing else about them
(`View.reparented`). The lemmas say how each step ends on any store, with references
that may be wrong: a step can fail only for want of a page, before it has changed
anything, or because a page cannot be loaded. If the view is not closed, a page that
is taken into use may be the one that is cut, and then there is nothing left to cut.
-/

set_option autoImplicit false

namespace RowStore

open Store

/-! ## Nodes without their place -/

namespace Node

/-- The node without its parent reference and its root mark. -/
def detached (node : Node) : Node := (node.withRootMark false).withParent none

@[simp] theorem detached_withParent (node : Node) (parent : Option PageNumber) :
    (node.withParent parent).detached = node.detached := by
  cases node <;> rfl

@[simp] theorem detached_withRootMark (node : Node) (rootMark : Bool) :
    (node.withRootMark rootMark).detached = node.detached := by
  cases node <;> rfl

@[simp] theorem rootMark_withParent (node : Node) (parent : Option PageNumber) :
    (node.withParent parent).rootMark = node.rootMark := by
  cases node <;> rfl

@[simp] theorem withParent_withParent (node : Node) (parent other : Option PageNumber) :
    (node.withParent other).withParent parent = node.withParent parent := by
  cases node <;> rfl

theorem eq_branch_of_detached {node : Node} {branch : Branch}
    (same : node.detached = (Node.branch branch).detached) :
    ∃ other, node = .branch other ∧ other.separators = branch.separators ∧
      other.children = branch.children := by
  rcases node with other | leaf
  · injection same with same
    injection same with _ _ separators children
    exact ⟨other, rfl, separators, children⟩
  · cases same

theorem eq_leaf_of_detached {node : Node} {leaf : Leaf}
    (same : node.detached = (Node.leaf leaf).detached) :
    ∃ other, node = .leaf other ∧ other.next = leaf.next ∧ other.keys = leaf.keys ∧
      other.values = leaf.values := by
  rcases node with branch | other
  · cases same
  · injection same with same
    injection same with _ _ next keys values
    exact ⟨other, rfl, next, keys, values⟩

section Pages

variable {nodes nodes' : Nodes} {page : PageNumber}
  (same : (nodes' page).map detached = (nodes page).map detached)
include same

/-- A page keeps its node but for its place. -/
theorem exists_of_detached {node : Node} (found : nodes page = .ok node) :
    ∃ other, nodes' page = .ok other ∧ other.detached = node.detached := by
  rw [found] at same
  cases result : nodes' page with
  | error fault =>
    rw [result] at same
    cases same
  | ok other =>
    rw [result] at same
    exact ⟨other, rfl, Except.ok.inj same⟩

theorem exists_leaf_of_detached {leaf : Leaf} (found : nodes page = .ok (.leaf leaf)) :
    ∃ other, nodes' page = .ok (.leaf other) ∧ other.next = leaf.next ∧ other.keys = leaf.keys ∧
      other.values = leaf.values := by
  obtain ⟨node, found', body⟩ := exists_of_detached same found
  obtain ⟨other, rfl, rest⟩ := eq_leaf_of_detached body
  exact ⟨other, found', rest⟩

theorem exists_branch_of_detached {branch : Branch} (found : nodes page = .ok (.branch branch)) :
    ∃ other, nodes' page = .ok (.branch other) ∧ other.separators = branch.separators ∧
      other.children = branch.children := by
  obtain ⟨node, found', body⟩ := exists_of_detached same found
  obtain ⟨other, rfl, rest⟩ := eq_branch_of_detached body
  exact ⟨other, found', rest⟩

end Pages

end Node

/-! ## Changes of a view -/

namespace View

/-- The view with the halves of a node, the lower one in its place and the upper one on the next
page. -/
def split (view : View) (id : PageNumber) (lower upper : Node) : View :=
  (view.push upper).put id lower

/-- The view with another parent at each of the given pages. -/
def reparented (view : View) (parent : PageNumber) (ids : List PageNumber) : View :=
  { view with
    nodes := fun page =>
      if page ∈ ids then (view.nodes page).map (Node.withParent (some parent))
      else view.nodes page }

/-- The view with a node entered below a branch. -/
def entered (view : View) (id : PageNumber) (branch : Branch) (upper : PageNumber)
    (node : Node) : View :=
  (view.put id (.branch branch)).put upper (node.withParent (some id))

/-- The view with a branch cut in two, the upper half on the next page. -/
def divided (view : View) (id : PageNumber) (branch : Branch) : View :=
  (view.split id (.branch branch.divide.1) (.branch branch.divide.2)).reparented view.fresh
    branch.divide.2.children

/-- The view with a new root above two pages with the given nodes. -/
def crowned (view : View) (lower : PageNumber) (node : Node) (separator : Key)
    (upper : PageNumber) (node' : Node) : View :=
  ((view.push (.branch {
      rootMark := true, separators := [separator], children := [lower, upper] })).put lower
    ((node.withRootMark false).withParent (some view.fresh))).put upper
    (node'.withParent (some view.fresh))

variable {view : View} {id other parent : PageNumber} {lower upper : Node}
  {ids : List PageNumber}

theorem nodes_split_self : (view.split id lower upper).nodes id = .ok lower := nodes_put_self ..

theorem nodes_split_fresh (apart : id ≠ view.fresh) :
    (view.split id lower upper).nodes view.fresh = .ok upper := by
  rw [split, nodes_put_of_ne _ apart.symm, nodes_push_fresh]

theorem nodes_split_of_ne (notLower : other ≠ id) (notUpper : other ≠ view.fresh) :
    (view.split id lower upper).nodes other = view.nodes other := by
  rw [split, nodes_put_of_ne _ notLower, nodes_push_of_ne _ notUpper]

/-- A page that could be loaded before a cut can be loaded after it. -/
theorem exists_nodes_split {node : Node} (found : view.nodes other = .ok node) :
    ∃ node', (view.split id lower upper).nodes other = .ok node' := by
  by_cases isLower : other = id
  · exact ⟨lower, isLower ▸ nodes_split_self⟩
  · by_cases isUpper : other = view.fresh
    · subst isUpper
      exact ⟨upper, nodes_split_fresh (Ne.symm isLower)⟩
    · exact ⟨node, (nodes_split_of_ne isLower isUpper).trans found⟩

/-- Whatever stood at a page does not matter once it is cut. -/
theorem split_put (node : Node) :
    (view.put id node).split id lower upper = view.split id lower upper := by
  refine View.ext (funext fun page => ?_) rfl rfl rfl rfl
  by_cases isLower : page = id
  · rw [isLower, nodes_split_self, nodes_split_self]
  · by_cases isUpper : page = view.fresh
    · have apart : id ≠ view.fresh := isUpper ▸ Ne.symm isLower
      rw [isUpper, nodes_split_fresh apart]
      exact nodes_split_fresh apart
    · have other : ((view.put id node).split id lower upper).nodes page =
          (view.put id node).nodes page := nodes_split_of_ne isLower isUpper
      rw [nodes_split_of_ne isLower isUpper, other, nodes_put_of_ne _ isLower]

theorem put_put_push (apart : id ≠ view.fresh) (placeholder : Node) :
    ((view.push placeholder).put id lower).put view.fresh upper = view.split id lower upper := by
  refine View.ext (funext fun page => ?_) rfl rfl rfl rfl
  by_cases atFresh : page = view.fresh
  · rw [atFresh, nodes_put_self, nodes_split_fresh apart]
  · rw [nodes_put_of_ne _ atFresh]
    by_cases atId : page = id
    · rw [atId, nodes_put_self, nodes_split_self]
    · rw [nodes_put_of_ne _ atId, nodes_push_of_ne _ atFresh, nodes_split_of_ne atId atFresh]

theorem Closed.split (closed : view.Closed) (room : view.pagesInUse < view.limit.toNat)
    {node : Node} (found : view.nodes id = .ok node) : (view.split id lower upper).Closed :=
  (closed.push upper room).put lower (Nat.lt_succ_of_lt (closed id node found))

theorem Regular.split (regular : view.Regular) (room : view.pagesInUse < view.limit.toNat)
    {node : Node} (found : view.nodes id = .ok node) : (view.split id lower upper).Regular :=
  (regular.push upper room).put lower (Nat.lt_succ_of_lt (regular.closed id node found))

theorem nodes_reparented_of_mem (member : other ∈ ids) :
    (view.reparented parent ids).nodes other =
      (view.nodes other).map (Node.withParent (some parent)) :=
  if_pos member

theorem nodes_reparented_of_not_mem (absent : other ∉ ids) :
    (view.reparented parent ids).nodes other = view.nodes other :=
  if_neg absent

theorem map_detached_reparented (page : PageNumber) :
    ((view.reparented parent ids).nodes page).map Node.detached =
      (view.nodes page).map Node.detached := by
  by_cases member : page ∈ ids
  · rw [nodes_reparented_of_mem member]
    cases view.nodes page with
    | ok node => exact congrArg Except.ok (node.detached_withParent _)
    | error fault => rfl
  · rw [nodes_reparented_of_not_mem member]

theorem Closed.reparented (closed : view.Closed) : (view.reparented parent ids).Closed := by
  intro page node found
  by_cases member : page ∈ ids
  · rw [nodes_reparented_of_mem member] at found
    cases old : view.nodes page with
    | ok node => exact closed page node old
    | error fault =>
      rw [old] at found
      cases found
  · rw [nodes_reparented_of_not_mem member] at found
    exact closed page node found

theorem nodes_entered_branch {upper : PageNumber} {branch : Branch} {node : Node}
    (apart : id ≠ upper) : (view.entered id branch upper node).nodes id = .ok (.branch branch) := by
  rw [entered, nodes_put_of_ne _ apart, nodes_put_self]

theorem nodes_entered_of_ne {page upper : PageNumber} {branch : Branch} {node : Node}
    (notBranch : page ≠ id) (notUpper : page ≠ upper) :
    (view.entered id branch upper node).nodes page = view.nodes page := by
  rw [entered, nodes_put_of_ne _ notUpper, nodes_put_of_ne _ notBranch]

section Divided

variable {branch : Branch}

theorem nodes_divided_self (notChild : id ∉ branch.children) :
    (view.divided id branch).nodes id = .ok (.branch branch.divide.1) := by
  have notMoved : id ∉ branch.divide.2.children := fun moved =>
    notChild (List.mem_of_mem_drop moved)
  rw [divided, nodes_reparented_of_not_mem notMoved, nodes_split_self]

theorem nodes_divided_fresh (apart : id ≠ view.fresh) (notChild : view.fresh ∉ branch.children) :
    (view.divided id branch).nodes view.fresh = .ok (.branch branch.divide.2) := by
  have notMoved : view.fresh ∉ branch.divide.2.children := fun moved =>
    notChild (List.mem_of_mem_drop moved)
  rw [divided, nodes_reparented_of_not_mem notMoved, nodes_split_fresh apart]

variable {page : PageNumber} (room : view.pagesInUse < view.limit.toNat)
  (inUse : page.toNat < view.pagesInUse) (notHere : page ≠ id)
include room inUse notHere

/-- The cut of a branch concerns the branch and the children that move. -/
theorem nodes_divided_of_not_moved (notMoved : page ∉ branch.divide.2.children) :
    (view.divided id branch).nodes page = view.nodes page := by
  rw [divided, nodes_reparented_of_not_mem notMoved,
    nodes_split_of_ne notHere (ne_fresh room inUse)]

theorem nodes_divided_of_ne (notChild : page ∉ branch.children) :
    (view.divided id branch).nodes page = view.nodes page :=
  nodes_divided_of_not_moved room inUse notHere fun moved =>
    notChild (List.mem_of_mem_drop moved)

/-- No page but that of the branch changes except for its place. -/
theorem map_detached_divided : ((view.divided id branch).nodes page).map Node.detached =
    (view.nodes page).map Node.detached := by
  rw [divided, map_detached_reparented, nodes_split_of_ne notHere (ne_fresh room inUse)]

/-- The children of the lower half hang where they did. -/
theorem hangs_divided_lower (distinct : branch.children.Nodup)
    (isLower : page ∈ branch.divide.1.children) {parent : Option PageNumber}
    (hangs : Hangs view.nodes parent page) :
    Hangs (view.divided id branch).nodes parent page := by
  rw [← branch.children_divide] at distinct
  exact hangs.congr (nodes_divided_of_not_moved room inUse notHere
    ((List.nodup_append'.mp distinct).2.2 isLower))

/-- The children of the upper half hang on the new page. -/
theorem hangs_divided_upper (isUpper : page ∈ branch.divide.2.children)
    (hangs : Hangs view.nodes (some parent) page) :
    Hangs (view.divided id branch).nodes (some view.fresh) page := by
  obtain ⟨node, found, -, unmarked⟩ := hangs
  refine ⟨node.withParent (some view.fresh), ?_, node.parent_withParent _, ?_⟩
  · rw [divided, nodes_reparented_of_mem isUpper,
      nodes_split_of_ne notHere (ne_fresh room inUse), found]
    rfl
  · rw [Node.rootMark_withParent, unmarked]
    rfl

end Divided

theorem Regular.reparented (regular : view.Regular) : (view.reparented parent ids).Regular :=
  ⟨regular.closed.reparented, regular.numbered, regular.bounded⟩

section Crowned

variable {lower upper : PageNumber} {node node' : Node} {separator : Key}

theorem nodes_crowned_fresh (lowerOld : lower ≠ view.fresh) (upperOld : upper ≠ view.fresh) :
    (view.crowned lower node separator upper node').nodes view.fresh = .ok (.branch {
      rootMark := true, separators := [separator], children := [lower, upper] }) := by
  rw [crowned, nodes_put_of_ne _ upperOld.symm, nodes_put_of_ne _ lowerOld.symm,
    nodes_push_fresh]

theorem nodes_crowned_lower (apart : upper ≠ lower) :
    (view.crowned lower node separator upper node').nodes lower =
      .ok ((node.withRootMark false).withParent (some view.fresh)) := by
  rw [crowned, nodes_put_of_ne _ apart.symm, nodes_put_self]

theorem nodes_crowned_upper :
    (view.crowned lower node separator upper node').nodes upper =
      .ok (node'.withParent (some view.fresh)) :=
  nodes_put_self ..

theorem nodes_crowned_of_ne (notFresh : other ≠ view.fresh) (notLower : other ≠ lower)
    (notUpper : other ≠ upper) :
    (view.crowned lower node separator upper node').nodes other = view.nodes other := by
  rw [crowned, nodes_put_of_ne _ notUpper, nodes_put_of_ne _ notLower, nodes_push_of_ne _ notFresh]

/-- Both pages hang on the new root. -/
theorem hangs_crowned (view : View) (node : Node) (separator : Key) (apart : upper ≠ lower)
    (unmarked : node'.rootMark = false) :
    Hangs (view.crowned lower node separator upper node').nodes (some view.fresh) lower ∧
      Hangs (view.crowned lower node separator upper node').nodes (some view.fresh) upper := by
  constructor
  · exact ⟨_, nodes_crowned_lower apart, Node.parent_withParent .., by cases node <;> rfl⟩
  · exact ⟨_, nodes_crowned_upper, Node.parent_withParent ..,
      (Node.rootMark_withParent ..).trans unmarked⟩

theorem Regular.crowned (regular : view.Regular) (room : view.pagesInUse < view.limit.toNat)
    (atLower : view.nodes lower = .ok node) (atUpper : view.nodes upper = .ok node') :
    (view.crowned lower node separator upper node').Regular := by
  have lowerUsed := regular.closed lower node atLower
  have upperUsed := regular.closed upper node' atUpper
  exact ((regular.push _ room).put _ (Nat.lt_succ_of_lt lowerUsed)).put _
    (Nat.lt_succ_of_lt upperUsed)

end Crowned

end View

/-- One page may be another now, and some pages may hang elsewhere. No other page has changed. -/
structure View.Rehung (before after : View) (id : PageNumber) (moved : List PageNumber) : Prop where
  bodies : ∀ page, page.toNat < before.pagesInUse → page ≠ id →
    (after.nodes page).map Node.detached = (before.nodes page).map Node.detached
  others : ∀ page, page.toNat < before.pagesInUse → page ≠ id → page ∉ moved →
    after.nodes page = before.nodes page

namespace View.Rehung

variable {view : View} {id lower upper : PageNumber} {branch : Branch} {node node' : Node}

/-- Once a page is entered below a branch, it hangs there. -/
theorem entered (found : view.nodes upper = .ok node) :
    Rehung view (view.entered id branch upper node) id [upper] where
  bodies page _ notHere := by
    by_cases isUpper : page = upper
    · subst isUpper
      rw [View.entered, nodes_put_self, found]
      exact congrArg Except.ok (node.detached_withParent _)
    · rw [nodes_entered_of_ne notHere isUpper]
  others page _ notHere notUpper :=
    nodes_entered_of_ne notHere fun isUpper => notUpper (List.mem_singleton.mpr isUpper)

/-- Once a branch is cut, some of its children hang elsewhere. -/
theorem divided (room : view.pagesInUse < view.limit.toNat) :
    Rehung view (view.divided id branch) id branch.children where
  bodies _ inUse notHere := map_detached_divided room inUse notHere
  others _ inUse notHere notChild := nodes_divided_of_ne room inUse notHere notChild

/-- Once a new root is above two pages, they hang there. -/
theorem crowned (atLower : view.nodes lower = .ok node) (atUpper : view.nodes upper = .ok node')
    (apart : upper ≠ lower) (separator : Key) :
    Rehung view (view.crowned lower node separator upper node') view.fresh [lower, upper] where
  bodies page inUse notFresh := by
    by_cases isLower : page = lower
    · rw [isLower, nodes_crowned_lower apart, atLower]
      exact congrArg Except.ok (by simp)
    · by_cases isUpper : page = upper
      · rw [isUpper, nodes_crowned_upper, atUpper]
        exact congrArg Except.ok (by simp)
      · rw [nodes_crowned_of_ne notFresh isLower isUpper]
  others page _ notFresh absent := by
    rw [List.mem_cons, List.mem_singleton, not_or] at absent
    exact nodes_crowned_of_ne notFresh absent.1 absent.2

end View.Rehung

/-- Pages may have been taken into use, and the file is the same. -/
structure View.Grew (before after : View) : Prop where
  limit : after.limit = before.limit
  disk : after.disk = before.disk
  fileSize : after.fileSize = before.fileSize
  pages : before.pagesInUse ≤ after.pagesInUse

theorem View.Grew.trans {first second third : View} (early : first.Grew second)
    (late : second.Grew third) : first.Grew third where
  limit := late.limit.trans early.limit
  disk := late.disk.trans early.disk
  fileSize := late.fileSize.trans early.fileSize
  pages := Nat.le_trans early.pages late.pages

theorem View.grew_split {view : View} {id : PageNumber} {lower upper : Node} :
    view.Grew (view.split id lower upper) :=
  ⟨rfl, rfl, rfl, Nat.le_succ _⟩

/-! ## The steps -/

/-- One level of entering a new page. -/
theorem Tree.attachWithin_eq (tree : Tree) (budget : Nat) (lower : PageNumber) (separator : Key)
    (upper : PageNumber) :
    tree.attachWithin budget lower separator upper = (do
      match (← load lower).parent with
      | none => growRoot lower separator upper
      | some id =>
        let parent ← loadBranch id
        if parent.children[parent.position separator]? = some lower then
          let grown := parent.insert separator upper
          replace id (.branch grown)
          reparent upper (some id)
          if grown.size ≤ Page.size then
            return tree
          else
            let (median, page) ← Tree.divideBranch id
            match budget with
            | 0 => throw (.shortage (.pages (← get).limit))
            | budget + 1 => tree.attachWithin budget id median page
        else
          throw (.corrupt id (.strayChild lower))) := by
  -- The equations that come with the definition are too costly to derive.
  cases budget <;> (delta attachWithin; rfl)

namespace Tree

/-- One round of entering a new page in the levels above. If the parent is cut, `further` enters
its upper half. -/
def enterAbove (tree : Tree) (further : PageNumber → Key → PageNumber → StoreM Tree)
    (lower : PageNumber) (separator : Key) (upper : PageNumber) : StoreM Tree := do
  match (← load lower).parent with
  | none => growRoot lower separator upper
  | some id =>
    let parent ← loadBranch id
    if parent.children[parent.position separator]? = some lower then
      let grown := parent.insert separator upper
      replace id (.branch grown)
      reparent upper (some id)
      if grown.size ≤ Page.size then
        return tree
      else
        let (median, page) ← divideBranch id
        further id median page
    else
      throw (.corrupt id (.strayChild lower))

/-- What follows a round when there is a budget of further rounds. -/
def attachFurther (tree : Tree) : Nat → PageNumber → Key → PageNumber → StoreM Tree
  | 0 => fun _ _ _ => do throw (.shortage (.pages (← get).limit))
  | budget + 1 => tree.attachWithin budget

theorem attachWithin_eq_enterAbove (tree : Tree) (budget : Nat) :
    tree.attachWithin budget = tree.enterAbove (tree.attachFurther budget) := by
  funext lower separator upper
  rw [attachWithin_eq]
  cases budget <;> rfl

end Tree

namespace Promises

variable {view : View} {failed : Fault → View → Prop} {id : PageNumber}

theorem reparentAll {parent : PageNumber} {ids : List PageNumber} {done : Unit → View → Prop}
    (finished : done () (view.reparented parent ids))
    (stopped : ∀ fault after, fault.isAboutPage = true →
      (∃ id ∈ ids, ∀ node, view.nodes id ≠ .ok node) → failed fault after) :
    Promises view (Tree.reparentAll parent ids) done failed := by
  induction ids generalizing view with
  | nil => exact .pure finished
  | cons id ids ih =>
    refine .bind (.update (fun node found => ?_) fun fault missing aboutPage =>
      stopped fault _ aboutPage ⟨id, List.mem_cons_self, by simp [missing]⟩)
    have same : (view.put id (node.withParent (some parent))).reparented parent ids =
        view.reparented parent (id :: ids) := by
      refine View.ext (funext fun page => ?_) rfl rfl rfl rfl
      by_cases here : page = id
      · subst here
        rw [View.nodes_reparented_of_mem (List.mem_cons_self : page ∈ page :: ids), found]
        by_cases again : page ∈ ids
        · rw [View.nodes_reparented_of_mem again, View.nodes_put_self]
          exact congrArg Except.ok (node.withParent_withParent _ _)
        · rw [View.nodes_reparented_of_not_mem again, View.nodes_put_self]
          rfl
      · simp only [View.reparented, List.mem_cons, here, false_or, View.nodes_put_of_ne _ here]
    refine ih (same ▸ finished) ?_
    rintro fault after aboutPage ⟨other, member, missing⟩
    refine stopped fault after aboutPage ⟨other, List.mem_cons_of_mem _ member, fun node' => ?_⟩
    have apart : other ≠ id := by
      rintro rfl
      exact missing _ (View.nodes_put_self ..)
    rw [← View.nodes_put_of_ne _ apart]
    exact missing node'

/-- Cutting a leaf of two cells or more needs one page, which is another one than that of the
leaf. -/
theorem divideLeaf_of {leaf : Leaf} {done : Key × PageNumber → View → Prop}
    (found : view.nodes id = .ok (.leaf leaf)) (several : 2 ≤ leaf.keys.length)
    (cut : view.pagesInUse < view.limit.toNat → id ≠ view.fresh →
      done ((leaf.divide view.fresh).2.keys.headD 0, view.fresh)
        (view.split id (.leaf (leaf.divide view.fresh).1) (.leaf (leaf.divide view.fresh).2)))
    (full : view.limit.toNat ≤ view.pagesInUse →
      failed (.shortage (.pages view.limit)) view)
    (gone : view.pagesInUse < view.limit.toNat → id = view.fresh →
      failed (.undefined view.fresh) (view.push (.leaf {}))) :
    Promises view (Tree.divideLeaf id) done failed := by
  refine .bind (.loadLeaf_of found ?_)
  rw [if_neg (Nat.not_lt.mpr several)]
  refine .bind (.allocate (fun room => ?_) full)
  by_cases same : id = view.fresh
  · refine .bind (.loadLeaf_of (same ▸ View.nodes_push_fresh ..) ?_)
    exact .throw (gone room same)
  · refine .bind (.loadLeaf_of ((View.nodes_push_of_ne _ same).trans found) ?_)
    rw [if_neg (Leaf.keys_divide_ne_nil several view.fresh).2]
    refine .bind (.replace (.bind (.replace ?_)))
    rw [View.put_put_push same]
    exact .pure (cut room same)

/-- Cutting a leaf on a page in use needs one page and nothing else. -/
theorem divideLeaf {leaf : Leaf} {done : Key × PageNumber → View → Prop}
    (inUse : id.toNat < view.pagesInUse) (found : view.nodes id = .ok (.leaf leaf))
    (several : 2 ≤ leaf.keys.length)
    (cut : view.pagesInUse < view.limit.toNat →
      done ((leaf.divide view.fresh).2.keys.headD 0, view.fresh)
        (view.split id (.leaf (leaf.divide view.fresh).1) (.leaf (leaf.divide view.fresh).2)))
    (full : view.limit.toNat ≤ view.pagesInUse →
      failed (.shortage (.pages view.limit)) view) :
    Promises view (Tree.divideLeaf id) done failed :=
  divideLeaf_of found several (fun room _ => cut room) full
    fun room same => absurd same (View.ne_fresh room inUse)

/-- Cutting a branch with a separator needs one page, which is another one than that of the branch,
and gives the children that move their new parent. -/
theorem divideBranch_of {branch : Branch} {done : Key × PageNumber → View → Prop}
    (found : view.nodes id = .ok (.branch branch)) (nonempty : branch.separators ≠ [])
    (moves : view.pagesInUse < view.limit.toNat → id ≠ view.fresh →
      Promises (view.split id (.branch branch.divide.1) (.branch branch.divide.2))
        (Tree.reparentAll view.fresh branch.divide.2.children)
        (fun _ after => done (branch.median, view.fresh) after) failed)
    (full : view.limit.toNat ≤ view.pagesInUse →
      failed (.shortage (.pages view.limit)) view)
    (gone : view.pagesInUse < view.limit.toNat → id = view.fresh →
      failed (.undefined id) (view.push (.branch {}))) :
    Promises view (Tree.divideBranch id) done failed := by
  refine .bind (.allocate (fun room => ?_) full)
  by_cases same : id = view.fresh
  · refine .bind (.loadBranch_of (same ▸ View.nodes_push_fresh ..) ?_)
    exact .throw (gone room same)
  · refine .bind (.loadBranch_of ((View.nodes_push_of_ne _ same).trans found) ?_)
    rw [if_neg nonempty]
    refine .bind (.replace (.bind (.replace ?_)))
    rw [View.put_put_push same]
    exact .bind ((moves room same).weaken (fun _ _ moved => .pure moved) fun _ _ stops => stops)

/-- Cutting a branch on a page in use needs one page, and the children that move. -/
theorem divideBranch {branch : Branch} {done : Key × PageNumber → View → Prop}
    (inUse : id.toNat < view.pagesInUse) (found : view.nodes id = .ok (.branch branch))
    (nonempty : branch.separators ≠ [])
    (cut : view.pagesInUse < view.limit.toNat →
      done (branch.median, view.fresh) (view.divided id branch))
    (full : view.limit.toNat ≤ view.pagesInUse →
      failed (.shortage (.pages view.limit)) view)
    (stopped : ∀ fault after, fault.isAboutPage = true →
      (∃ child ∈ branch.divide.2.children, ∀ node,
        (view.split id (.branch branch.divide.1) (.branch branch.divide.2)).nodes child ≠
          .ok node) → failed fault after) :
    Promises view (Tree.divideBranch id) done failed :=
  divideBranch_of found nonempty (fun room _ => .reparentAll (cut room) stopped) full
    fun room same => absurd same (View.ne_fresh room inUse)

/-- Putting a new root above two pages that can be loaded needs one page and nothing else. -/
theorem growRoot_of {lower upper : PageNumber} {node node' : Node} {separator : Key}
    {done : Tree → View → Prop} (closed : view.Closed) (atLower : view.nodes lower = .ok node)
    (atUpper : view.nodes upper = .ok node') (apart : upper ≠ lower)
    (grown : view.pagesInUse < view.limit.toNat →
      done { root := view.fresh } (view.crowned lower node separator upper node'))
    (full : view.limit.toNat ≤ view.pagesInUse →
      failed (.shortage (.pages view.limit)) view) :
    Promises view (Tree.growRoot lower separator upper) done failed := by
  refine .bind (.allocate (fun room => ?_) full)
  refine .bind (.update_of (closed.nodes_push room atLower _) ?_)
  refine .bind (.update_of
    ((View.nodes_put_of_ne _ apart).trans (closed.nodes_push room atUpper _)) ?_)
  exact .pure (grown room)

/-- One round of entering a page that can be loaded: the branch above has room for it, or is cut
with the page already in it. -/
theorem enterAbove_of {tree : Tree} {further : PageNumber → Key → PageNumber → StoreM Tree}
    {lower upper : PageNumber} {separator : Key} {branch : Branch} {node node' : Node}
    {done : Tree → View → Prop} (atLower : view.nodes lower = .ok node)
    (hung : node.parent = some id) (found : view.nodes id = .ok (.branch branch))
    (isChild : branch.children[branch.position separator]? = some lower) (apart : upper ≠ id)
    (atUpper : view.nodes upper = .ok node')
    (settled : (branch.insert separator upper).size ≤ Page.size →
      done tree (view.entered id (branch.insert separator upper) upper node'))
    (cut : Page.size < (branch.insert separator upper).size →
      Promises (view.entered id (branch.insert separator upper) upper node')
        (do let (median, page) ← Tree.divideBranch id; further id median page) done failed) :
    Promises view (tree.enterAbove further lower separator upper) done failed := by
  refine .bind (.load_of atLower ?_)
  rw [hung]
  refine .bind (.loadBranch_of found ?_)
  rw [if_pos isChild]
  refine .bind (.replace (.bind (.update_of ((View.nodes_put_of_ne _ apart).trans atUpper) ?_)))
  split
  next fitting => exact .pure (settled fitting)
  next overfull => exact cut (Nat.lt_of_not_le overfull)

end Promises

end RowStore
