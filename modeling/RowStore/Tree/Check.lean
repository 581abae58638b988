import RowStore.Tree.Basic

/-!
# Checking a tree

The check visits every page that is reachable from the root through children
and then the leaves along their references, and notes every violation of what a
tree should be: parents that do not match, a root mark below the root or none
at it, keys out of order or outside the separators above them, lists whose
lengths do not match, leaves at different depths, and keys that do not ascend
along the leaves. A tree is sound when nothing is noted.

Children that lead in a circle are noted when the depth passes the number of
pages, leaves that do when more leaves are visited than there are pages. Pages
that cannot be read end the check with a fault; what was noted before stays
noted.
-/

set_option autoImplicit false

namespace RowStore

open Store

/-- What a check can find wrong with a tree, and on which page. A page can lie deeper than there are
pages, name another parent than the branch above it, or be marked as root below another one. Its
keys can be out of order or beyond the separators above the page. A leaf can have too many or too
few values, or lie at another depth than those before it; a branch can have too many or too few
children. The root can lack its mark. Last, the references from leaf to leaf can lead in a circle,
or to a key that is not greater than the key before it. -/
inductive Violation where
  | tooDeep (page : PageNumber)
  | parent (page : PageNumber) (found expected : Option PageNumber)
  | rootBelow (page : PageNumber)
  | keyOrder (page : PageNumber) (position : Nat)
  | keyBounds (page : PageNumber) (key : Key)
  | cellCounts (page : PageNumber) (keys values : Nat)
  | unevenLeaf (page : PageNumber) (found expected : Nat)
  | childCounts (page : PageNumber) (separators children : Nat)
  | rootUnmarked (page : PageNumber)
  | leafCycle (page : PageNumber)
  | leafOrder (page : PageNumber) (key before : Key)
  deriving DecidableEq

namespace Violation

/-- The number of a page, or that there is none. -/
def referenceToText : Option PageNumber → Bytes
  | some id => Decimal.ofNat id.toNat
  | none => text "none"

/-- What is violated. -/
def finding : Violation → Bytes
  | tooDeep page =>
    text "Page " ++ Decimal.ofNat page.toNat ++ text " is deeper than the page count"
  | parent page found expected =>
    text "Page " ++ Decimal.ofNat page.toNat ++ text " has parent " ++ referenceToText found ++
      text " but is a child of " ++ referenceToText expected
  | rootBelow page =>
    text "Page " ++ Decimal.ofNat page.toNat ++ text " is marked as root but has a parent"
  | keyOrder page position =>
    text "Page " ++ Decimal.ofNat page.toNat ++ text " keys are not ascending at " ++
      Decimal.ofNat position
  | keyBounds page key =>
    text "Key " ++ Decimal.ofInt key.toInt ++ text " in page " ++ Decimal.ofNat page.toNat ++
      text " is outside the bounds of its parent"
  | cellCounts page keys values =>
    text "Leaf " ++ Decimal.ofNat page.toNat ++ text " has " ++ Decimal.ofNat keys ++
      text " keys but " ++ Decimal.ofNat values ++ text " values"
  | unevenLeaf page found expected =>
    text "Leaf " ++ Decimal.ofNat page.toNat ++ text " at depth " ++ Decimal.ofNat found ++
      text " but expected depth " ++ Decimal.ofNat expected
  | childCounts page separators children =>
    text "Internal " ++ Decimal.ofNat page.toNat ++ text " has " ++ Decimal.ofNat separators ++
      text " keys but " ++ Decimal.ofNat children ++ text " children"
  | rootUnmarked page =>
    text "Root " ++ Decimal.ofNat page.toNat ++ text " is not marked as root"
  | leafCycle page => text "Leaf chain loops at " ++ Decimal.ofNat page.toNat
  | leafOrder page key before =>
    text "Leaf " ++ Decimal.ofNat page.toNat ++ text " has key " ++ Decimal.ofInt key.toInt ++
      text " after " ++ Decimal.ofInt before.toInt ++ text " in the leaf chain"

/-- The line in which a violation is reported. -/
def message (violation : Violation) : Bytes :=
  text "INVARIANT VIOLATION: " ++ violation.finding

end Violation

/-- What a check knows at some point of its way: the store, with the pages that were visited in
memory, the depth of the leaves, once the first one is reached, and the violations, in the order in
which they were found. -/
structure Survey where
  store : Store
  depthOfLeaves : Option Nat := none
  violations : Array Violation := #[]

/-- A computation on a survey that may end with a fault. -/
abbrev SurveyM := EStateM Fault Survey

/-- The keys that may stand on a page: from a lower bound on and below an upper one, where there are
such bounds. -/
structure KeyRange where
  lower : Option Key := none
  upper : Option Key := none
  deriving DecidableEq

namespace KeyRange

/-- The key lies in the range. -/
def contains (range : KeyRange) (key : Key) : Bool :=
  range.lower.all (· ≤ key) && range.upper.all (key < ·)

/-- The ranges that separators cut a range into, one more than there are separators. -/
def cut (range : KeyRange) : List Key → List KeyRange
  | [] => [range]
  | separator :: separators =>
    { range with upper := some separator } ::
      cut { range with lower := some separator } separators

end KeyRange

namespace Survey

/-- Note a violation. -/
def note (violation : Violation) : SurveyM Unit :=
  modify fun survey => { survey with violations := survey.violations.push violation }

/-- Note a violation when a condition holds. -/
def noteIf (condition : Bool) (violation : Violation) : SurveyM Unit :=
  if condition then note violation else return ()

/-- A computation on the store, in the course of a survey. -/
def onStore {α : Type} (action : StoreM α) : SurveyM α := fun survey =>
  match action survey.store with
  | .ok value store => .ok value { survey with store }
  | .error fault store => .error fault { survey with store }

/-- Check the order and the bounds of keys from a position on, after the key before them. -/
def surveyKeys (page : PageNumber) (range : KeyRange) :
    Nat → Option Key → List Key → SurveyM Unit
  | _, _, [] => return ()
  | position, before, key :: keys => do
    noteIf (before.any (key ≤ ·)) (.keyOrder page position)
    noteIf (!range.contains key) (.keyBounds page key)
    surveyKeys page range (position + 1) (some key) keys

/-- Check a leaf at a depth. -/
def surveyLeaf (page : PageNumber) (range : KeyRange) (depth : Nat) (leaf : Leaf) :
    SurveyM Unit := do
  surveyKeys page range 0 none leaf.keys
  noteIf (leaf.keys.length != leaf.values.length)
    (.cellCounts page leaf.keys.length leaf.values.length)
  match (← get).depthOfLeaves with
  | none => modify fun survey => { survey with depthOfLeaves := some depth }
  | some expected => noteIf (expected != depth) (.unevenLeaf page depth expected)

/-- Check the pages from a page down, with a budget of levels. The page is at the given depth,
and the child of the given parent. -/
def surveyPages : Nat → Nat → Option PageNumber → PageNumber × KeyRange → SurveyM Unit
  | 0, _, _, (page, _) => note (.tooDeep page)
  | budget + 1, depth, parent, (page, range) => do
    let node ← onStore (load page)
    noteIf (node.parent != parent) (.parent page node.parent parent)
    noteIf (parent.isSome && node.rootMark) (.rootBelow page)
    match node with
    | .leaf leaf => surveyLeaf page range depth leaf
    | .branch branch =>
      surveyKeys page range 0 none branch.separators
      if branch.children.length = branch.separators.length + 1 then
        (branch.children.zip (range.cut branch.separators)).forM
          (surveyPages budget (depth + 1) (some page))
      else
        note (.childCounts page branch.separators.length branch.children.length)

/-- Check that keys ascend, and go on from the last of them. -/
def surveyAscent (page : PageNumber) : Option Key → List Key → SurveyM (Option Key)
  | before, [] => return before
  | before, key :: keys => do
    match before with
    | some last => noteIf (key ≤ last) (.leafOrder page key last)
    | none => pure ()
    surveyAscent page (some key) keys

/-- Check the leaves from a page on, with a budget of leaves to visit. -/
def surveyLeaves : Nat → Option Key → Option PageNumber → SurveyM Unit
  | _, _, none => return ()
  | 0, _, some page => note (.leafCycle page)
  | budget + 1, before, some page => do
    let leaf ← onStore (loadLeaf page)
    let last ← surveyAscent page before leaf.keys
    surveyLeaves budget last leaf.next

end Survey

namespace Tree

open Survey

/-- Check the whole tree. -/
def survey (tree : Tree) : SurveyM Unit := do
  let budget ← onStore countPages
  surveyPages budget 1 none (tree.root, {})
  let root ← onStore (load tree.root)
  noteIf (!root.rootMark) (.rootUnmarked tree.root)
  let first ← onStore tree.firstLeaf
  surveyLeaves budget none (some first)

/-- What a check of a tree has found: whether the tree is sound, or what ended the check early, the
violations, in the order in which they were found, and the store after the check. -/
structure Report where
  verdict : Except Fault Bool
  violations : List Violation
  store : Store

/-- Check a tree of a store. -/
def check (tree : Tree) (store : Store) : Report :=
  match tree.survey { store } with
  | .ok _ survey =>
    { verdict := .ok survey.violations.isEmpty
      violations := survey.violations.toList
      store := survey.store }
  | .error fault survey =>
    { verdict := .error fault
      violations := survey.violations.toList
      store := survey.store }

end Tree

end RowStore
