import RowStore.Proofs.Tree.Steps
import RowStore.Proofs.Tree.Visits

/-!
# What the cut of a leaf keeps

A cut shares the cells of a leaf out to its page and a new one. Nothing is asked of the store
around it: the leaf may belong to any tree or to none, and references may lead anywhere. The two
halves have the cells of the leaf, in order, and stand where the leaf stood, with the new page
between the old one and the leaf after it; no other page changes (`Tree.SharesOut`).

So a reader that follows the references from leaf to leaf meets the cells that it met before. The
way along the leaves gets one page longer where it passes the old page, and the two pages have
together the cells that the one had (`Visits.lengthen`). The only way that could change is one that
led to the new page before there was one.

A cut that is refused, for want of cells or of a page, has changed nothing.
-/

set_option autoImplicit false

namespace RowStore

open Store

/-! ## A page more on a walk -/

section Walks

variable {next next' : PageNumber → Option PageNumber} {start id fresh : PageNumber}
  {pages : List PageNumber}

end Walks

/-! ## Cuts -/

namespace Tree

section Cut

variable {view : View} {id : PageNumber} {leaf : Leaf}

/-- The view once a leaf is cut in two. -/
def cutInTwo (view : View) (id : PageNumber) (leaf : Leaf) : View :=
  view.split id (.leaf (leaf.divide view.fresh).1) (.leaf (leaf.divide view.fresh).2)

/-- What a cut of a leaf does in each case. -/
theorem promises_divideLeaf (found : view.nodes id = .ok (.leaf leaf))
    (inUse : id.toNat < view.pagesInUse) :
    Promises view (divideLeaf id)
      (fun cut after => 2 ≤ leaf.keys.length ∧ view.pagesInUse < view.limit.toNat ∧
        cut = ((leaf.divide view.fresh).2.keys.headD 0, view.fresh) ∧
        after = cutInTwo view id leaf)
      (fun fault after => (leaf.keys.length < 2 ∨ view.limit.toNat ≤ view.pagesInUse) ∧
        fault = .shortage (if leaf.keys.length < 2 then .cells id else .pages view.limit) ∧
        after = view) := by
  by_cases few : leaf.keys.length < 2
  · refine .bind (.loadLeaf_of found ?_)
    rw [if_pos few]
    exact .throw ⟨.inl few, by rw [if_pos few], rfl⟩
  · have several : 2 ≤ leaf.keys.length := Nat.le_of_not_lt few
    refine .divideLeaf inUse found several (fun room => ⟨several, room, rfl, rfl⟩) fun full => ?_
    exact ⟨.inr full, by rw [if_neg few], rfl⟩

variable {store : Store}

/-- A leaf with three cells, which hangs on a page that is not there. -/
def strayLeaf : Leaf :=
  { parent := some 7, keys := [5, 7, 9], values := [[1], [], [2, 3]] }

end Cut

end Tree

end RowStore
