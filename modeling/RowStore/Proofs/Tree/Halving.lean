import RowStore.Proofs.Tree.Steps

/-!
# Whether the halves of a leaf will fit

`Leaf.canDivideAt` adds up sizes before a cell is inserted, `Tree.divideLeaf` cuts
the cells afterwards. Both put the cell in the middle of the leaf on the same side
(`Leaf.canDivideAt_iff_insertAt`), so what the check says comes true for the leaves
that a cut leaves in the store: they fit their pages, and can be written, exactly if
the check said so.
-/

set_option autoImplicit false

namespace RowStore

open Store

/-- A node can be written exactly if it is not larger than a page. -/
theorem Node.exists_toPage_iff (node : Node) :
    (∃ page, node.toPage = .ok page) ↔ node.size ≤ Page.size := by
  rw [toPage]
  split
  next small => exact iff_of_true ⟨_, rfl⟩ small
  next large => exact iff_of_false nofun large

namespace Leaf

/-- Two leaves that a leaf was cut into after a cell was inserted, of which the check before the
insertion was right: both fit a page, and both can be written, exactly if the check says so. -/
structure Foretells (leaf : Leaf) (place : Nat) (key : Key) (value : Bytes)
    (lower upper : Leaf) : Prop where
  cells : lower.cells ++ upper.cells = (leaf.insertAt place key value).cells
  fit_iff : leaf.canDivideAt place value.length = true ↔
    lower.size ≤ Page.size ∧ upper.size ≤ Page.size
  written_iff : leaf.canDivideAt place value.length = true ↔
    (∃ page, (Node.leaf lower).toPage = .ok page) ∧ ∃ page, (Node.leaf upper).toPage = .ok page

variable {leaf : Leaf} {place : Nat} {key : Key} {value : Bytes}

theorem foretells_divide (matched : leaf.values.length = leaf.keys.length)
    (inside : place ≤ leaf.keys.length) (page : PageNumber) :
    leaf.Foretells place key value ((leaf.insertAt place key value).divide page).1
      ((leaf.insertAt place key value).divide page).2 := by
  have fit := canDivideAt_iff_insertAt matched inside key value page
  refine ⟨cells_divide (matched_insertAt matched inside key value) page, fit, ?_⟩
  rw [Node.exists_toPage_iff, Node.exists_toPage_iff]
  exact fit

/-- **The check before an insertion is right about the cut after it.** With a page left, a leaf with
a cell is always cut, and the leaves in the store fit exactly if the check says so. -/
theorem cut_as_foretold (matched : leaf.values.length = leaf.keys.length)
    (nonempty : leaf.keys ≠ []) (inside : place ≤ leaf.keys.length) (key : Key) (value : Bytes)
    {store : Store} {id : PageNumber} (inUse : id.toNat < store.pagesInUse)
    (room : store.pagesInUse < store.limit.toNat) :
    ∃ separator page after lower upper,
      (do replace id (.leaf (leaf.insertAt place key value)); Tree.divideLeaf id) store =
        .ok (separator, page) after ∧
      after.peek id = .ok (.leaf lower) ∧ after.peek page = .ok (.leaf upper) ∧
      leaf.Foretells place key value lower upper := by
  have several := several_keys_insertAt nonempty inside key value
  have apart : id ≠ store.view.fresh := View.ne_fresh room inUse
  have cut : Promises store.view
      (do replace id (.leaf (leaf.insertAt place key value)); Tree.divideLeaf id)
      (fun found after => ∃ lower upper, after.nodes id = .ok (.leaf lower) ∧
        after.nodes found.2 = .ok (.leaf upper) ∧ leaf.Foretells place key value lower upper)
      fun _ _ => False := by
    refine .bind (.replace (.divideLeaf inUse (View.nodes_put_self ..) several (fun _ => ?_)
      fun full => absurd room (Nat.not_lt.mpr full)))
    exact ⟨_, _, View.nodes_split_self, View.nodes_split_fresh apart,
      foretells_divide matched inside _⟩
  obtain ⟨⟨separator, page⟩, after, run, lower, upper, atLower, atUpper, foretells⟩ := cut.exists_ok
  exact ⟨separator, page, after, lower, upper, run, atLower, atUpper, foretells⟩

/-- A leaf with two values that fill its page. -/
def brimful : Leaf :=
  { keys := [1, 5], values := [List.replicate 2000 0xaa, List.replicate 2066 0xbb] }

/-- A store with that leaf and one more page to use. -/
def onePageLeft : Store := { slots := #[some (.leaf brimful)], limit := 2 }

/-- A value between the two goes to the upper half, which it fills to the last byte. -/
theorem cut_as_foretold_brimful :
    ∃ separator page after lower upper,
      (do
        replace 0 (.leaf (brimful.insertAt 1 3 (List.replicate 2000 0xcc)))
        Tree.divideLeaf 0) onePageLeft =
        .ok (separator, page) after ∧
      after.peek 0 = .ok (.leaf lower) ∧ after.peek page = .ok (.leaf upper) ∧
      lower.size ≤ Page.size ∧ upper.size ≤ Page.size ∧
      brimful.canDivideAt 1 2001 = false := by
  have check : brimful.canDivideAt 1 (List.replicate 2000 (0xcc : UInt8)).length = true := by
    simp only [brimful, canDivideAt, List.map_cons, List.map_nil, List.length_replicate]
    decide
  have tight : brimful.canDivideAt 1 2001 = false := by
    simp only [brimful, canDivideAt, List.map_cons, List.map_nil, List.length_replicate]
    decide
  have inUse : (0 : PageNumber).toNat < onePageLeft.pagesInUse := by decide
  have room : onePageLeft.pagesInUse < onePageLeft.limit.toNat := by decide
  have inside : 1 ≤ brimful.keys.length := by decide
  obtain ⟨separator, page, after, lower, upper, run, atLower, atUpper, foretells⟩ :=
    cut_as_foretold rfl (List.cons_ne_nil 1 [5]) inside 3 (List.replicate 2000 0xcc) inUse room
  obtain ⟨first, second⟩ := foretells.fit_iff.mp check
  exact ⟨separator, page, after, lower, upper, run, atLower, atUpper, first, second, tight⟩

end Leaf

end RowStore
