import RowStore.Proofs.Tree.Budget

/-!
# Insertions that are refused

An insertion can be refused because the key is there already, because the value is
too long, because the leaf cannot be cut so that the value fits, or because too few
pages are left (`Refusal`). All of this is found out before anything is changed, on
any store whose nodes are well-shaped and fit their pages, whatever they refer to.
So a refused insertion changes nothing, and an insertion that has begun is never
stopped by a limit (`Promises.insert`).
-/

set_option autoImplicit false

namespace RowStore

open Store RowStore.Tree

/-- A fault with which an insertion of a key is refused. -/
inductive Refusal (key : Key) : Fault → Prop where
  | present : Refusal key (.duplicateKey key)
  | value {length : Nat} : maxValueLength < length → Refusal key (.shortage (.value length))
  | leaf (id : PageNumber) : Refusal key (.shortage (.leaf id))
  | pages (needed : Nat) : Refusal key (.shortage (.split needed))

/-- Every node has the right shape and fits its page. -/
def View.Sound (view : View) : Prop :=
  ∀ id node, view.nodes id = .ok node → node.WellShaped ∧ node.size ≤ Page.size

theorem View.Sound.branchesFit {view : View} (sound : view.Sound) : view.BranchesFit :=
  fun id branch found => sound id (.branch branch) found

namespace Promises

variable {view : View}

/-- A descent changes nothing, and ends at damaged pages only. -/
theorem descendWithin {choose : Branch → Option PageNumber} (budget : Nat) (id : PageNumber) :
    Promises view (Tree.descendWithin choose budget id) (fun _ after => after = view)
      (fun fault _ => fault.isAboutPage = true) := by
  induction budget generalizing id with
  | zero => exact .throw rfl
  | succ budget ih =>
    refine .bind (.load (fun node _ => ?_) fun _ _ aboutPage => aboutPage)
    cases node with
    | leaf leaf => exact .pure rfl
    | branch branch =>
      dsimp only
      split
      next child _ => exact ih child
      next => exact .throw rfl

/-- **An insertion that is refused has changed nothing.** On any store whose nodes are well-shaped
and fit their pages, nothing else stops an insertion than a refusal or a damaged page. -/
theorem insert {tree : Tree} {key : Key} {value : Bytes} (sound : view.Sound) :
    Promises view (tree.insert key value) (fun _ _ => True)
      (fun fault after => fault.isDamage = true ∨ after = view ∧ Refusal key fault) := by
  have damaged : ∀ (fault : Fault) (after : View), fault.isAboutPage = true →
      fault.isDamage = true ∨ after = view ∧ Refusal key fault :=
    fun _ _ aboutPage => .inl (Fault.isDamage_of_aboutPage aboutPage)
  unfold Tree.insert
  split
  next ordinary =>
    refine .bind (.bind (.countPages ?_))
    refine (descendWithin view.pagesInUse tree.root).weaken ?_ damaged
    rintro id after rfl
    refine .bind (.loadLeaf (fun leaf found => ?_) fun fault _ => damaged fault _)
    obtain ⟨matched, -⟩ := sound id _ found
    split
    next => exact .throw (.inr ⟨rfl, .present⟩)
    next =>
      split
      next => exact .bind (.replace (.pure trivial))
      next full =>
        split
        next =>
          have nonempty := Leaf.keys_ne_nil_of_not_hasRoomFor matched full ordinary
          refine .insertByDividing nonempty ?_ (fun _ _ _ => .inr ⟨rfl, .pages _⟩) ?_
            fun _ _ _ => .inl rfl
          · exact (Promises.pagesAbove _ _).weaken (fun _ _ done => done)
              fun fault after failed => damaged fault after failed.2
          · intro needed halves equal above apart enough
            exact (Promises.attachWithin_halves _ _ sound.branchesFit apart above enough
              equal).weaken (fun _ _ done => done) fun _ _ damage => .inl damage
        next => exact .throw (.inr ⟨rfl, .leaf id⟩)
  next long => exact .throw (.inr ⟨rfl, .value (Nat.lt_of_not_le long)⟩)

end Promises

end RowStore
