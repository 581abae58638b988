import Mathlib.Data.List.InsertIdx
import RowStore.Tree.Check

/-!
# How separators cut a range of keys

A branch cuts the range of keys that belong to it into one part for each child.
A region is a page together with its part. The parts are disjoint, follow each
other in order and cover the range, so that a key has exactly one place among
the children (`exists_cut_position`), and it is the place where a search looks.

Two changes to the separators matter. A new separator, with a new page after it,
replaces one region by two and leaves the others alone (`regions_insertIdx`).
Taking out the separator in the middle leaves two lists of regions, one for each
half of the range (`cut_append`).
-/

set_option autoImplicit false

namespace RowStore

/-- A page with the range of the keys that belong to it. -/
abbrev Region := PageNumber × KeyRange

namespace KeyRange

variable {range part : KeyRange} {key separator : Key} {separators : List Key}

/-- The part of a range below a key. -/
def below (range : KeyRange) (separator : Key) : KeyRange := { range with upper := some separator }

/-- The part of a range from a key on. -/
def above (range : KeyRange) (separator : Key) : KeyRange := { range with lower := some separator }

/-- A key that a range can be cut at: both parts have room for further keys at their bounds. -/
def Admits (range : KeyRange) (separator : Key) : Prop :=
  (∀ bound ∈ range.lower, bound < separator) ∧ ∀ bound ∈ range.upper, separator < bound

/-- Separators that stand in a range, in ascending order. -/
structure Separates (range : KeyRange) (separators : List Key) : Prop where
  ascending : separators.Pairwise (· < ·)
  within : ∀ separator ∈ separators, range.contains separator = true

/-- All keys of one range stand before all keys of another. -/
def Precedes (first second : KeyRange) : Prop :=
  ∀ low high, first.contains low = true → second.contains high = true → low < high

/-! ## Membership -/

theorem contains_iff : range.contains key = true ↔
    (∀ bound ∈ range.lower, bound ≤ key) ∧ ∀ bound ∈ range.upper, key < bound := by
  rcases range with ⟨lower, upper⟩
  cases lower <;> cases upper <;> simp [contains]

/-- The range without bounds has every key. -/
theorem contains_unbounded (key : Key) : KeyRange.contains {} key = true := rfl

theorem contains_below (within : range.contains separator = true) :
    (range.below separator).contains key = true ↔
      range.contains key = true ∧ key < separator := by
  simp only [contains_iff, below, Option.mem_def, Option.some.injEq, forall_eq'] at within ⊢
  constructor
  · rintro ⟨low, high⟩
    exact ⟨⟨low, fun bound is => Int32.lt_trans high (within.2 bound is)⟩, high⟩
  · rintro ⟨⟨low, _⟩, high⟩
    exact ⟨low, high⟩

theorem contains_above (within : range.contains separator = true) :
    (range.above separator).contains key = true ↔
      range.contains key = true ∧ separator ≤ key := by
  simp only [contains_iff, above, Option.mem_def, Option.some.injEq, forall_eq'] at within ⊢
  constructor
  · rintro ⟨low, high⟩
    exact ⟨⟨fun bound is => Int32.le_trans (within.1 bound is) low, high⟩, low⟩
  · rintro ⟨⟨_, high⟩, low⟩
    exact ⟨low, high⟩

theorem Admits.contains (admits : range.Admits key) : range.contains key = true :=
  contains_iff.mpr ⟨fun bound is => Int32.le_of_lt (admits.1 bound is), admits.2⟩

/-- Cutting at a key above a separator cuts what stands from the separator on. -/
theorem Admits.of_above (within : range.contains separator = true)
    (admits : (range.above separator).Admits key) : range.Admits key ∧ separator < key := by
  obtain ⟨low, high⟩ := admits
  have beyond : separator < key := low separator rfl
  exact ⟨⟨fun bound is => Std.lt_of_le_of_lt ((contains_iff.mp within).1 bound is) beyond, high⟩,
    beyond⟩

theorem Admits.of_below (within : range.contains separator = true)
    (admits : (range.below separator).Admits key) : range.Admits key ∧ key < separator := by
  obtain ⟨low, high⟩ := admits
  have before : key < separator := high separator rfl
  exact ⟨⟨low, fun bound is => Int32.lt_trans before ((contains_iff.mp within).2 bound is)⟩,
    before⟩

/-! ## Lists of separators -/

theorem Separates.nil (range : KeyRange) : range.Separates [] :=
  ⟨List.Pairwise.nil, fun _ member => absurd member List.not_mem_nil⟩

theorem Separates.head (separates : range.Separates (separator :: separators)) :
    range.contains separator = true :=
  separates.within separator List.mem_cons_self

/-- Separators that do not precede a key stand in the part of the range from the key on. -/
theorem Separates.of_follow (within : range.contains key = true)
    (separates : range.Separates separators) (follow : ∀ other ∈ separators, key ≤ other) :
    (range.above key).Separates separators :=
  ⟨separates.ascending, fun other member => (contains_above within).mpr
    ⟨separates.within other member, follow other member⟩⟩

theorem Separates.tail (separates : range.Separates (separator :: separators)) :
    (range.above separator).Separates separators := by
  obtain ⟨before, ascending⟩ := List.pairwise_cons.mp separates.ascending
  have rest : range.Separates separators :=
    ⟨ascending, fun other member => separates.within other (List.mem_cons_of_mem _ member)⟩
  exact rest.of_follow separates.head fun other member => Int32.le_of_lt (before other member)

theorem Separates.cons (head : range.contains separator = true)
    (before : ∀ other ∈ separators, separator < other)
    (tail : (range.above separator).Separates separators) :
    range.Separates (separator :: separators) := by
  refine ⟨List.pairwise_cons.mpr ⟨before, tail.ascending⟩, fun other member => ?_⟩
  rcases List.mem_cons.mp member with rfl | later
  · exact head
  · exact ((contains_above head).mp (tail.within other later)).1

/-- Separators on both sides of a separator stand in the two parts, and the separator may stand in
the second part itself. -/
theorem Separates.parts {front back : List Key}
    (separates : range.Separates (front ++ separator :: back)) :
    (range.below separator).Separates front ∧
      (range.above separator).Separates (separator :: back) ∧
      ∀ other ∈ front, other < separator := by
  obtain ⟨inFront, inBack, across⟩ := List.pairwise_append.mp separates.ascending
  have middle : range.contains separator = true :=
    separates.within separator (List.mem_append_right _ List.mem_cons_self)
  have before : ∀ other ∈ front, other < separator := fun other member =>
    across other member separator List.mem_cons_self
  have rest : range.Separates (separator :: back) :=
    ⟨inBack, fun other member => separates.within other (List.mem_append_right _ member)⟩
  refine ⟨⟨inFront, fun other member => (contains_below middle).mpr ⟨?_, before other member⟩⟩,
    rest.of_follow middle fun other member => ?_, before⟩
  · exact separates.within other (List.mem_append_left _ member)
  · rcases List.mem_cons.mp member with rfl | later
    · exact Int32.le_refl _
    · exact Int32.le_of_lt ((List.pairwise_cons.mp inBack).1 other later)

/-- A separator with another one before it is one that the range can be cut at. -/
theorem Separates.admits {front back : List Key}
    (separates : range.Separates (front ++ separator :: back)) (before : front ≠ []) :
    range.Admits separator := by
  obtain ⟨first, rest, rfl⟩ := List.exists_cons_of_ne_nil before
  have low := separates.within first (List.mem_append_left _ List.mem_cons_self)
  have high := separates.within separator (List.mem_append_right _ List.mem_cons_self)
  have order := separates.parts.2.2 first List.mem_cons_self
  exact ⟨fun bound is => Std.lt_of_le_of_lt ((contains_iff.mp low).1 bound is) order,
    (contains_iff.mp high).2⟩

/-- What stands before the first separator stands before all of them. -/
theorem Separates.lt_of_mem (separates : range.Separates (separator :: separators))
    (before : key < separator) : ∀ other ∈ separator :: separators, key < other := by
  intro other member
  rcases List.mem_cons.mp member with rfl | further
  · exact before
  · exact Int32.lt_trans before ((List.pairwise_cons.mp separates.ascending).1 other further)

/-- A key behind the first separator may be put in among those that follow. -/
theorem Separates.cons_insertIdx {place : Nat}
    (separates : range.Separates (separator :: separators)) (passed : separator < key)
    (tail : (range.above separator).Separates (separators.insertIdx place key)) :
    range.Separates (separator :: separators.insertIdx place key) := by
  refine .cons separates.head (fun other member => ?_) tail
  rcases List.eq_or_mem_of_mem_insertIdx member with rfl | further
  · exact passed
  · exact (List.pairwise_cons.mp separates.ascending).1 other further

/-- A key before the first separator may be put in front of them. -/
theorem Separates.cons_of_lt (separates : range.Separates (separator :: separators))
    (within : range.contains key = true) (before : key < separator) :
    range.Separates (key :: separator :: separators) := by
  have follow := separates.lt_of_mem before
  refine .cons within follow (separates.of_follow within fun other member => ?_)
  exact Int32.le_of_lt (follow other member)

theorem Separates.singleton (within : range.contains key = true) : range.Separates [key] := by
  refine ⟨List.pairwise_singleton .., fun other member => ?_⟩
  rw [List.mem_singleton.mp member]
  exact within

/-- A new key stands behind the smaller ones. -/
theorem Separates.insertIdx (separates : range.Separates separators)
    (within : range.contains key = true) (new : key ∉ separators) :
    range.Separates (separators.insertIdx (separators.takeWhile (· < key)).length key) := by
  induction separators generalizing range with
  | nil => exact .singleton within
  | cons separator separators ih =>
    obtain ⟨apart, new⟩ := List.ne_and_not_mem_of_not_mem_cons new
    by_cases passed : separator < key
    · rw [List.takeWhile_cons_of_pos (by simpa using passed)]
      have beyond : (range.above separator).contains key = true :=
        (contains_above separates.head).mpr ⟨within, Int32.le_of_lt passed⟩
      exact separates.cons_insertIdx passed (ih separates.tail beyond new)
    · rw [List.takeWhile_cons_of_neg (by simpa using passed)]
      have before : key < separator := Std.lt_of_le_of_ne (Std.not_lt.mp passed) apart
      exact separates.cons_of_lt within before

/-! ## The parts of a range -/

theorem length_cut (range : KeyRange) (separators : List Key) :
    (range.cut separators).length = separators.length + 1 := by
  induction separators generalizing range with
  | nil => rfl
  | cons separator separators ih => simp only [cut, List.length_cons, ih]

/-- Taking out a separator leaves the parts on both sides of it. -/
theorem cut_append (range : KeyRange) (front back : List Key) (separator : Key) :
    range.cut (front ++ separator :: back) =
      (range.below separator).cut front ++ (range.above separator).cut back := by
  induction front generalizing range with
  | nil => rfl
  | cons first front ih =>
    show range.below first :: (range.above first).cut (front ++ separator :: back) = _
    rw [ih]
    rfl

/-- A part has no key that the range does not have. -/
theorem contains_of_mem_cut (separates : range.Separates separators)
    (member : part ∈ range.cut separators) (has : part.contains key = true) :
    range.contains key = true := by
  induction separators generalizing range with
  | nil =>
    rw [List.mem_singleton.mp member] at has
    exact has
  | cons separator separators ih =>
    rcases List.mem_cons.mp member with rfl | later
    · exact ((contains_below separates.head).mp has).1
    · exact ((contains_above separates.head).mp (ih separates.tail later)).1

/-- A key that a part can be cut at is one that the range can be cut at. -/
theorem admits_of_mem_cut (separates : range.Separates separators)
    (member : part ∈ range.cut separators) (admits : part.Admits key) : range.Admits key := by
  induction separators generalizing range with
  | nil =>
    rw [List.mem_singleton.mp member] at admits
    exact admits
  | cons separator separators ih =>
    rcases List.mem_cons.mp member with rfl | later
    · exact (admits.of_below separates.head).1
    · exact ((ih separates.tail later).of_above separates.head).1

/-- The parts follow each other. -/
theorem pairwise_cut (separates : range.Separates separators) :
    (range.cut separators).Pairwise Precedes := by
  induction separators generalizing range with
  | nil => exact List.pairwise_singleton ..
  | cons separator separators ih =>
    refine List.pairwise_cons.mpr ⟨fun part member low high inFirst inPart => ?_, ih separates.tail⟩
    have before := ((contains_below separates.head).mp inFirst).2
    have beyond := contains_of_mem_cut separates.tail member inPart
    exact Std.lt_of_lt_of_le before ((contains_above separates.head).mp beyond).2

/-- A key has its place behind the separators that are not greater. -/
theorem exists_cut_position (separators : List Key) (within : range.contains key = true) :
    ∃ part, (range.cut separators)[(separators.takeWhile (· ≤ key)).length]? = some part ∧
      part.contains key = true := by
  induction separators generalizing range with
  | nil => exact ⟨range, rfl, within⟩
  | cons separator separators ih =>
    obtain ⟨low, high⟩ := contains_iff.mp within
    by_cases passed : separator ≤ key
    · have beyond : (range.above separator).contains key = true :=
        contains_iff.mpr ⟨fun bound is => (Option.some.inj is) ▸ passed, high⟩
      obtain ⟨part, found, has⟩ := ih beyond
      refine ⟨part, ?_, has⟩
      rw [List.takeWhile_cons_of_pos (by simpa using passed)]
      exact found
    · have before : (range.below separator).contains key = true :=
        contains_iff.mpr ⟨low, fun bound is => (Option.some.inj is) ▸ Std.not_le.mp passed⟩
      refine ⟨range.below separator, ?_, before⟩
      rw [List.takeWhile_cons_of_neg (by simpa using passed)]
      rfl

end KeyRange

/-! ## Regions of a branch -/

namespace Branch

/-- The children of a branch with the ranges of their keys. -/
def regions (branch : Branch) (range : KeyRange) : List Region :=
  branch.children.zip (range.cut branch.separators)

end Branch

section Insertion

open KeyRange

variable {range part : KeyRange} {separator : Key} {page : PageNumber} {front back : List Region}

variable (fresh : PageNumber) {children : List PageNumber} {separators : List Key}

/-- A new separator that cuts the first region belongs before all others. -/
theorem regions_cons (separates : range.Separates separators) (admits : part.Admits separator)
    (found : children.zip (range.cut separators) = (page, part) :: back) :
    separators.takeWhile (· ≤ separator) = [] ∧ children[0]? = some page ∧
      range.Separates (separator :: separators) ∧
      (children.insertIdx 1 fresh).zip (range.cut (separator :: separators)) =
        (page, part.below separator) :: (fresh, part.above separator) :: back := by
  cases children with
  | nil => cases found
  | cons child children =>
    cases separators with
    | nil =>
      simp only [cut, List.zip_cons_cons, List.zip_nil_right, List.cons.injEq,
        Prod.mk.injEq] at found
      obtain ⟨⟨rfl, rfl⟩, rfl⟩ := found
      refine ⟨rfl, rfl, .singleton admits.contains, ?_⟩
      simp [cut, below, above]
    | cons other separators =>
      simp only [cut, List.zip_cons_cons, List.cons.injEq, Prod.mk.injEq] at found
      obtain ⟨⟨rfl, rfl⟩, rfl⟩ := found
      obtain ⟨inside, before⟩ := admits.of_below separates.head
      refine ⟨?_, rfl, separates.cons_of_lt inside.contains before, ?_⟩
      · exact List.takeWhile_cons_of_neg (by simpa using before)
      · simp [cut, below, above]

/-- A new separator belongs behind the separators of the regions before the one that it cuts.
There, with a new page behind it, it cuts that region in two and leaves the others alone. -/
theorem regions_insertIdx (separates : range.Separates separators)
    (admits : part.Admits separator)
    (found : children.zip (range.cut separators) = front ++ (page, part) :: back) :
    (separators.takeWhile (· ≤ separator)).length = front.length ∧
      children[front.length]? = some page ∧
      range.Separates (separators.insertIdx front.length separator) ∧
      (children.insertIdx (front.length + 1) fresh).zip
          (range.cut (separators.insertIdx front.length separator)) =
        front ++ (page, part.below separator) :: (fresh, part.above separator) :: back := by
  induction front generalizing range separators children with
  | nil =>
    obtain ⟨place, child, separates', parts⟩ := regions_cons fresh separates admits found
    exact ⟨congrArg List.length place, child, separates', parts⟩
  | cons region front ih =>
    cases children with
    | nil => cases found
    | cons child children =>
      cases separators with
      | nil =>
        have short := congrArg List.length found
        simp [cut] at short
      | cons other separators =>
        simp only [cut, List.zip_cons_cons, List.cons_append, List.cons.injEq] at found
        obtain ⟨rfl, found⟩ := found
        obtain ⟨place, child, separates', parts⟩ := ih separates.tail found
        -- The region that is cut lies above the first separator, so the new separator does too.
        have member : part ∈ (range.above other).cut separators := by
          have paired : (page, part) ∈ children.zip ((range.above other).cut separators) :=
            found ▸ List.mem_append_right _ List.mem_cons_self
          exact (List.of_mem_zip paired).2
        have passed : other < separator :=
          ((admits_of_mem_cut separates.tail member admits).of_above separates.head).2
        refine ⟨?_, child, separates.cons_insertIdx passed separates', congrArg (_ :: ·) parts⟩
        rw [List.takeWhile_cons_of_pos (by simpa using Int32.le_of_lt passed)]
        exact congrArg (· + 1) place

end Insertion

end RowStore
