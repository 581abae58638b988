import RowStore.Proofs.Outcome

/-!
# Invariants of computations

A computation preserves an invariant if the invariant holds of what it leaves behind,
whether it answers or stops half way (`Preserves`). The faults that it may stop with are
ruled out on the way as far as that is known. A table is not to stop with a fault about a
path, which only a program that opens files has, nor where what happens is undefined
(`Fault.isDeclared`).

A computation is still if it leaves alone what can be seen of the state in some way
(`Still`). Then it preserves every invariant that is about what can be seen.
-/

set_option autoImplicit false

namespace RowStore

variable {σ ν α β : Type}

/-- Whether a table may stop with the fault. -/
def Fault.isDeclared : Fault → Bool
  | pathTooLong _ => false
  | fileNotCreated _ => false
  | fileNotOpened _ => false
  | undefined _ => false
  | _ => true

theorem Fault.isDeclared_of_aboutPage {fault : Fault} (aboutPage : fault.isAboutPage = true) :
    fault.isDeclared = true := by
  cases fault <;> first | rfl | cases aboutPage

/-- A fault that was made of something else is as faults of that kind are. -/
theorem Fault.isDeclared_of_mapError {ε : Type} {convert : ε → Fault} {result : Except ε α}
    (inside : ∀ cause, (convert cause).isDeclared = true) {fault : Fault}
    (refused : result.mapError convert = .error fault) : fault.isDeclared = true := by
  cases result with
  | ok value => cases refused
  | error cause =>
    cases refused
    exact inside cause

/-- The invariant holds of what the computation leaves behind, in any case, and the computation
stops with allowed faults only. -/
def Preserves (allowed : Fault → Prop) (invariant : σ → Prop) (action : EStateM Fault σ α) : Prop :=
  ∀ state, invariant state → Ends state action (fun _ after => invariant after)
    fun fault after => invariant after ∧ allowed fault

namespace Preserves

variable {allowed : Fault → Prop} {invariant : σ → Prop}

theorem pure (value : α) : Preserves allowed invariant (Pure.pure value) := fun _ holds => holds

theorem throw {fault : Fault} (inside : allowed fault) :
    Preserves allowed invariant (throw fault : EStateM Fault σ α) :=
  fun _ holds => ⟨holds, inside⟩

theorem bind {first : EStateM Fault σ β} {next : β → EStateM Fault σ α}
    (preserves : Preserves allowed invariant first)
    (later : ∀ value, Preserves allowed invariant (next value)) :
    Preserves allowed invariant (first >>= next) := by
  intro state holds
  apply Ends.bind
  exact (preserves state holds).weaken (fun value after => later value after) fun _ _ stops => stops

theorem get {next : σ → EStateM Fault σ α}
    (later : ∀ state, invariant state → Preserves allowed invariant (next state)) :
    Preserves allowed invariant (get >>= next) :=
  fun state holds => later state holds state holds

theorem modify {change : σ → σ} (keeps : ∀ state, invariant state → invariant (change state)) :
    Preserves allowed invariant (modify change : EStateM Fault σ Unit) :=
  keeps

theorem leftBy {action : EStateM Fault σ α} (preserves : Preserves allowed invariant action)
    {state : σ} (holds : invariant state) : invariant (leftBy action state) := by
  have ends := preserves state holds
  unfold RowStore.leftBy
  cases run : action state with
  | ok value after => exact ends.of_ok run
  | error fault after => exact (ends.of_error run).1

end Preserves

/-- The computation leaves alone what can be seen of the state. -/
def Still (look : σ → ν) (action : EStateM Fault σ α) : Prop :=
  ∀ seen, Preserves (·.isDeclared) (fun state => look state = seen) action

namespace Still

variable {look : σ → ν}

theorem pure (value : α) : Still look (Pure.pure value) := fun _ => .pure value

theorem throw {fault : Fault} (inside : fault.isDeclared = true) :
    Still look (throw fault : EStateM Fault σ α) :=
  fun _ => .throw inside

theorem bind {first : EStateM Fault σ β} {next : β → EStateM Fault σ α}
    (still : Still look first) (later : ∀ value, Still look (next value)) :
    Still look (first >>= next) :=
  fun seen => .bind (still seen) fun value => later value seen

theorem get {next : σ → EStateM Fault σ α} (later : ∀ state, Still look (next state)) :
    Still look (get >>= next) :=
  fun seen => .get fun state _ => later state seen

theorem preserves {action : EStateM Fault σ α} (still : Still look action) (invariant : ν → Prop) :
    Preserves (·.isDeclared) (fun state => invariant (look state)) action := by
  intro state holds
  refine (still (look state) state rfl).weaken (fun _ after same => ?_) ?_
  · show invariant (look after)
    rw [same]
    exact holds
  · rintro fault after ⟨same, inside⟩
    refine ⟨?_, inside⟩
    show invariant (look after)
    rw [same]
    exact holds

end Still

/-- How a computation ends depends on what follows a still part only in states that look the
same. -/
theorem bind_congr_of_still {look : σ → ν} {seen : ν} {first : EStateM Fault σ β}
    {next other : β → EStateM Fault σ α} {state : σ} (still : Still look first)
    (same : look state = seen)
    (agree : ∀ value after, look after = seen → next value after = other value after) :
    (first >>= next) state = (first >>= other) state :=
  bind_congr_of_ok fun value after run => agree value after ((still seen state same).of_ok run)

end RowStore
