import RowStore.Fault

/-!
# How computations end

The computations of the store, of a table and of a check carry a state and can stop
with a fault, which keeps the state that was reached. `Ends state action done failed`
says how such a computation ends: with an answer and a state that satisfy `done`, or
with a fault and a state that satisfy `failed`. Proofs follow the computation, one
lemma for each step of it.
-/

set_option autoImplicit false

namespace RowStore

variable {σ α β : Type}

/-- The computation ends in the state as `done` says, or with a fault as `failed` says. -/
def Ends (state : σ) (action : EStateM Fault σ α) (done : α → σ → Prop)
    (failed : Fault → σ → Prop) : Prop :=
  match action state with
  | .ok value after => done value after
  | .error fault after => failed fault after

/-- What a computation answers, whatever it leaves behind. -/
def answer (action : EStateM Fault σ α) (state : σ) : Except Fault α :=
  match action state with
  | .ok value _ => .ok value
  | .error fault _ => .error fault

/-- The state that a computation leaves behind, whether it answers or stops. -/
def leftBy (action : EStateM Fault σ α) (state : σ) : σ :=
  match action state with
  | .ok _ after => after
  | .error _ after => after

/-- A computation is known by its answer and by what it leaves behind. -/
theorem run_of_answer {action : EStateM Fault σ α} {state : σ} {value : α}
    (found : answer action state = .ok value) : action state = .ok value (leftBy action state) := by
  unfold answer at found
  unfold leftBy
  split at found
  next run =>
    cases found
    rw [run]
  next => cases found

theorem stop_of_answer {action : EStateM Fault σ α} {state : σ} {fault : Fault}
    (found : answer action state = .error fault) :
    action state = .error fault (leftBy action state) := by
  unfold answer at found
  unfold leftBy
  split at found
  next => cases found
  next run =>
    cases found
    rw [run]

/-- A computation that ends with an answer has gone through its first part and then the rest. -/
theorem exists_of_bind_ok {first : EStateM Fault σ β} {next : β → EStateM Fault σ α}
    {state last : σ} {value : α} (run : (first >>= next) state = .ok value last) :
    ∃ found after, first state = .ok found after ∧ next found after = .ok value last := by
  change EStateM.bind first next state = .ok value last at run
  unfold EStateM.bind at run
  split at run
  next found after here => exact ⟨found, after, here, run⟩
  next => cases run

/-- How a computation ends depends on what follows its first part only where that got to. -/
theorem bind_congr_of_ok {first : EStateM Fault σ β} {next other : β → EStateM Fault σ α}
    {state : σ} (agree : ∀ value after, first state = .ok value after →
      next value after = other value after) :
    (first >>= next) state = (first >>= other) state := by
  show EStateM.bind first next state = EStateM.bind first other state
  unfold EStateM.bind
  cases run : first state with
  | ok value after => exact agree value after run
  | error fault after => rfl

namespace Ends

variable {state : σ} {action : EStateM Fault σ α} {done : α → σ → Prop}
  {failed : Fault → σ → Prop}

/-- A computation ends in one of two ways. -/
theorem intro (ofOk : ∀ value after, action state = .ok value after → done value after)
    (ofError : ∀ fault after, action state = .error fault after → failed fault after) :
    Ends state action done failed := by
  unfold Ends
  cases run : action state with
  | ok value after => exact ofOk value after run
  | error fault after => exact ofError fault after run

theorem of_ok {after : σ} {value : α} (ends : Ends state action done failed)
    (run : action state = .ok value after) : done value after := by
  rw [Ends, run] at ends
  exact ends

theorem of_error {after : σ} {fault : Fault} (ends : Ends state action done failed)
    (run : action state = .error fault after) : failed fault after := by
  rw [Ends, run] at ends
  exact ends

theorem exists_ok (ends : Ends state action done fun _ _ => False) :
    ∃ value after, action state = .ok value after ∧ done value after := by
  cases run : action state with
  | ok value after => exact ⟨value, after, rfl, ends.of_ok run⟩
  | error fault after => exact (ends.of_error run).elim

theorem answer_eq {result : Except Fault α}
    (ends : Ends state action (fun value _ => result = .ok value)
      fun fault _ => result = .error fault) : answer action state = result := by
  unfold answer
  cases run : action state with
  | ok value after => exact (ends.of_ok run).symm
  | error fault after => exact (ends.of_error run).symm

/-- What holds of the state at the end in both cases holds of what is left behind. -/
theorem leftBy {holds : σ → Prop}
    (ends : Ends state action (fun _ after => holds after) fun _ after => holds after) :
    holds (leftBy action state) := by
  unfold RowStore.leftBy
  cases run : action state with
  | ok value after => exact ends.of_ok run
  | error fault after => exact ends.of_error run

theorem weaken {done' : α → σ → Prop} {failed' : Fault → σ → Prop}
    (strong : Ends state action done' failed')
    (ofDone : ∀ value after, done' value after → done value after)
    (ofFailed : ∀ fault after, failed' fault after → failed fault after) :
    Ends state action done failed := by
  apply intro
  · intro value after run
    exact ofDone value after (strong.of_ok run)
  · intro fault after run
    exact ofFailed fault after (strong.of_error run)

/-- A computation that cannot fail needs nothing said about failing. -/
theorem mono {done' : α → σ → Prop} (sure : Ends state action done' fun _ _ => False)
    (ofDone : ∀ value after, done' value after → done value after) :
    Ends state action done failed :=
  sure.weaken ofDone fun _ _ never => never.elim

theorem and {done' : α → σ → Prop} {failed' : Fault → σ → Prop}
    (first : Ends state action done failed) (second : Ends state action done' failed') :
    Ends state action (fun value after => done value after ∧ done' value after)
      (fun fault after => failed fault after ∧ failed' fault after) := by
  apply intro
  · intro value after run
    exact ⟨first.of_ok run, second.of_ok run⟩
  · intro fault after run
    exact ⟨first.of_error run, second.of_error run⟩

/-- A computation goes on from where its first part ended. -/
theorem bind {next : β → EStateM Fault σ α} {first : EStateM Fault σ β}
    (steps : Ends state first (fun value after => Ends after (next value) done failed) failed) :
    Ends state (first >>= next) done failed := by
  show match EStateM.bind first next state with
    | .ok value after => done value after
    | .error fault after => failed fault after
  unfold EStateM.bind
  cases run : first state with
  | ok value after => exact steps.of_ok run
  | error fault after => exact steps.of_error run

theorem get {done : σ → σ → Prop} (holds : done state state) : Ends state get done failed :=
  holds

end Ends

end RowStore
