import RowStore.Proofs.Outcome

/-!
# Computations in lockstep

Two computations, on states of any two kinds, go in lockstep along a relation if they
answer the same on states in that relation, or stop with the same fault, and leave
states in that relation behind. Nothing that is built from such computations can tell
the two kinds of states apart (`Lockstep.bind`), and neither can any sequence of
requests, which goes on after a fault from the state that is left (`Lockstep.requests`).
-/

set_option autoImplicit false

namespace RowStore

variable {σ τ ρ α β : Type}

/-- The answers to requests one after the other. A request that is refused is answered with its
fault, and the next one goes on from what it left behind. -/
def answersTo (serve : ρ → EStateM Fault σ α) : List ρ → σ → List (Except Fault α)
  | [], _ => []
  | request :: requests, state =>
    answer (serve request) state :: answersTo serve requests (leftBy (serve request) state)

/-- The state after requests one after the other. -/
def leftByAll (serve : ρ → EStateM Fault σ α) (requests : List ρ) (state : σ) : σ :=
  requests.foldl (fun state request => leftBy (serve request) state) state

/-- On states in relation, both computations answer the same and leave states in relation
behind. -/
def Lockstep (related : σ → τ → Prop) (first : EStateM Fault σ α) (second : EStateM Fault τ α) :
    Prop :=
  ∀ state other, related state other → answer first state = answer second other ∧
    related (leftBy first state) (leftBy second other)

namespace Lockstep

variable {related : σ → τ → Prop} {first : EStateM Fault σ α} {second : EStateM Fault τ α}

section Ends

variable {state after : σ} {other after' : τ}

theorem of_ok (value : α) (run : first state = .ok value after)
    (run' : second other = .ok value after') (same : related after after') :
    answer first state = answer second other ∧
      related (leftBy first state) (leftBy second other) := by
  simp only [answer, leftBy, run, run', same, and_self]

theorem of_error (fault : Fault) (stop : first state = .error fault after)
    (stop' : second other = .error fault after') (same : related after after') :
    answer first state = answer second other ∧
      related (leftBy first state) (leftBy second other) := by
  simp only [answer, leftBy, stop, stop', same, and_self]

end Ends

theorem pure (value : α) :
    Lockstep related (Pure.pure value : EStateM Fault σ α) (Pure.pure value) :=
  fun _ _ same => ⟨rfl, same⟩

theorem throw (fault : Fault) :
    Lockstep related (throw fault : EStateM Fault σ α) (throw fault : EStateM Fault τ α) :=
  fun _ _ same => ⟨rfl, same⟩

/-- What is asked of the state itself may only depend on what states in relation have in common. -/
theorem get {next : σ → EStateM Fault σ α} {next' : τ → EStateM Fault τ α}
    (later : ∀ state other, related state other → Lockstep related (next state) (next' other)) :
    Lockstep related (get >>= next) (get >>= next') :=
  fun state other same => later state other same state other same

theorem modify {change : σ → σ} {change' : τ → τ}
    (keeps : ∀ state other, related state other → related (change state) (change' other)) :
    Lockstep related (modify change : EStateM Fault σ Unit) (modify change') :=
  fun state other same => ⟨rfl, keeps state other same⟩

/-- What comes after computations in lockstep may depend on their answer. -/
theorem bind (steps : Lockstep related first second) {next : α → EStateM Fault σ β}
    {next' : α → EStateM Fault τ β} (later : ∀ value, Lockstep related (next value) (next' value)) :
    Lockstep related (first >>= next) (second >>= next') := by
  intro state other same
  obtain ⟨answers, onwards⟩ := steps state other same
  cases found : answer first state with
  | ok value =>
    have run := run_of_answer found
    have run' := run_of_answer (answers.symm.trans found)
    have here : (first >>= next) state = next value (leftBy first state) := by
      show EStateM.bind first next state = _
      rw [EStateM.bind, run]
    have there : (second >>= next') other = next' value (leftBy second other) := by
      show EStateM.bind second next' other = _
      rw [EStateM.bind, run']
    have rest := later value _ _ onwards
    simp only [answer, leftBy, here, there] at rest ⊢
    exact rest
  | error fault =>
    have stop := stop_of_answer found
    have stop' := stop_of_answer (answers.symm.trans found)
    have here : (first >>= next) state = .error fault (leftBy first state) := by
      show EStateM.bind first next state = _
      rw [EStateM.bind, stop]
    have there : (second >>= next') other = .error fault (leftBy second other) := by
      show EStateM.bind second next' other = _
      rw [EStateM.bind, stop']
    exact of_error fault here there onwards

/-- **Sequences of requests go in lockstep if each request does.** -/
theorem requests {serve : ρ → EStateM Fault σ α} {serve' : ρ → EStateM Fault τ α}
    {asked : List ρ}
    (each : ∀ request ∈ asked, Lockstep related (serve request) (serve' request)) {state : σ}
    {other : τ} (same : related state other) :
    answersTo serve asked state = answersTo serve' asked other ∧
      related (leftByAll serve asked state) (leftByAll serve' asked other) := by
  induction asked generalizing state other with
  | nil => exact ⟨rfl, same⟩
  | cons request asked ih =>
    obtain ⟨answers, onwards⟩ := each request List.mem_cons_self state other same
    have each' := fun next member => each next (List.mem_cons_of_mem _ member)
    obtain ⟨later, last⟩ := ih each' onwards
    refine ⟨?_, last⟩
    rw [answersTo, answersTo, answers, later]

end Lockstep

end RowStore
