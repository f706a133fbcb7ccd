import Offload.Proofs.Scene

/-!
# Observed runs

Some statements are about what has happened in a run and not about the state that it has reached,
and a machine's log does not hold everything that happens. An **observer** follows a run and keeps a
record of its own: it sees every step, the state before it and the state after it, and the machine
does not see the observer. So every run can be observed (`Reach.exists_observed`), and a statement
about all observed runs is one about all runs.

## Main results

* `Machine.Observed`: what an observer has on record when a run has reached a state.
* `Machine.Observed.invariant`: what holds at the start and is kept by every step, together with
  the record, holds at every moment.
-/

namespace Offload.Machine

variable {κ ω σ γ α ρ ε τ : Type}

/-- What an observer has on record after a step of a thread, given the states before and after the
step and what was on record before. -/
abbrev Observer (κ ω σ γ α ε τ : Type) :=
  Tid → State κ ω σ γ α ε → State κ ω σ γ α ε → τ → τ

/-- Whether some run from `s₀` reaches a state while an observer, who starts with the record `x₀`,
comes to have the given record. -/
inductive Observed (m : Machine κ ω σ γ α ρ ε) (observe : Observer κ ω σ γ α ε τ)
    (s₀ : State κ ω σ γ α ε) (x₀ : τ) : State κ ω σ γ α ε → τ → Prop where
  | start : Observed m observe s₀ x₀ s₀ x₀
  | step {s s' : State κ ω σ γ α ε} {x : τ} (t : Tid) (choice : Choice) :
      Observed m observe s₀ x₀ s x → m.step t choice s = some s' →
      Observed m observe s₀ x₀ s' (observe t s s' x)

variable {m : Machine κ ω σ γ α ρ ε} {observe : Observer κ ω σ γ α ε τ}
  {s₀ s s' : State κ ω σ γ α ε} {x₀ x x' : τ}

/-- An observed run is a run. -/
theorem Observed.reach (h : m.Observed observe s₀ x₀ s x) : m.Reach s₀ s := by
  induction h with
  | start => exact .start
  | step t choice _ hstep ih => exact .step t choice ih hstep

/-- Every run can be observed. -/
theorem Reach.exists_observed (h : m.Reach s₀ s) (observe : Observer κ ω σ γ α ε τ) (x₀ : τ) :
    ∃ x, m.Observed observe s₀ x₀ s x := by
  induction h with
  | start => exact ⟨x₀, .start⟩
  | step t choice _ hstep ih =>
      obtain ⟨x, hx⟩ := ih
      exact ⟨observe t _ _ x, .step t choice hx hstep⟩

/-- An observer may go on with a run where the observation of its first part has ended. -/
theorem Observed.trans (h : m.Observed observe s₀ x₀ s x) (h' : m.Observed observe s x s' x') :
    m.Observed observe s₀ x₀ s' x' := by
  induction h' with
  | start => exact h
  | step t choice _ hstep ih => exact .step t choice ih hstep

/-- What holds at the start and is kept by every step, together with what is then on record, holds
at every moment. -/
theorem Observed.invariant {P : State κ ω σ γ α ε → τ → Prop} (h : m.Observed observe s₀ x₀ s x)
    (hstart : P s₀ x₀)
    (hstep : ∀ t choice s s' x, m.Reach s₀ s → P s x → m.step t choice s = some s' →
      P s' (observe t s s' x)) : P s x := by
  induction h with
  | start => exact hstart
  | step t choice hreach hst ih => exact hstep t choice _ _ _ hreach.reach ih hst

/-- Runs the entries of a schedule one after the other, without those that cannot step, and observes
this. -/
def follow (m : Machine κ ω σ γ α ρ ε) (observe : Observer κ ω σ γ α ε τ) :
    List (Tid × Choice) → State κ ω σ γ α ε × τ → State κ ω σ γ α ε × τ
  | [], seen => seen
  | (t, choice) :: order, (s, x) =>
    match m.step t choice s with
    | none => m.follow observe order (s, x)
    | some s' => m.follow observe order (s', observe t s s' x)

/-- What a schedule leads to is observed in a run. -/
theorem observed_follow (m : Machine κ ω σ γ α ρ ε) (observe : Observer κ ω σ γ α ε τ)
    (order : List (Tid × Choice)) {seen : State κ ω σ γ α ε × τ}
    (h : m.Observed observe s₀ x₀ seen.1 seen.2) :
    m.Observed observe s₀ x₀ (m.follow observe order seen).1 (m.follow observe order seen).2 := by
  induction order generalizing seen with
  | nil => exact h
  | cons entry order ih =>
      obtain ⟨t, choice⟩ := entry
      rw [follow]
      split
      · exact ih h
      · next s' hstep => exact ih (.step t choice h hstep)

end Offload.Machine
