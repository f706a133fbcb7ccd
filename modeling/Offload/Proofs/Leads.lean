import Offload.Proofs.Observed

/-!
# What a thread is bound to come to

Some conditions on a state **lead** a thread on: while the condition holds the thread can make a
step whatever the scheduler chooses, its own step leads to the next condition, and the steps of the
other threads keep the present one. Conditions that lead from one to the next **bind** a thread: it
comes to the last one by a known number of its own steps, whatever the other threads do meanwhile.

A thread that has to wait for others on its way is not bound. It **nears** its end all the same if
each step of its own takes it nearer, and the others do not take it back: then it has made no more
steps of its own than it had to go.

## Main results

* `Machine.Bound.reach`: in every later state of a run the thread has come to the end, or it can
  make a step and has so many steps of its own to go.
* `Machine.Observed.nears`: in every later state of a run the thread has come to the end, or the
  steps that it has made are no more than it had to go.
* `Machine.Pursues.later`: in every later state of a run a call has come to its end, or its thread
  pursues it.
-/

namespace Offload.Machine

variable {κ ω σ γ α ρ ε : Type}

/-- Whether condition `P` leads thread `t` to condition `Q` by its next step. -/
structure Leads (m : Machine κ ω σ γ α ρ ε) (t : Tid) (P Q : State κ ω σ γ α ε → Prop) : Prop where
  isSome : ∀ s, P s → ∀ choice, (m.step t choice s).isSome = true
  own : ∀ s, P s → ∀ choice s', m.step t choice s = some s' → Q s'
  others : ∀ s, P s → ∀ u, u ≠ t → ∀ choice s', m.step u choice s = some s' → P s'

/-- Whether condition `P` binds thread `t` to come to condition `Q` by `n` steps of its own. -/
inductive Bound (m : Machine κ ω σ γ α ρ ε) (t : Tid) :
    Nat → (State κ ω σ γ α ε → Prop) → (State κ ω σ γ α ε → Prop) → Prop where
  | done (P : State κ ω σ γ α ε → Prop) : Bound m t 0 P P
  | next {n : Nat} {P R Q : State κ ω σ γ α ε → Prop} : m.Leads t P R → Bound m t n R Q →
      Bound m t (n + 1) P Q

variable {m : Machine κ ω σ γ α ρ ε} {t : Tid} {P Q : State κ ω σ γ α ε → Prop}
  {s s' : State κ ω σ γ α ε}

/-- A thread that is bound to take some more steps can take the next one. -/
theorem Bound.isSome {n : Nat} (h : m.Bound t (n + 1) P Q) (hs : P s) (choice : Choice) :
    (m.step t choice s).isSome = true := by
  cases h with
  | next hleads _ => exact hleads.isSome s hs choice

/-- **Bound.** In every later state the thread has come to the end, or is on its way: then it can
make a step, and has at most as many to go as at the beginning. -/
theorem Bound.reach {n : Nat} (h : m.Bound t n P Q) (hs : P s) (hreach : m.Reach s s') :
    (∃ s₁, m.Reach s s₁ ∧ m.Reach s₁ s' ∧ Q s₁) ∨
      ∃ k < n, ∃ R, m.Bound t (k + 1) R Q ∧ R s' := by
  induction hreach with
  | start =>
      cases h with
      | done => exact .inl ⟨s, .start, .start, hs⟩
      | @next n _ _ _ hleads hrest => exact .inr ⟨n, n.lt_succ_self, P, .next hleads hrest, hs⟩
  | @step s₂ s₃ u choice hreach hstep ih =>
      rcases ih with ⟨s₁, hto, hfrom, hend⟩ | ⟨k, hk, R, hbound, hR⟩
      · exact .inl ⟨s₁, hto, .step u choice hfrom hstep, hend⟩
      · cases hbound with
        | @next _ _ R' _ hleads hrest =>
            by_cases hu : u = t
            · subst hu
              have hnext := hleads.own s₂ hR choice s₃ hstep
              cases hrest with
              | done => exact .inl ⟨s₃, .step u choice hreach hstep, .start, hnext⟩
              | @next j _ _ _ hleads' hrest' =>
                  exact .inr ⟨j, Nat.lt_of_succ_lt hk, R', .next hleads' hrest', hnext⟩
            · exact .inr ⟨k, hk, R, .next hleads hrest, hleads.others s₂ hR u hu choice s₃ hstep⟩

/-! ### Nearing the end -/

/-- An observer who counts the steps that a thread makes. -/
def ownSteps (t : Tid) : Observer κ ω σ γ α ε Nat :=
  fun u _ _ k => if u = t then k + 1 else k

/-- **Nearing.** Where `P n` says that thread `t` has at most `n` steps of its own to go to the end
`Q`, in every later state it has come to the end, or has so many steps less to go as it has made. -/
theorem Observed.nears {P : Nat → State κ ω σ γ α ε → Prop} {n k : Nat}
    (hown : ∀ n s choice s', P n s → m.step t choice s = some s' → Q s' ∨ ∃ n' < n, P n' s')
    (hothers : ∀ n s u choice s', u ≠ t → P n s → m.step u choice s = some s' → Q s' ∨ P n s')
    (hs : P n s) (h : m.Observed (ownSteps t) s 0 s' k) :
    (∃ s₁, m.Reach s s₁ ∧ m.Reach s₁ s' ∧ Q s₁) ∨ ∃ n', n' + k ≤ n ∧ P n' s' := by
  induction h with
  | start => exact .inr ⟨n, Nat.le_refl _, hs⟩
  | @step s₂ s₃ k u choice hobserved hstep ih =>
      rcases ih with ⟨s₁, hto, hfrom, hend⟩ | ⟨n', hn', hP⟩
      · exact .inl ⟨s₁, hto, .step u choice hfrom hstep, hend⟩
      · by_cases hu : u = t
        · subst hu
          rcases hown n' s₂ choice s₃ hP hstep with hend | ⟨n'', hlt, hP'⟩
          · exact .inl ⟨s₃, .step u choice hobserved.reach hstep, .start, hend⟩
          · refine .inr ⟨n'', ?_, hP'⟩
            rw [ownSteps, if_pos rfl]
            omega
        · rcases hothers n' s₂ u choice s₃ hu hP hstep with hend | hP'
          · exact .inl ⟨s₃, .step u choice hobserved.reach hstep, .start, hend⟩
          · refine .inr ⟨n', ?_, hP'⟩
            rwa [ownSteps, if_neg hu]

/-! ### Above a call -/

/-- The outermost layer of a thread that was started with a call, if it has not ended, is a call. -/
theorem exists_root {frames : Stack κ γ α} (h : Nested true frames) (hne : frames ≠ []) :
    ∃ above call, frames = above ++ [.call call] := by
  generalize hrooted : true = rooted at h
  induction h with
  | done => exact absurd rfl hne
  | code position => cases hrooted
  | call call => exact ⟨[], call, rfl⟩
  | ran position call _ ih =>
      obtain ⟨above, root, heq⟩ := ih (List.cons_ne_nil _ _) hrooted
      exact ⟨.code position :: above, root, congrArg _ heq⟩
  | @asked _ rest position call k _ ih =>
      obtain ⟨above, root, heq⟩ := ih (List.cons_ne_nil _ _) hrooted
      cases above with
      | nil => cases heq
      | cons frame above =>
          obtain ⟨-, rfl⟩ := List.cons.inj heq
          exact ⟨.call call :: .wait k :: above, root, rfl⟩

/-- While code runs above a call, the call stays where it is, and it goes on when the code has
ended; or everything stops. -/
theorem above_of_step {choice : Choice} {above below : Stack κ γ α} {call : γ}
    (hnest : Nested false above) (hne : above ≠ [])
    (hstack : s.stack t = above ++ .call call :: below)
    (h : m.step t choice s = some s') :
    (∃ above', above' ≠ [] ∧ Nested false above' ∧ s'.stack t = above' ++ .call call :: below) ∨
      (∃ result, s'.stack t = .call (m.resume call result) :: below) ∨ s'.aborted = true := by
  have hthread : s.stack t ≠ [] := by simp [hstack]
  cases hnest with
  | done => exact absurd rfl hne
  | code position =>
      cases (stepped_of_step h).2 with
      | ended result hcode =>
          cases hstack.symm.trans hcode
          exact .inr (.inl ⟨result, State.stack_withStack_self _ hthread⟩)
      | noted hcode _ | acted hcode =>
          cases hstack.symm.trans hcode
          exact .inl ⟨[.code _], List.cons_ne_nil _ _, .code _,
            State.stack_withStack_self _ hthread⟩
      | @called _ _ call' k hcode _ =>
          cases hstack.symm.trans hcode
          exact .inl ⟨[.call call', .wait k], List.cons_ne_nil _ _, .asked call' k (.code position),
            State.stack_withStack_self _ hthread⟩
      | turned hcall _ _ => cases hstack.symm.trans hcall
  | @ran _ rest position call' hnest =>
      cases (stepped_of_step h).2 with
      | ended result hcode =>
          cases hstack.symm.trans hcode
          exact .inl ⟨_, List.cons_ne_nil _ _, hnest.withCall (m.resume call' result),
            State.stack_withStack_self _ hthread⟩
      | @noted _ position' _ _ hcode _ | @acted _ position' _ _ hcode =>
          cases hstack.symm.trans hcode
          exact .inl ⟨_, List.cons_ne_nil _ _, .ran position' call' hnest,
            State.stack_withStack_self _ hthread⟩
      | @called _ _ call'' k hcode _ =>
          cases hstack.symm.trans hcode
          exact .inl ⟨_, List.cons_ne_nil _ _, .asked call'' k (.ran position call' hnest),
            State.stack_withStack_self _ hthread⟩
      | turned hcall _ _ => cases hstack.symm.trans hcall
  | @asked _ rest position call' k hnest =>
      cases (stepped_of_step h).2 with
      | ended _ hcode | noted hcode _ | acted hcode | called hcode _ =>
          cases hstack.symm.trans hcode
      | @turned _ _ _ _ r _ hcall _ haborted =>
          cases hstack.symm.trans hcall
          by_cases hr : r = .abort
          · exact .inr (.inr (haborted.mpr hr))
          · refine .inl ⟨afterTurn (.wait k :: rest) r, ?_, (hnest.asked call' k).afterTurn r,
              (State.stack_withStack_self _ hthread).trans ?_⟩
            · cases r with
              | abort => exact absurd rfl hr
              | stay _ | run _ _ | ret _ | fail _ => exact List.cons_ne_nil _ _
            · cases r with
              | abort => exact absurd rfl hr
              | stay _ | run _ _ | ret _ | fail _ => rfl

/-- A call goes on in the step in which the code right above it ends, with the end of that code. -/
theorem end_of_step {choice : Choice} {above below : Stack κ γ α} {call call' : γ}
    (hnest : Nested false above) (hne : above ≠ [])
    (hstack : s.stack t = above ++ .call call :: below)
    (h : m.step t choice s = some s') (hstack' : s'.stack t = .call call' :: below) :
    ∃ position, above = [.code position] ∧
      ((∃ result, m.next position = .ret result ∧ call' = m.resume call (.ok result)) ∨
        ∃ fault, m.next position = .fail fault ∧ call' = m.resume call (.error fault)) := by
  have hthread : s.stack t ≠ [] := by simp [hstack]
  have hgoes : ∀ {s₁ : State κ ω σ γ α ε} {frames : Stack κ γ α}, s' = s₁ →
      s₁.stack t = frames → frames = .call call' :: below := by
    rintro s₁ frames rfl rfl
    exact hstack'
  cases hnest with
  | done => exact absurd rfl hne
  | code position =>
      refine ⟨position, rfl, ?_⟩
      rw [List.singleton_append] at hstack
      simp only [step, (stepped_of_step h).1, Bool.false_eq_true, if_false, stepThread, hstack] at h
      split at h
      · next result hnext =>
        cases hgoes (Option.some.inj h).symm (State.stack_withStack_self _ hthread)
        exact .inl ⟨result, hnext, rfl⟩
      · next fault hnext =>
        cases hgoes (Option.some.inj h).symm (State.stack_withStack_self _ hthread)
        exact .inr ⟨fault, hnext, rfl⟩
      · cases hgoes (Option.some.inj h).symm (State.stack_withStack_self _ hthread)
      · obtain ⟨⟨world, position'⟩, -, heq⟩ := Option.map_eq_some_iff.mp h
        cases hgoes heq.symm (State.stack_withStack_self _ hthread)
      · have hlength := congrArg List.length
          (hgoes (Option.some.inj h).symm (State.stack_withStack_self _ hthread))
        simp only [List.length_cons] at hlength
        omega
  | ran position call₁ _ =>
      -- more than the call stays
      cases (stepped_of_step h).2 with
      | ended _ hcode | noted hcode _ | acted hcode | called hcode _ =>
          cases hstack.symm.trans hcode
          have hlength := congrArg List.length
            (hgoes rfl (State.stack_withStack_self _ hthread))
          simp only [finishCode, List.append_eq, List.cons_append, List.length_cons,
            List.length_append] at hlength
          omega
      | turned hcall _ _ => cases hstack.symm.trans hcall
  | asked call₁ k _ =>
      cases (stepped_of_step h).2 with
      | ended _ hcode | noted hcode _ | acted hcode | called hcode _ =>
          cases hstack.symm.trans hcode
      | @turned _ _ _ _ r _ hcall _ _ =>
          cases hstack.symm.trans hcall
          have hframes := hgoes rfl (State.stack_withStack_self _ hthread)
          cases r with
          | stay _ | run _ _ =>
              have hlength := congrArg List.length hframes
              simp only [afterTurn, List.length_cons, List.length_append, List.append_eq] at hlength
              omega
          | ret _ | fail _ | abort => cases hframes

/-! ### Histories -/

/-- A state from which a run goes on to one that is not aborted is not aborted itself. -/
theorem Reach.live (h : m.Reach s s') (hlive : s'.aborted = false) : s.aborted = false := by
  by_contra haborted
  rw [h.eq_of_aborted (Bool.eq_true_of_not_eq_false haborted)] at hlive
  exact haborted hlive

/-- A run adds to the history. -/
theorem Reach.exists_later (h : m.Reach s s') : ∃ later, s'.history = s.history ++ later := by
  induction h with
  | start => exact ⟨[], (List.append_nil _).symm⟩
  | @step s₁ s₂ t choice _ hstep ih =>
      obtain ⟨later, hlater⟩ := ih
      have hadds : ∃ events, s₂.history = s₁.history ++ events := by
        cases (stepped_of_step hstep).2 with
        | ended _ _ | acted _ | called _ _ => exact ⟨[], (List.append_nil _).symm⟩
        | noted _ _ => exact ⟨_, State.history_noting _ t _⟩
        | turned _ _ _ => exact ⟨_, State.history_noting _ t _⟩
      obtain ⟨events, hevents⟩ := hadds
      exact ⟨later ++ events, by rw [hevents, hlater, List.append_assoc]⟩

/-! ### Pursuing a call -/

/-- Whether thread `t` makes a call of this kind above the layers `below`, perhaps while code runs
for it. -/
inductive Pursues (t : Tid) (below : Stack κ γ α) (P : γ → Prop) (s : State κ ω σ γ α ε) :
    Prop where
  | itself (call : γ) : s.stack t = .call call :: below → P call → Pursues t below P s
  | within (above : Stack κ γ α) (call : γ) : above ≠ [] → Nested false above →
      s.stack t = above ++ .call call :: below → P call → Pursues t below P s

theorem Pursues.exists_call {below : Stack κ γ α} {P : γ → Prop} (h : Pursues t below P s) :
    ∃ above call, s.stack t = above ++ .call call :: below ∧ P call := by
  cases h with
  | itself call hstack hcall => exact ⟨[], call, hstack, hcall⟩
  | within above call _ _ hstack hcall => exact ⟨above, call, hstack, hcall⟩

/-- A thread that pursues a call has more layers than those below it. -/
theorem Pursues.length_lt {below : Stack κ γ α} {P : γ → Prop} (h : Pursues t below P s) :
    below.length < (s.stack t).length := by
  obtain ⟨above, call, hstack, -⟩ := h.exists_call
  rw [hstack, List.length_append, List.length_cons]
  omega

/-- The call that a thread makes above the layers `below` is the one that it pursues. -/
theorem Pursues.of_call {below : Stack κ γ α} {P : γ → Prop} {call : γ} (h : Pursues t below P s)
    (hstack : s.stack t = .call call :: below) : P call := by
  obtain ⟨above, call', hstack', hcall⟩ := h.exists_call
  have hlength := congrArg List.length (hstack.symm.trans hstack')
  simp only [List.length_append, List.length_cons] at hlength
  obtain rfl : above = [] := List.length_eq_zero_iff.mp (by omega)
  cases hstack.symm.trans hstack'
  exact hcall

/-- What other threads do leaves the call to the thread. -/
theorem Pursues.of_stack_eq {below : Stack κ γ α} {P : γ → Prop} (h : Pursues t below P s)
    (hsame : s'.stack t = s.stack t) : Pursues t below P s' := by
  cases h with
  | itself call hstack hcall => exact .itself call (hsame.trans hstack) hcall
  | within above call hne hnest hstack hcall =>
      exact .within above call hne hnest (hsame.trans hstack) hcall

/-- A call that ends leaves no more layers than those below it. -/
theorem length_finishCall_le (answer : Except Fault α) (rest : Stack κ γ α) :
    (finishCall answer rest).length ≤ rest.length := by
  rcases rest with _ | ⟨_ | _ | _, rest⟩ <;> exact Nat.le_refl _

theorem Pursues.mono {below : Stack κ γ α} {P P' : γ → Prop} (h : Pursues t below P s)
    (himp : ∀ call, P call → P' call) : Pursues t below P' s := by
  cases h with
  | itself call hstack hcall => exact .itself call hstack (himp call hcall)
  | within above call hne hnest hstack hcall =>
      exact .within above call hne hnest hstack (himp call hcall)

/-- A call that goes on, at once or when code has ended, is pursued. -/
theorem Pursues.of_next {below : Stack κ γ α} {P : γ → Prop} {r : Turn κ γ α} (call : γ)
    (hafter : s.stack t = afterTurn below r) (hnext : r.next? = some call) (hcall : P call) :
    Pursues t below P s := by
  cases r with
  | stay call' =>
      cases hnext
      exact .itself call hafter hcall
  | run code call' =>
      cases hnext
      exact .within [.code code] call (List.cons_ne_nil _ _) (.code code) hafter hcall
  | ret _ | fail _ | abort => cases hnext

/-- **Pursuing a call.** If each step that the thread makes in such calls ends them or leads to such
a call, then in every later state they have ended or the thread pursues one. -/
theorem Pursues.later {below : Stack κ γ α} {P : γ → Prop}
    {End : State κ ω σ γ α ε → State κ ω σ γ α ε → Prop} {s₀ : State κ ω σ γ α ε}
    (hown : ∀ s call choice s', m.Reach s₀ s → s.stack t = .call call :: below → P call →
      m.step t choice s = some s' → s'.aborted = false → End s s' ∨ Pursues t below P s')
    (hresume : ∀ call result, P call → P (m.resume call result)) (h : m.Reach s₀ s)
    (hs : Pursues t below P s) (h' : m.Reach s s') (hlive : s'.aborted = false) :
    (∃ s₁ choice s₂, m.Reach s s₁ ∧ m.step t choice s₁ = some s₂ ∧ m.Reach s₂ s' ∧ End s₁ s₂) ∨
      Pursues t below P s' := by
  induction h' with
  | start => exact .inr hs
  | @step s₂ s₃ u choice hreach hstep ih =>
      rcases ih (stepped_of_step hstep).1 with ⟨s₁, choice₁, s₁', hto, hst, hfrom, hend⟩ | hon
      · exact .inl ⟨s₁, choice₁, s₁', hto, hst, .step u choice hfrom hstep, hend⟩
      · by_cases hu : u = t
        · subst hu
          cases hon with
          | itself call hstack hcall =>
              exact (hown s₂ call choice s₃ (h.trans hreach) hstack hcall hstep hlive).imp_left
                fun hend => ⟨s₂, choice, s₃, hreach, hstep, .start, hend⟩
          | within above call hne hnest hstack hcall =>
              rcases above_of_step hnest hne hstack hstep with
                ⟨above', hne', hnest', hstack'⟩ | ⟨result, hstack'⟩ | haborted
              · exact .inr (.within above' call hne' hnest' hstack' hcall)
              · exact .inr (.itself _ hstack' (hresume call result hcall))
              · rw [haborted] at hlive
                cases hlive
        · exact .inr (hon.of_stack_eq (stack_of_step_ne hstep (Ne.symm hu)))

end Offload.Machine
