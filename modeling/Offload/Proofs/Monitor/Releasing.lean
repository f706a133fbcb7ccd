import Mathlib.Algebra.GroupWithZero.Nat
import Mathlib.Algebra.Order.BigOperators.Group.List
import Mathlib.Algebra.Order.Group.Nat
import Mathlib.Data.List.Perm.Basic
import Offload.Proofs.Locks
import Offload.Proofs.Monitor.Handles
import Offload.Proofs.Monitor.Leases
import Offload.Proofs.Monitor.Waking

/-!
# A notification of all releases all

Threads sleep in visits whose predicates are all true of the value, and each of their critical
sections keeps them all true and does not fail. Then all threads are notified, and nobody else
changes the value. Whoever wakes takes the lock, finds its predicate true or, on a poisoned monitor,
does not test it, runs its section and returns with the result. Since the lock is owned from the
wake-up to the return, the sections run in the order of the wake-ups, and the value is what they
have made of it one after the other. None goes back to sleep, so that each has four steps at most,
and as long as nobody else has the lock, one of those that have not returned can make the next.

## Main results

* `Guarded.tenure_of_reach`: who owns the lock can make a step, or has a lease.
* `Guarded.Waiters.released_of_step`: what holds of the waiters, kept by every step.
* `Guarded.Waiters.comes_of_released`: left to themselves, the waiters all return.
* `Guarded.all_released`: every waiter is released, in every run.
-/

namespace Offload.Guarded

variable {κ ω α β ρ ε : Type} {next : κ → Move κ ω (Call α β) (Answer β) ρ ε} {value : α}
  {world : ω} {codes : List κ} {s s' : State κ ω (Guarded α) (Call α β) (Answer β) ε} {t u : Tid}
  {choice : Choice}

/-! ### Who owns the lock -/

/-- Who owns the lock is in a visit that does, or has the lease; and who has the lease is in no
visit that has had the lock. -/
structure Tenure (s : State κ ω (Guarded α) (Call α β) (Answer β) ε) : Prop where
  owner : ∀ t, s.shared.monitor.owner = some t →
    (∃ v phase, current s t = some (.visit v phase) ∧ phase.owns = true) ∨
      ∃ l, s.shared.lease = some l ∧ l.holder = t
  holder : ∀ l, s.shared.lease = some l → ∀ v phase,
    current s l.holder = some (.visit v phase) → phase = .arriving

/-- A turn of a thread that owns the lock afterwards leaves it in a visit that does, or with the
lease. -/
theorem owner_of_turned {g g' : Guarded α} {call : Call α β} {r : Turn κ (Call α β) (Answer β)}
    (h : Turned t choice g call g' r)
    (hown : g.monitor.owner = some t →
      (∃ v phase, call = .visit v phase ∧ phase.owns = true) ∨ ∃ l, g.lease = some l ∧ l.holder = t)
    (hother : ∀ u, g.monitor.owner = some u → u = t) :
    ∀ u, g'.monitor.owner = some u → u = t ∧
      ((∃ v phase, r = .stay (.visit v phase) ∧ phase.owns = true) ∨
        ∃ l, g'.lease = some l ∧ l.holder = t) := by
  intro u howner
  cases h with
  | @visitedOn v phase phase' monitor hturn =>
      generalize hprogress : Progress.on phase' = progress at hturn
      cases Visit.turned_of_turn hturn with
      | arrived _ | woken _ _ | wokenLate _ =>
          cases hprogress
          refine ⟨(Option.some.inj howner).symm, .inl ⟨v, _, rfl, ?_⟩⟩
          split <;> rfl
      | tested again _ =>
          cases hprogress
          refine ⟨hother u howner, .inl ⟨v, _, rfl, ?_⟩⟩
          rw [Visit.afterTest.eq_def]
          split
          · rfl
          · rfl
          · split <;> rfl
      | untested _ _ | acted _ =>
          cases hprogress
          exact ⟨hother u howner, .inl ⟨v, _, rfl, rfl⟩⟩
      | slept => cases howner
      | stirred _ | expired _ _ =>
          obtain rfl := hother u howner
          obtain ⟨_, _, heq, howns⟩ | hlease := hown howner
          · cases heq
            cases howns
          · exact ⟨rfl, .inr hlease⟩
      | left _ | leftFaulted _ => cases howner
  | @visitedOver v outcome monitor hturn =>
      cases outcome <;>
      · cases hturn
        cases howner
  | @notified call sleepers hcall =>
      obtain rfl := hother u howner
      obtain ⟨v, phase, heq, -⟩ | hlease := hown howner
      · exact absurd heq (hcall v phase)
      · exact ⟨rfl, .inr hlease⟩
  | leased _ => exact ⟨(Option.some.inj howner).symm, .inr ⟨_, rfl, rfl⟩⟩
  | excluded body hfree => cases hfree.symm.trans howner
  | used hcall hlease hholder hafter _ =>
      obtain ⟨l', hlease', hholder', hsame⟩ | ⟨-, hnone⟩ := hafter
      · exact ⟨hother u (hsame.symm.trans howner), .inr ⟨l', hlease', hholder'⟩⟩
      · cases hnone.symm.trans howner

/-- A turn that leaves a lease leaves the one that was out, or that of the thread. -/
theorem lease_cases_of_turned {g g' : Guarded α} {call : Call α β}
    {r : Turn κ (Call α β) (Answer β)} (h : Turned t choice g call g' r) {l : Lease}
    (hlease : g'.lease = some l) :
    g.lease = some l ∨ l.holder = t ∧ ∀ v phase, call ≠ .visit v phase := by
  cases h with
  | visitedOn _ | visitedOver _ | notified _ _ | excluded _ _ => exact .inl hlease
  | leased _ =>
      cases hlease
      exact .inr ⟨rfl, nofun⟩
  | used hcall _ _ hafter _ =>
      obtain ⟨l', hlease', hholder', -⟩ | ⟨hnone, -⟩ := hafter
      · cases hlease'.symm.trans hlease
        exact .inr ⟨hholder', hcall⟩
      · cases hnone.symm.trans hlease

/-- **Who owns the lock, one step.** -/
theorem tenure_of_step (h : (machine next).Reach (.ofCodes (new value) world codes) s)
    (hs : Tenure s) (hstep : (machine next).step t choice s = some s') : Tenure s' := by
  obtain ⟨hmoved, hothers⟩ := moved_of_step h hstep
  obtain ⟨-, hlease⟩ := guarded_of_reach h
  refine ⟨fun u howner' => ?_, fun l hl v phase hcall => ?_⟩
  · by_cases hother : ∃ w, s.shared.monitor.owner = some w ∧ w ≠ t
    · -- the owner is another thread, and stays it
      obtain ⟨w, howner, hw⟩ := hother
      obtain ⟨-, hsame, -, hsame'⟩ := frame_of_step h howner (Ne.symm hw) hstep
      obtain rfl : w = u := Option.some.inj (howner.symm.trans (hsame.symm.trans howner'))
      rw [hothers w hw, hsame']
      exact hs.owner w howner
    · have hown : ∀ w, s.shared.monitor.owner = some w → w = t := by
        intro w howner
        by_contra hw
        exact hother ⟨w, howner, hw⟩
      cases hmoved with
      | coded hcode hshared _ =>
          rw [hshared] at howner' ⊢
          obtain rfl := hown u howner'
          obtain ⟨v, phase, hcall, -⟩ | hheld := hs.owner u howner'
          · cases hcode.symm.trans hcall
          · exact .inr hheld
      | @turned call rest r hstack hturn _ hgoes =>
          have hcurrent := current_of_stack hstack
          have hfirst : s.shared.monitor.owner = some t →
              (∃ v phase, call = .visit v phase ∧ phase.owns = true) ∨
                ∃ l, s.shared.lease = some l ∧ l.holder = t := by
            intro howner
            refine (hs.owner t howner).imp_left ?_
            rintro ⟨v, phase, hcall, howns⟩
            exact ⟨v, phase, Option.some.inj (hcurrent.symm.trans hcall), howns⟩
          obtain ⟨rfl, hafter⟩ := owner_of_turned (turned_of_turn hturn) hfirst hown u howner'
          refine hafter.imp_left ?_
          rintro ⟨v, phase, rfl, howns⟩
          exact ⟨v, phase, (hgoes _).mpr rfl, howns⟩
  · cases hmoved with
    | coded hcode hshared hfresh =>
        rw [hshared] at hl
        by_cases hholder : l.holder = t
        · rw [hholder] at hcall
          obtain ⟨request, heq⟩ := hfresh _ hcall
          cases request with
          | visit _ _ =>
              cases heq
              rfl
          | _ => cases heq
        · exact hs.holder l hl v phase ((hothers _ hholder).symm.trans hcall)
    | @turned call rest r hstack hturn _ hgoes =>
        have hcurrent := current_of_stack hstack
        by_cases hholder : l.holder = t
        · rw [hholder] at hcall
          obtain ⟨v', phase₀, phase', monitor, rfl, heq, -, hvisit⟩ :=
            visit_of_stay hturn ((hgoes _).mp hcall)
          cases heq
          -- the holder's visit cannot go on, for it wants the lock
          obtain hl₀ | ⟨-, hcall'⟩ := lease_cases_of_turned (turned_of_turn hturn) hl
          · obtain rfl := hs.holder l hl₀ v phase₀ (hholder ▸ hcurrent)
            generalize Progress.on phase = progress at hvisit
            cases Visit.turned_of_turn hvisit with
            | arrived hfree => cases hfree.symm.trans (hlease l hl₀)
          · exact absurd rfl (hcall' v phase₀)
        · obtain hl₀ | ⟨hholder', -⟩ := lease_cases_of_turned (turned_of_turn hturn) hl
          · exact hs.holder l hl₀ v phase ((hothers _ hholder).symm.trans hcall)
          · exact absurd hholder' hholder

/-- **Who owns the lock**, in every run. -/
theorem tenure_of_reach (h : (machine next).Reach (.ofCodes (new value) world codes) s) :
    Tenure s := by
  induction h with
  | start => exact ⟨nofun, nofun⟩
  | step t choice hreach hstep ih => exact tenure_of_step hreach ih hstep

/-- The owner of the lock can make a step, unless it has a lease. -/
theorem isSome_step_of_owner (h : (machine next).Reach (.ofCodes (new value) world codes) s)
    (howner : s.shared.monitor.owner = some t) :
    (∃ l, s.shared.lease = some l ∧ l.holder = t) ∨
      ∀ choice, ((machine next).step t choice s).isSome = true := by
  obtain ⟨v, phase, hcall, howns⟩ | hlease := (tenure_of_reach h).owner t howner
  · obtain ⟨rest, hstack⟩ := exists_stack_of_current hcall
    refine .inr fun choice => ?_
    rw [Machine.isSome_step_call (live_of_reach h) hstack]
    exact (Option.isSome_map ..).trans ((Option.isSome_map ..).trans
      (Visit.isSome_turn howns t choice))
  · exact .inl hlease

/-- A thread asleep does not own the lock. -/
theorem owner_ne_of_asleep (h : (machine next).Reach (.ofCodes (new value) world codes) s)
    {v : Visit α β} (hcall : current s t = some (.visit v .asleep)) :
    s.shared.monitor.owner ≠ some t := by
  intro howner
  have htenure := tenure_of_reach h
  obtain ⟨v', phase, hcall', howns⟩ | ⟨l, hl, rfl⟩ := htenure.owner t howner
  · cases hcall.symm.trans hcall'
    cases howns
  · cases htenure.holder l hl v .asleep hcall

/-- A step puts no other thread to sleep. -/
theorem mem_sleepers_of_step (h : (machine next).Reach (.ofCodes (new value) world codes) s)
    (hstep : (machine next).step t choice s = some s') (hu : u ≠ t)
    (hmem : u ∈ s'.shared.monitor.sleepers) : u ∈ s.shared.monitor.sleepers := by
  obtain ⟨hmoved, -⟩ := moved_of_step h hstep
  cases hmoved with
  | coded _ hshared _ => rwa [hshared] at hmem
  | @turned call rest r _ hturn _ _ =>
      generalize s'.shared = g' at hturn hmem
      by_cases hvisit : ∃ v phase, call = .visit v phase
      · obtain ⟨v, phase, rfl⟩ := hvisit
        obtain ⟨⟨monitor, progress⟩, hvisit, heq⟩ := Option.map_eq_some_iff.mp hturn
        cases heq
        cases Visit.turned_of_turn hvisit with
        | slept =>
            rcases List.mem_append.mp hmem with hmem | hmem
            · exact hmem
            · exact absurd (List.mem_singleton.mp hmem) hu
        | stirred _ | expired _ _ => exact List.mem_of_mem_erase hmem
        | arrived _ | tested _ _ | untested _ _ | woken _ _ | wokenLate _ | acted _ | left _
        | leftFaulted _ => exact hmem
      · cases operated_of_turn (fun v phase heq => hvisit ⟨v, phase, heq⟩) hturn with
        | notifiedOne => exact List.mem_of_mem_eraseIdx hmem
        | notifiedAll => cases hmem
        | returned faulted _ _ _ _ => cases faulted <;> exact hmem
        | leased _ | excluded _ _ | shared _ _ | unshared _ _ _ _ | counted _ _ | entered _ _ _
        | refused _ _ _ | updated _ _ _ _ | exited _ _ => exact hmem

/-! ### Steps of a visit that has been notified -/

section Visits

variable {v : Visit α β} {rest : Stack κ (Call α β) (Answer β)}

/-- A visit that has been notified takes the lock, and goes on to test its predicate or, on a
poisoned monitor, to run its section. -/
theorem woken_of_step (hstack : s.stack t = .call (.visit v .asleep) :: rest)
    (hnotified : t ∉ s.shared.monitor.sleepers)
    (hstep : (machine next).step t choice s = some s') :
    s.shared.monitor.owner = none ∧ s'.shared.monitor.value = s.shared.monitor.value ∧
      (s'.stack t = .call (.visit v (.testing true)) :: rest ∨
        s'.stack t = .call (.visit v (.acting true)) :: rest) := by
  obtain ⟨monitor, progress, hturn, hmonitor, hstack'⟩ := visit_of_step hstack hstep
  rw [hmonitor, hstack']
  cases Visit.turned_of_turn hturn with
  | stirred hsleeps | expired hsleeps _ => exact absurd hsleeps hnotified
  | woken _ hfree =>
      refine ⟨hfree, rfl, ?_⟩
      split
      · exact .inr rfl
      · exact .inl rfl

/-- A visit that finds its predicate true goes on to run its section. -/
theorem tested_of_step {p : α → Except Fault Bool} {again : Bool}
    (hstack : s.stack t = .call (.visit v (.testing again)) :: rest) (hawait : v.await = some p)
    (htrue : p s.shared.monitor.value = .ok true)
    (hstep : (machine next).step t choice s = some s') :
    s'.shared.monitor.value = s.shared.monitor.value ∧
      s'.stack t = .call (.visit v (.acting again)) :: rest := by
  obtain ⟨monitor, progress, hturn, hmonitor, hstack'⟩ := visit_of_step hstack hstep
  rw [hmonitor, hstack']
  cases Visit.turned_of_turn hturn with
  | tested _ hp =>
      cases hawait.symm.trans hp
      rw [htrue]
      exact ⟨rfl, rfl⟩
  | untested _ hnone => cases hawait.symm.trans hnone

/-- A visit runs its section, and goes on to leave with the result. -/
theorem acted_of_step {again : Bool} {b : β}
    (hstack : s.stack t = .call (.visit v (.acting again)) :: rest)
    (hbody : (v.body s.shared.monitor.value).2 = .ok b)
    (hstep : (machine next).step t choice s = some s') :
    s'.shared.monitor.value = (v.body s.shared.monitor.value).1 ∧
      s'.stack t = .call (.visit v (.leaving (.ok (some b)))) :: rest := by
  obtain ⟨monitor, progress, hturn, hmonitor, hstack'⟩ := visit_of_step hstack hstep
  rw [hmonitor, hstack']
  cases Visit.turned_of_turn hturn with
  | acted _ =>
      rw [hbody]
      exact ⟨rfl, rfl⟩

/-- A visit leaves with the result and gives up the lock, and its caller goes on. -/
theorem left_of_step {b : β}
    (hstack : s.stack t = .call (.visit v (.leaving (.ok (some b)))) :: rest)
    (hstep : (machine next).step t choice s = some s') :
    s'.shared.monitor.owner = none ∧ s'.shared.monitor.value = s.shared.monitor.value ∧
      s'.stack t = Machine.finishCall (.ok (.value b)) rest := by
  obtain ⟨monitor, progress, hturn, hmonitor, hstack'⟩ := visit_of_step hstack hstep
  rw [hmonitor, hstack']
  cases Visit.turned_of_turn hturn with
  | left _ => exact ⟨rfl, rfl, rfl⟩

end Visits

/-! ### Waiters -/

/-- Threads that are in visits, with the visits and the layers below them. -/
structure Waiters (κ α β : Type) where
  threads : List Tid
  visit : Tid → Visit α β
  below : Tid → Stack κ (Call α β) (Answer β)

/-- What an observer has on record of waiters that have been notified. -/
structure Roll where
  /-- The waiters that have woken, in this order. -/
  woken : List Tid := []
  /-- The waiters that have run their sections, in this order. -/
  ran : List Tid := []
  /-- The waiters that have returned, in this order. -/
  returned : List Tid := []
  /-- How many steps each thread has made. -/
  steps : Tid → Nat := fun _ => 0
  /-- Whether the value has been changed, but not by a waiter before the end of its section. -/
  disturbed : Prop := False

namespace Waiters

variable {W : Waiters κ α β}

/-- Whether all that the waiters wait for is true of the value. -/
def Content (W : Waiters κ α β) (a : α) : Prop :=
  ∀ t ∈ W.threads, ∃ p, (W.visit t).await = some p ∧ p a = .ok true

/-- Whether every waiter's section, run on a value of which all that they wait for is true, does not
fail and keeps it true. -/
def Stable (W : Waiters κ α β) : Prop :=
  ∀ a, W.Content a → ∀ t ∈ W.threads, W.Content ((W.visit t).body a).1 ∧
    ∃ b, ((W.visit t).body a).2 = .ok b

/-- What the sections of some threads make of a value, one after the other. -/
def after (W : Waiters κ α β) (a : α) (order : List Tid) : α :=
  order.foldl (fun a t => ((W.visit t).body a).1) a

/-- The observer of waiters. Since a waiter that has been notified waits for nothing but the lock,
its first step is its wake-up; and since it has only to leave after its section, its next step is
its return. -/
def roll (W : Waiters κ α β) : Machine.Observer κ ω (Guarded α) (Call α β) (Answer β) ε Roll :=
  fun t s s' x =>
    { woken := if t ∈ W.threads ∧ t ∉ x.woken then x.woken ++ [t] else x.woken
      ran :=
        if t ∈ W.threads ∧ t ∉ x.ran ∧ (current s t).elim 0 Call.acts = 1 then x.ran ++ [t]
        else x.ran
      returned :=
        if t ∈ W.threads ∧ t ∈ x.ran ∧ t ∉ x.returned then x.returned ++ [t] else x.returned
      steps := Function.update x.steps t (x.steps t + 1)
      disturbed := x.disturbed ∨ s'.shared.monitor.value ≠ s.shared.monitor.value ∧
        ¬ (t ∈ W.threads ∧ t ∉ x.ran) }

theorem after_concat (a : α) (order : List Tid) (t : Tid) :
    W.after a (order ++ [t]) = ((W.visit t).body (W.after a order)).1 := by
  rw [after, List.foldl_append]
  rfl

/-- Sections keep true what the waiters wait for. -/
theorem content_after (hstable : W.Stable) {a : α} (ha : W.Content a) {order : List Tid}
    (horder : ∀ t ∈ order, t ∈ W.threads) : W.Content (W.after a order) := by
  induction order generalizing a with
  | nil => exact ha
  | cons t order ih =>
      exact ih (hstable a ha t (horder t List.mem_cons_self)).1
        fun u hu => horder u (List.mem_cons_of_mem t hu)

/-- Whether waiter `t` has returned since the state `s₀` in which the value was `a`, with the result
of its section, which it has run on what those before it have left. -/
inductive Returned (W : Waiters κ α β) (next : κ → Move κ ω (Call α β) (Answer β) ρ ε) (a : α)
    (s₀ : State κ ω (Guarded α) (Call α β) (Answer β) ε) (x : Roll) (t : Tid)
    (s : State κ ω (Guarded α) (Call α β) (Answer β) ε) : Prop where
  | intro (before after : List Tid) (b : β)
      (s₁ s₂ : State κ ω (Guarded α) (Call α β) (Answer β) ε) (choice : Choice) :
      x.ran = before ++ t :: after → ((W.visit t).body (W.after a before)).2 = .ok b →
      (machine next).Reach s₀ s₁ → (machine next).step t choice s₁ = some s₂ →
      s₂.stack t = Machine.finishCall (.ok (.value b)) (W.below t) →
      (machine next).Reach s₂ s → Returned W next a s₀ x t s

/-- How far waiter `t` has come since the state `s₀` in which all were notified and the value was
`a`. -/
inductive Waking (W : Waiters κ α β) (next : κ → Move κ ω (Call α β) (Answer β) ρ ε) (a : α)
    (s₀ : State κ ω (Guarded α) (Call α β) (Answer β) ε) (x : Roll) (t : Tid)
    (s : State κ ω (Guarded α) (Call α β) (Answer β) ε) : Prop where
  /-- It has been notified, and has not woken. -/
  | asleep : s.stack t = .call (.visit (W.visit t) .asleep) :: W.below t →
      t ∉ s.shared.monitor.sleepers → t ∉ x.woken → x.steps t = 0 → Waking W next a s₀ x t s
  /-- It has woken, the last so far, and is about to test its predicate. -/
  | testing : s.stack t = .call (.visit (W.visit t) (.testing true)) :: W.below t →
      x.woken = x.ran ++ [t] → x.steps t ≤ 1 → Waking W next a s₀ x t s
  /-- It has woken, the last so far, and is about to run its section. -/
  | acting : s.stack t = .call (.visit (W.visit t) (.acting true)) :: W.below t →
      x.woken = x.ran ++ [t] → x.steps t ≤ 2 → Waking W next a s₀ x t s
  /-- It has run its section on what those before it have left, and is about to return. -/
  | leaving (before after : List Tid) (b : β) :
      s.stack t = .call (.visit (W.visit t) (.leaving (.ok (some b)))) :: W.below t →
      x.ran = before ++ t :: after → ((W.visit t).body (W.after a before)).2 = .ok b →
      t ∉ x.returned → x.steps t ≤ 3 → Waking W next a s₀ x t s
  | returned : t ∈ x.returned → Returned W next a s₀ x t s → Waking W next a s₀ x t s

/-- What holds of the waiters since the state `s₀` in which all were notified and the value was
`a`. -/
structure Released (W : Waiters κ α β) (next : κ → Move κ ω (Call α β) (Answer β) ρ ε) (a : α)
    (s₀ : State κ ω (Guarded α) (Call α β) (Answer β) ε) (x : Roll)
    (s : State κ ω (Guarded α) (Call α β) (Answer β) ε) : Prop where
  nodup : x.woken.Nodup
  woken : ∀ t ∈ x.woken, t ∈ W.threads
  order : x.woken = x.ran ∨ ∃ t, x.woken = x.ran ++ [t]
  returned : ∀ t ∈ x.returned, t ∈ x.ran
  value : s.shared.monitor.value = W.after a x.ran
  waking : ∀ t ∈ W.threads, W.Waking next a s₀ x t s

/-- Whether all waiters have returned since the state `s₀` in which the value was `a`, and what
their sections have made of it. -/
structure AllReturned (W : Waiters κ α β) (next : κ → Move κ ω (Call α β) (Answer β) ρ ε) (a : α)
    (s₀ : State κ ω (Guarded α) (Call α β) (Answer β) ε) (x : Roll)
    (s : State κ ω (Guarded α) (Call α β) (Answer β) ε) : Prop where
  perm : x.ran.Perm W.threads
  value : s.shared.monitor.value = W.after a x.ran
  returned : ∀ t ∈ W.threads, W.Returned next a s₀ x t s

/-- Whether all waiters come to return by steps of those that have not, whichever of these makes the
next one and whatever the scheduler chooses: there is always one that can. -/
inductive Comes (W : Waiters κ α β) (next : κ → Move κ ω (Call α β) (Answer β) ρ ε) (a : α)
    (s₀ : State κ ω (Guarded α) (Call α β) (Answer β) ε) :
    Roll → State κ ω (Guarded α) (Call α β) (Answer β) ε → Prop where
  | here {x : Roll} {s : State κ ω (Guarded α) (Call α β) (Answer β) ε} :
      W.AllReturned next a s₀ x s → Comes W next a s₀ x s
  | step {x : Roll} {s : State κ ω (Guarded α) (Call α β) (Answer β) ε} :
      (∃ t ∈ W.threads, t ∉ x.returned ∧
        ∀ choice, ((machine next).step t choice s).isSome = true) →
      (∀ t ∈ W.threads, t ∉ x.returned → ∀ choice s',
        (machine next).step t choice s = some s' → Comes W next a s₀ (W.roll t s s' x) s') →
      Comes W next a s₀ x s

variable {a : α} {s₀ : State κ ω (Guarded α) (Call α β) (Answer β) ε} {x : Roll}

/-! ### The record of one step -/

theorem roll_steps : (W.roll t s s' x).steps t = x.steps t + 1 :=
  Function.update_self ..

theorem roll_woken_of_mem (hmem : t ∈ W.threads → t ∈ x.woken) :
    (W.roll t s s' x).woken = x.woken :=
  if_neg fun hwakes => hwakes.2 (hmem hwakes.1)

theorem roll_ran_of_mem (hmem : t ∈ W.threads → t ∈ x.ran) : (W.roll t s s' x).ran = x.ran :=
  if_neg fun hruns => hruns.2.1 (hmem hruns.1)

/-- A call that is not about to run a section runs none. -/
theorem roll_ran_of_idle {call : Call α β} (hcall : current s t = some call)
    (hidle : call.acts = 0) : (W.roll t s s' x).ran = x.ran := by
  refine if_neg ?_
  rintro ⟨-, -, hacts⟩
  rw [hcall] at hacts
  cases hidle.symm.trans hacts

/-- Who has woken is on record, and so is who wakes. -/
theorem mem_roll_woken (ht : t ∈ W.threads) : t ∈ (W.roll t s s' x).woken := by
  by_cases hmem : t ∈ x.woken
  · rwa [roll_woken_of_mem fun _ => hmem]
  · rw [show (W.roll t s s' x).woken = x.woken ++ [t] from if_pos ⟨ht, hmem⟩]
    exact List.mem_append_right _ (List.mem_singleton_self t)

/-- Nobody wakes by a step of another thread. -/
theorem notMem_roll_woken (hu : u ≠ t) (hnew : u ∉ x.woken) : u ∉ (W.roll t s s' x).woken := by
  dsimp only [roll]
  split
  · simpa [hu] using hnew
  · exact hnew

/-- Those that run their sections come after those that have. -/
theorem exists_roll_ran : ∃ more, (W.roll t s s' x).ran = x.ran ++ more := by
  dsimp only [roll]
  split
  · exact ⟨[t], rfl⟩
  · exact ⟨[], (List.append_nil _).symm⟩

/-- Who is on record as returned after a step was so before, or it is the thread that steps, which
had run its section. -/
theorem mem_of_mem_roll_returned (hmem : u ∈ (W.roll t s s' x).returned) :
    u ∈ x.returned ∨ u = t ∧ t ∈ x.ran := by
  dsimp only [roll] at hmem
  split at hmem
  · next hreturns =>
      rcases List.mem_append.mp hmem with hmem | hmem
      · exact .inl hmem
      · exact .inr ⟨List.mem_singleton.mp hmem, hreturns.2.1⟩
  · exact .inl hmem

/-- Who has returned is on record ever after. -/
theorem mem_roll_returned (hmem : u ∈ x.returned) : u ∈ (W.roll t s s' x).returned := by
  dsimp only [roll]
  split
  · exact List.mem_append_left _ hmem
  · exact hmem

/-- A waiter that has run its section and steps is on record as returned. -/
theorem mem_roll_returned_of_ran (ht : t ∈ W.threads) (hran : t ∈ x.ran) :
    t ∈ (W.roll t s s' x).returned := by
  by_cases hmem : t ∈ x.returned
  · exact mem_roll_returned hmem
  · rw [show (W.roll t s s' x).returned = x.returned ++ [t] from if_pos ⟨ht, hran, hmem⟩]
    exact List.mem_append_right _ (List.mem_singleton_self t)

/-! ### What holds of the waiters -/

/-- A waiter that has returned has run its section. -/
theorem Returned.mem_ran (hs : W.Returned next a s₀ x t s) : t ∈ x.ran := by
  obtain ⟨before, after, b, s₁, s₂, choice, hsplit, -, -, -, -, -⟩ := hs
  rw [hsplit]
  exact List.mem_append_right _ List.mem_cons_self

/-- A waiter that has returned has returned ever after. -/
theorem Returned.later (hs : W.Returned next a s₀ x u s)
    (hstep : (machine next).step t choice s = some s') :
    W.Returned next a s₀ (W.roll t s s' x) u s' := by
  obtain ⟨more, hran⟩ : ∃ more, (W.roll t s s' x).ran = x.ran ++ more := exists_roll_ran
  obtain ⟨before, after, b, s₁, s₂, choice₁, hsplit, hbody, hto, hst, hback, hfrom⟩ := hs
  refine ⟨before, after ++ more, b, s₁, s₂, choice₁, ?_, hbody, hto, hst, hback,
    .step t choice hfrom hstep⟩
  rw [hran, hsplit, List.append_assoc, List.cons_append]

namespace Released

theorem ran_subset (hs : W.Released next a s₀ x s) : ∀ u ∈ x.ran, u ∈ x.woken := by
  obtain heq | ⟨t, heq⟩ := hs.order <;> rw [heq]
  · exact fun u hu => hu
  · exact fun u hu => List.mem_append_left _ hu

/-- The last waiter that has woken has not run its section if it comes after those that have. -/
theorem notMem_ran (hs : W.Released next a s₀ x s) (hlast : x.woken = x.ran ++ [t]) :
    t ∉ x.ran := by
  have hnodup := hs.nodup
  rw [hlast] at hnodup
  exact fun hmem => (List.nodup_append.mp hnodup).2.2 t hmem t (List.mem_singleton_self t) rfl

/-- What the waiters wait for is still true. -/
theorem content (hs : W.Released next a s₀ x s) (hstable : W.Stable) (ha : W.Content a) :
    W.Content s.shared.monitor.value := by
  rw [hs.value]
  exact content_after hstable ha fun u hu => hs.woken u (hs.ran_subset u hu)

/-- What a waiter that has run its section has yet to do. -/
theorem leaving_or_returned (hs : W.Released next a s₀ x s) (ht : t ∈ x.ran) :
    (∃ before after b,
      s.stack t = .call (.visit (W.visit t) (.leaving (.ok (some b)))) :: W.below t ∧
        x.ran = before ++ t :: after ∧ ((W.visit t).body (W.after a before)).2 = .ok b ∧
        t ∉ x.returned) ∨
      t ∈ x.returned ∧ W.Returned next a s₀ x t s := by
  have hwoken := hs.ran_subset t ht
  cases hs.waking t (hs.woken t hwoken) with
  | asleep _ _ hnew _ => exact absurd hwoken hnew
  | testing _ hlast _ | acting _ hlast _ => exact absurd ht (hs.notMem_ran hlast)
  | leaving before after b hstack hsplit hbody hnot _ =>
      exact .inl ⟨before, after, b, hstack, hsplit, hbody, hnot⟩
  | returned hmem hback => exact .inr ⟨hmem, hback⟩

/-- Who is on record as returned has returned. -/
theorem returned_of_mem (hs : W.Released next a s₀ x s) (hmem : t ∈ x.returned) :
    W.Returned next a s₀ x t s := by
  obtain ⟨-, -, -, -, -, -, hnot⟩ | ⟨-, hback⟩ := hs.leaving_or_returned (hs.returned t hmem)
  · exact absurd hmem hnot
  · exact hback

/-- A waiter that has woken and has not returned owns the lock. -/
theorem owner (h : (machine next).Reach (.ofCodes (new value) world codes) s)
    (hs : W.Released next a s₀ x s) (hwoken : t ∈ x.woken) (hnot : t ∉ x.returned) :
    s.shared.monitor.owner = some t := by
  obtain ⟨howns, -⟩ := guarded_of_reach h
  cases hs.waking t (hs.woken t hwoken) with
  | asleep _ _ hnew _ => exact absurd hwoken hnew
  | testing hstack _ _ | acting hstack _ _ | leaving _ _ _ hstack _ _ _ _ =>
      exact (howns t _ _ (current_of_stack hstack) rfl).1
  | returned hmem _ => exact absurd hmem hnot

/-- A waiter that has woken and has not run its section owns the lock. -/
theorem owner_of_last (h : (machine next).Reach (.ofCodes (new value) world codes) s)
    (hs : W.Released next a s₀ x s) (hlast : x.woken = x.ran ++ [t]) :
    s.shared.monitor.owner = some t :=
  hs.owner h (hlast ▸ List.mem_append_right _ (List.mem_singleton_self t))
    fun hmem => hs.notMem_ran hlast (hs.returned t hmem)

/-- When all have run their sections, all have woken, each once. -/
theorem perm (hs : W.Released next a s₀ x s) (hnodup : W.threads.Nodup)
    (hall : ∀ t ∈ W.threads, t ∈ x.ran) : x.ran = x.woken ∧ x.woken.Perm W.threads := by
  have hsame : x.woken = x.ran := by
    refine hs.order.resolve_right ?_
    rintro ⟨t, hlast⟩
    have hmem : t ∈ x.woken := hlast ▸ List.mem_append_right _ (List.mem_singleton_self t)
    exact hs.notMem_ran hlast (hall t (hs.woken t hmem))
  refine ⟨hsame.symm, (List.perm_ext_iff_of_nodup hs.nodup hnodup).mpr fun t => ?_⟩
  exact ⟨hs.woken t, fun ht => hsame ▸ hall t ht⟩

end Released

/-! ### One step -/

/-- A waiter stays where it is while others step, and those that wake or run their sections
meanwhile come after it. -/
theorem Waking.of_other (h : (machine next).Reach (.ofCodes (new value) world codes) s)
    (hs : W.Waking next a s₀ x u s) (hu : u ≠ t)
    (hstep : (machine next).step t choice s = some s')
    (hlast : x.woken = x.ran ++ [u] → (W.roll t s s' x).woken = (W.roll t s s' x).ran ++ [u]) :
    W.Waking next a s₀ (W.roll t s s' x) u s' := by
  have hsame := Machine.stack_of_step_ne hstep hu
  have hsteps : (W.roll t s s' x).steps u = x.steps u := Function.update_of_ne hu _ _
  cases hs with
  | asleep hstack hnotified hnew hzero =>
      exact .asleep (hsame.trans hstack)
        (fun hmem => hnotified (mem_sleepers_of_step h hstep hu hmem)) (notMem_roll_woken hu hnew)
        (hsteps.trans hzero)
  | testing hstack hwoke hle => exact .testing (hsame.trans hstack) (hlast hwoke) (hsteps ▸ hle)
  | acting hstack hwoke hle => exact .acting (hsame.trans hstack) (hlast hwoke) (hsteps ▸ hle)
  | leaving before after b hstack hsplit hbody hnot hle =>
      obtain ⟨more, hran⟩ : ∃ more, (W.roll t s s' x).ran = x.ran ++ more := exists_roll_ran
      refine .leaving before (after ++ more) b (hsame.trans hstack) ?_ hbody (fun hmem => ?_)
        (hsteps ▸ hle)
      · rw [hran, hsplit, List.append_assoc, List.cons_append]
      · obtain hmem | ⟨heq, -⟩ := mem_of_mem_roll_returned hmem
        · exact hnot hmem
        · exact hu heq
  | returned hmem hback => exact .returned (mem_roll_returned hmem) (hback.later hstep)

namespace Released

theorem returned_roll (hs : W.Released next a s₀ x s) :
    ∀ u ∈ (W.roll t s s' x).returned, u ∈ x.ran := by
  intro u hmem
  obtain hmem | ⟨rfl, hran⟩ := mem_of_mem_roll_returned hmem
  · exact hs.returned u hmem
  · exact hran

/-- How far all waiters have come after a step, when it is said of the thread that steps. -/
theorem waking_roll (h : (machine next).Reach (.ofCodes (new value) world codes) s)
    (hs : W.Released next a s₀ x s) (hstep : (machine next).step t choice s = some s')
    (hself : t ∈ W.threads → W.Waking next a s₀ (W.roll t s s' x) t s')
    (hlast : ∀ u ≠ t, x.woken = x.ran ++ [u] →
      (W.roll t s s' x).woken = (W.roll t s s' x).ran ++ [u]) :
    ∀ u ∈ W.threads, W.Waking next a s₀ (W.roll t s s' x) u s' := by
  intro u hu
  by_cases hut : u = t
  · subst hut
    exact hself hu
  · exact (hs.waking u hu).of_other h hut hstep (hlast u hut)

/-- A step by which nobody wakes, nobody runs its section, and the value does not change. -/
theorem of_quiet (h : (machine next).Reach (.ofCodes (new value) world codes) s)
    (hs : W.Released next a s₀ x s) (hstep : (machine next).step t choice s = some s')
    (hwoken : (W.roll t s s' x).woken = x.woken) (hran : (W.roll t s s' x).ran = x.ran)
    (hvalue : s'.shared.monitor.value = s.shared.monitor.value)
    (hself : t ∈ W.threads → W.Waking next a s₀ (W.roll t s s' x) t s') :
    W.Released next a s₀ (W.roll t s s' x) s' where
  nodup := hwoken ▸ hs.nodup
  woken := hwoken ▸ hs.woken
  order := by
    rw [hwoken, hran]
    exact hs.order
  returned := hran ▸ hs.returned_roll
  value := by
    rw [hvalue, hran]
    exact hs.value
  waking := hs.waking_roll h hstep hself fun u _ hlast => by rw [hwoken, hran, hlast]

end Released

/-- A waiter wakes: nobody else has woken without having run its section. -/
theorem released_of_wake (h : (machine next).Reach (.ofCodes (new value) world codes) s)
    (hs : W.Released next a s₀ x s) (ht : t ∈ W.threads)
    (hstack : s.stack t = .call (.visit (W.visit t) .asleep) :: W.below t)
    (hnotified : t ∉ s.shared.monitor.sleepers) (hnew : t ∉ x.woken) (hzero : x.steps t = 0)
    (hstep : (machine next).step t choice s = some s') :
    W.Released next a s₀ (W.roll t s s' x) s' := by
  obtain ⟨hfree, hvalue, hgoes⟩ := woken_of_step hstack hnotified hstep
  have hwoken : (W.roll t s s' x).woken = x.woken ++ [t] := if_pos ⟨ht, hnew⟩
  have hran : (W.roll t s s' x).ran = x.ran := roll_ran_of_idle (current_of_stack hstack) rfl
  have hsteps : (W.roll t s s' x).steps t = 1 := by rw [roll_steps, hzero]
  have hnone : ∀ u, x.woken ≠ x.ran ++ [u] := by
    intro u heq
    cases hfree.symm.trans (hs.owner_of_last h heq)
  have hsame : x.woken = x.ran := hs.order.resolve_right fun ⟨u, heq⟩ => hnone u heq
  have hlast : (W.roll t s s' x).woken = (W.roll t s s' x).ran ++ [t] := by
    rw [hwoken, hran, hsame]
  refine ⟨?_, ?_, .inr ⟨t, hlast⟩, hran ▸ hs.returned_roll, ?_,
    hs.waking_roll h hstep (fun _ => ?_) fun u _ heq => absurd heq (hnone u)⟩
  · rw [hwoken]
    exact List.nodup_append.mpr ⟨hs.nodup, List.nodup_singleton t, by
      rintro u hu w hw rfl
      exact hnew (List.mem_singleton.mp hw ▸ hu)⟩
  · rw [hwoken]
    intro u hu
    rcases List.mem_append.mp hu with hu | hu
    · exact hs.woken u hu
    · exact List.mem_singleton.mp hu ▸ ht
  · rw [hvalue, hran]
    exact hs.value
  · rcases hgoes with hstack' | hstack'
    · exact .testing hstack' hlast hsteps.le
    · exact .acting hstack' hlast (hsteps.le.trans (by decide))

/-- A waiter tests its predicate, and finds it true. -/
theorem released_of_test (h : (machine next).Reach (.ofCodes (new value) world codes) s)
    (hstable : W.Stable) (ha : W.Content a) (hs : W.Released next a s₀ x s) (ht : t ∈ W.threads)
    (hstack : s.stack t = .call (.visit (W.visit t) (.testing true)) :: W.below t)
    (hlast : x.woken = x.ran ++ [t]) (hle : x.steps t ≤ 1)
    (hstep : (machine next).step t choice s = some s') :
    W.Released next a s₀ (W.roll t s s' x) s' := by
  obtain ⟨p, hawait, htrue⟩ := hs.content hstable ha t ht
  obtain ⟨hvalue, hstack'⟩ := tested_of_step hstack hawait htrue hstep
  have hwoken : (W.roll t s s' x).woken = x.woken :=
    roll_woken_of_mem fun _ => hlast ▸ List.mem_append_right _ (List.mem_singleton_self t)
  have hran : (W.roll t s s' x).ran = x.ran := roll_ran_of_idle (current_of_stack hstack) rfl
  refine hs.of_quiet h hstep hwoken hran hvalue fun _ => .acting hstack' ?_ ?_
  · rw [hwoken, hran, hlast]
  · rw [roll_steps]
    exact Nat.succ_le_succ hle

/-- A waiter runs its section. -/
theorem released_of_act (h : (machine next).Reach (.ofCodes (new value) world codes) s)
    (hstable : W.Stable) (ha : W.Content a) (hs : W.Released next a s₀ x s) (ht : t ∈ W.threads)
    (hstack : s.stack t = .call (.visit (W.visit t) (.acting true)) :: W.below t)
    (hlast : x.woken = x.ran ++ [t]) (hle : x.steps t ≤ 2)
    (hstep : (machine next).step t choice s = some s') :
    W.Released next a s₀ (W.roll t s s' x) s' := by
  obtain ⟨-, b, hbody⟩ := hstable _ (hs.content hstable ha) t ht
  obtain ⟨hvalue, hstack'⟩ := acted_of_step hstack hbody hstep
  rw [hs.value] at hbody hvalue
  have hwoken : (W.roll t s s' x).woken = x.woken :=
    roll_woken_of_mem fun _ => hlast ▸ List.mem_append_right _ (List.mem_singleton_self t)
  have hran : (W.roll t s s' x).ran = x.ran ++ [t] :=
    if_pos ⟨ht, hs.notMem_ran hlast, by rw [current_of_stack hstack]; rfl⟩
  refine ⟨hwoken ▸ hs.nodup, hwoken ▸ hs.woken, .inl ?_, fun u hu => ?_, ?_,
    hs.waking_roll h hstep (fun _ => ?_) fun u hut heq => ?_⟩
  · rw [hwoken, hran, hlast]
  · rw [hran]
    exact List.mem_append_left _ (hs.returned_roll u hu)
  · rw [hvalue, hran, after_concat]
  · refine .leaving x.ran [] b hstack' hran hbody
      (fun hmem => hs.notMem_ran hlast (hs.returned_roll t hmem)) ?_
    rw [roll_steps]
    exact Nat.succ_le_succ hle
  · rw [hlast] at heq
    exact absurd (List.singleton_inj.mp (List.append_cancel_left heq)).symm hut

/-- A thread steps that is no waiter, or one that has run its section. -/
theorem released_of_other (h : (machine next).Reach (.ofCodes (new value) world codes) s)
    (hreach : (machine next).Reach s₀ s) (hs : W.Released next a s₀ x s)
    (ht : t ∈ W.threads → t ∈ x.ran) (hstep : (machine next).step t choice s = some s')
    (hquiet : ¬ (W.roll t s s' x).disturbed) : W.Released next a s₀ (W.roll t s s' x) s' := by
  have hran : (W.roll t s s' x).ran = x.ran := roll_ran_of_mem ht
  have hvalue : s'.shared.monitor.value = s.shared.monitor.value := by
    by_contra hne
    exact hquiet (.inr ⟨hne, fun hnot => hnot.2 (ht hnot.1)⟩)
  refine hs.of_quiet h hstep (roll_woken_of_mem fun hmem => hs.ran_subset t (ht hmem)) hran hvalue
    fun hmem => ?_
  obtain ⟨before, after, b, hstack, hsplit, hbody, -⟩ | ⟨hback, hreturned⟩ :=
    hs.leaving_or_returned (ht hmem)
  · exact .returned (mem_roll_returned_of_ran hmem (ht hmem)) ⟨before, after, b, s, s', choice,
      hran.trans hsplit, hbody, hreach, hstep, (left_of_step hstack hstep).2.2, .start⟩
  · exact .returned (mem_roll_returned hback) (hreturned.later hstep)

/-- **One step.** What holds of the waiters holds afterwards, unless somebody else changes the
value. -/
theorem released_of_step (h : (machine next).Reach (.ofCodes (new value) world codes) s)
    (hreach : (machine next).Reach s₀ s) (hstable : W.Stable) (ha : W.Content a)
    (hs : W.Released next a s₀ x s) (hstep : (machine next).step t choice s = some s')
    (hquiet : ¬ (W.roll t s s' x).disturbed) : W.Released next a s₀ (W.roll t s s' x) s' := by
  by_cases ht : t ∈ W.threads → t ∈ x.ran
  · exact released_of_other h hreach hs ht hstep hquiet
  · obtain ⟨ht, hran⟩ := Classical.not_imp.mp ht
    cases hs.waking t ht with
    | asleep hstack hnotified hnew hzero =>
        exact released_of_wake h hs ht hstack hnotified hnew hzero hstep
    | testing hstack hlast hle => exact released_of_test h hstable ha hs ht hstack hlast hle hstep
    | acting hstack hlast hle => exact released_of_act h hstable ha hs ht hstack hlast hle hstep
    | leaving _ _ _ _ hsplit _ _ _ =>
        exact absurd (hsplit ▸ List.mem_append_right _ List.mem_cons_self) hran
    | returned _ hback => exact absurd hback.mem_ran hran

/-! ### All runs -/

/-- When all are notified, no waiter has woken. -/
theorem released_of_notifyAll {n : Tid} {rest : Stack κ (Call α β) (Answer β)}
    (hasleep : ∀ t ∈ W.threads, s.stack t = .call (.visit (W.visit t) .asleep) :: W.below t)
    (hnotify : s.stack n = .call .notifyAll :: rest)
    (hstep : (machine next).step n choice s = some s₀) :
    W.Released next s.shared.monitor.value s₀ {} s₀ := by
  obtain ⟨shared, events, r, hturn, hshared, -, -⟩ := Machine.turn_of_step hnotify hstep
  cases hturn
  refine ⟨.nil, nofun, .inl rfl, nofun, by rw [hshared]; rfl, fun t ht => ?_⟩
  have hne : t ≠ n := by
    rintro rfl
    cases (hasleep t ht).symm.trans hnotify
  refine .asleep ((Machine.stack_of_step_ne hstep hne).trans (hasleep t ht)) ?_ nofun rfl
  rw [hshared]
  exact List.not_mem_nil

/-- What holds of the waiters holds in every later state, unless somebody else has changed the
value. -/
theorem released_of_reach (h : (machine next).Reach (.ofCodes (new value) world codes) s₀)
    (hstable : W.Stable) (ha : W.Content a) (hs : W.Released next a s₀ {} s₀)
    (h' : (machine next).Observed W.roll s₀ {} s x) (hquiet : ¬ x.disturbed) :
    W.Released next a s₀ x s :=
  h'.invariant (P := fun s x => ¬ x.disturbed → W.Released next a s₀ x s) (fun _ => hs)
    (fun _ _ _ _ _ hreach ih hstep hquiet =>
      released_of_step (h.trans hreach) hreach hstable ha (ih fun hbad => hquiet (.inl hbad)) hstep
        hquiet) hquiet

/-! ### All come to return -/

namespace Released

/-- A waiter that has not returned has made three steps at most. It can make the next one, or
another thread owns the lock, which has a lease or can make a step itself. -/
theorem moves (h : (machine next).Reach (.ofCodes (new value) world codes) s)
    (hs : W.Released next a s₀ x s) (ht : t ∈ W.threads) (hnot : t ∉ x.returned) :
    x.steps t ≤ 3 ∧ ((∀ choice, ((machine next).step t choice s).isSome = true) ∨
      ∃ u, u ≠ t ∧ s.shared.monitor.owner = some u ∧
        ((∃ l, s.shared.lease = some l ∧ l.holder = u) ∨
          ∀ choice, ((machine next).step u choice s).isSome = true)) := by
  have hlive := live_of_reach h
  have howns : ∀ {phase : Phase β}, s.stack t = .call (.visit (W.visit t) phase) :: W.below t →
      phase.owns = true → ∀ choice, ((machine next).step t choice s).isSome = true := by
    intro phase hstack howns choice
    rw [Machine.isSome_step_call hlive hstack]
    exact (Option.isSome_map ..).trans ((Option.isSome_map ..).trans
      (Visit.isSome_turn howns t choice))
  cases hs.waking t ht with
  | asleep hstack hnotified _ hzero =>
      refine ⟨hzero ▸ Nat.zero_le 3, ?_⟩
      cases howner : s.shared.monitor.owner with
      | none =>
          refine .inl fun choice => ?_
          rw [Machine.isSome_step_call hlive hstack]
          refine (Option.isSome_map ..).trans ((Option.isSome_map ..).trans ?_)
          simp [Visit.turn, hnotified, Visit.wake, Monitor.acquire, howner]
      | some u =>
          refine .inr ⟨u, ?_, rfl, isSome_step_of_owner h howner⟩
          rintro rfl
          exact owner_ne_of_asleep h (current_of_stack hstack) howner
  | testing hstack _ hle => exact ⟨hle.trans (by decide), .inl (howns hstack rfl)⟩
  | acting hstack _ hle => exact ⟨hle.trans (by decide), .inl (howns hstack rfl)⟩
  | leaving _ _ _ hstack _ _ _ hle => exact ⟨hle, .inl (howns hstack rfl)⟩
  | returned hmem _ => exact absurd hmem hnot

/-- If nobody but a waiter that has not returned owns the lock, one of these can make a step. -/
theorem exists_isSome_step (h : (machine next).Reach (.ofCodes (new value) world codes) s)
    (hs : W.Released next a s₀ x s)
    (howner : ∀ u, s.shared.monitor.owner = some u → u ∈ W.threads ∧ u ∉ x.returned)
    (ht : t ∈ W.threads) (hnot : t ∉ x.returned) :
    ∃ u ∈ W.threads, u ∉ x.returned ∧
      ∀ choice, ((machine next).step u choice s).isSome = true := by
  obtain ⟨-, hmoves | ⟨u, -, hu, -⟩⟩ := hs.moves h ht hnot
  · exact ⟨t, ht, hnot, hmoves⟩
  · obtain ⟨hmem, hback⟩ := howner u hu
    obtain ⟨-, hmoves | ⟨w, hw, hother, -⟩⟩ := hs.moves h hmem hback
    · exact ⟨u, hmem, hback, hmoves⟩
    · exact absurd (Option.some.inj (hother.symm.trans hu)) hw

/-- A waiter that has not returned does not disturb the others. -/
theorem undisturbed_of_step (hs : W.Released next a s₀ x s) (ht : t ∈ W.threads)
    (hnot : t ∉ x.returned) (hstep : (machine next).step t choice s = some s')
    (hquiet : ¬ x.disturbed) : ¬ (W.roll t s s' x).disturbed := by
  rintro (hbad | ⟨hne, hran⟩)
  · exact hquiet hbad
  · have hran : t ∈ x.ran := by
      by_contra hnew
      exact hran ⟨ht, hnew⟩
    obtain ⟨_, _, _, hstack, -⟩ | ⟨hback, -⟩ := hs.leaving_or_returned hran
    · exact hne (left_of_step hstack hstep).2.1
    · exact hnot hback

/-- After a step of a waiter that had not returned, nobody owns the lock, or this waiter does and
has not returned. -/
theorem owner_of_step (h : (machine next).Reach (.ofCodes (new value) world codes) s)
    (hs : W.Released next a s₀ x s) (ht : t ∈ W.threads) (hnot : t ∉ x.returned)
    (hstep : (machine next).step t choice s = some s')
    (hs' : W.Released next a s₀ (W.roll t s s' x) s') (howner : s'.shared.monitor.owner = some u) :
    u = t ∧ t ∉ (W.roll t s s' x).returned := by
  by_cases hback : t ∈ (W.roll t s s' x).returned
  · obtain ⟨_, _, _, hstack, -⟩ | ⟨hmem, -⟩ := hs.leaving_or_returned (hs.returned_roll t hback)
    · cases (left_of_step hstack hstep).1.symm.trans howner
    · exact absurd hmem hnot
  · have howner' := hs'.owner (h.step t choice hstep) (mem_roll_woken ht) hback
    exact ⟨Option.some.inj (howner.symm.trans howner'), hback⟩

end Released

/-- How many steps are left to the waiters at most. -/
def stepsLeft (W : Waiters κ α β) (x : Roll) : Nat :=
  (W.threads.map fun t => 4 - x.steps t).sum

theorem stepsLeft_roll_lt (ht : t ∈ W.threads) (hle : x.steps t ≤ 3) :
    W.stepsLeft (W.roll t s s' x) < W.stepsLeft x := by
  refine List.sum_lt_sum _ _ (fun u _ => ?_) ⟨t, ht, ?_⟩
  · by_cases hu : u = t
    · subst hu
      rw [roll_steps]
      omega
    · rw [show (W.roll t s s' x).steps u = x.steps u from Function.update_of_ne hu _ _]
  · rw [roll_steps]
    omega

/-- **Left to themselves, the waiters all return**, if the lock is free or owned by one of those
that have not returned. -/
theorem comes_of_released (h : (machine next).Reach (.ofCodes (new value) world codes) s)
    (hreach : (machine next).Reach s₀ s) (hnodup : W.threads.Nodup) (hstable : W.Stable)
    (ha : W.Content a) (hs : W.Released next a s₀ x s) (hquiet : ¬ x.disturbed)
    (howner : ∀ u, s.shared.monitor.owner = some u → u ∈ W.threads ∧ u ∉ x.returned) :
    W.Comes next a s₀ x s := by
  induction hleft : W.stepsLeft x using Nat.strong_induction_on generalizing x s with
  | _ n ih =>
      by_cases hall : ∀ t ∈ W.threads, t ∈ x.returned
      · obtain ⟨hsame, hperm⟩ := hs.perm hnodup fun t ht => hs.returned t (hall t ht)
        exact .here ⟨hsame ▸ hperm, hs.value, fun t ht => hs.returned_of_mem (hall t ht)⟩
      · obtain ⟨t, ht⟩ := Classical.not_forall.mp hall
        obtain ⟨ht, hnot⟩ := Classical.not_imp.mp ht
        refine .step (hs.exists_isSome_step h howner ht hnot) fun u hu hback choice s' hstep => ?_
        have hless : W.stepsLeft (W.roll u s s' x) < W.stepsLeft x :=
          stepsLeft_roll_lt hu (hs.moves h hu hback).1
        have hquiet' := hs.undisturbed_of_step hu hback hstep hquiet
        have hs' := released_of_step h hreach hstable ha hs hstep hquiet'
        refine ih _ (hleft ▸ hless) (h.step u choice hstep) (hreach.step u choice hstep) hs' hquiet'
          (fun w hw => ?_) rfl
        obtain ⟨rfl, hnew⟩ := hs.owner_of_step h hu hback hstep hs' hw
        exact ⟨hu, hnew⟩

end Waiters

/-- **A notification of all releases all.** Threads sleep in visits, with limited time or not, all
that they wait for is true of the value, and the section of each keeps it true and does not fail.
Then all are notified, on a poisoned monitor or not. In every later state, as long as nobody else
has changed the value:

* the waiters that have woken are the ones that have run their sections, in the same order, and
  perhaps one more, which owns the lock;
* the value is what the sections have made of it, one after the other in this order;
* each waiter has been notified and has not woken, or it has woken and is about to test its
  predicate or to run its section, or it has run it once and is about to return with the result, or
  has returned with it; none sleeps again or gives up;
* a waiter that has not returned has made three steps at most, and can make the next one, or another
  thread owns the lock, which has a lease or can make a step itself;
* if the lock is free, or owned by a waiter that has not returned, then all come to return by steps
  of those that have not, whichever of these makes the next one;
* when all have run their sections, all have woken, each once; and if the sections commute, the
  value does not depend on the order. -/
theorem all_released {W : Waiters κ α β} {n : Tid} {rest : Stack κ (Call α β) (Answer β)}
    {s₀ : State κ ω (Guarded α) (Call α β) (Answer β) ε} {x : Roll}
    (h : (machine next).Reach (.ofCodes (new value) world codes) s)
    (hnodup : W.threads.Nodup)
    (hasleep : ∀ t ∈ W.threads, s.stack t = .call (.visit (W.visit t) .asleep) :: W.below t)
    (hcontent : W.Content s.shared.monitor.value) (hstable : W.Stable)
    (hnotify : s.stack n = .call .notifyAll :: rest)
    (hstep : (machine next).step n choice s = some s₀)
    (h' : (machine next).Observed W.roll s₀ {} s' x) (hquiet : ¬ x.disturbed) :
    x.woken.Nodup ∧ (∀ t ∈ x.woken, t ∈ W.threads) ∧
    (x.woken = x.ran ∨ ∃ t, x.woken = x.ran ++ [t] ∧ s'.shared.monitor.owner = some t) ∧
    s'.shared.monitor.value = W.after s.shared.monitor.value x.ran ∧
    (∀ t ∈ W.threads, W.Waking next s.shared.monitor.value s₀ x t s') ∧
    (∀ t ∈ W.threads, W.Returned next s.shared.monitor.value s₀ x t s' ∨ x.steps t ≤ 3 ∧
      ((∀ choice, ((machine next).step t choice s').isSome = true) ∨
        ∃ u, u ≠ t ∧ s'.shared.monitor.owner = some u ∧
          ((∃ l, s'.shared.lease = some l ∧ l.holder = u) ∨
            ∀ choice, ((machine next).step u choice s').isSome = true))) ∧
    ((∀ u, s'.shared.monitor.owner = some u → u ∈ W.threads ∧ u ∉ x.returned) →
      W.Comes next s.shared.monitor.value s₀ x s') ∧
    ((∀ t ∈ W.threads, t ∈ x.ran) → x.ran = x.woken ∧ x.woken.Perm W.threads ∧
      ((∀ t ∈ W.threads, ∀ u ∈ W.threads, ∀ a,
        ((W.visit t).body ((W.visit u).body a).1).1 =
          ((W.visit u).body ((W.visit t).body a).1).1) →
        s'.shared.monitor.value = W.after s.shared.monitor.value W.threads)) := by
  have hnotified := h.step n choice hstep
  have hreach := hnotified.trans h'.reach
  have hreleased := Waiters.released_of_reach hnotified hstable hcontent
    (Waiters.released_of_notifyAll hasleep hnotify hstep) h' hquiet
  refine ⟨hreleased.nodup, hreleased.woken, ?_, hreleased.value, hreleased.waking, fun t ht => ?_,
    Waiters.comes_of_released hreach h'.reach hnodup hstable hcontent hreleased hquiet,
    fun hall => ?_⟩
  · refine hreleased.order.imp_right ?_
    rintro ⟨t, hlast⟩
    exact ⟨t, hlast, hreleased.owner_of_last hreach hlast⟩
  · by_cases hback : t ∈ x.returned
    · exact .inl (hreleased.returned_of_mem hback)
    · exact .inr (hreleased.moves hreach ht hback)
  · obtain ⟨hsame, hperm⟩ := hreleased.perm hnodup hall
    refine ⟨hsame, hperm, fun hcommute => ?_⟩
    rw [hreleased.value, hsame, Waiters.after, Waiters.after]
    exact hperm.foldl_eq' (fun t ht u hu a =>
      (hcommute u (hperm.subset hu) t (hperm.subset ht) a)) _

/-! A run in which two threads sleep until the value is positive, one of them for a limited time,
and a third makes it one and notifies them. -/

/-- Waits until the value is positive, and adds a number to it. -/
def waitPositive (limited : Bool) (summand : Nat) : Visit Nat Nat :=
  { await := some fun n => .ok (0 < n), limited := limited, body := fun n => (n + summand, .ok n) }

/-- The state in which the notification is about to be made. -/
def aboutToNotify : State (Script (Call Nat Nat) (Answer Nat) Unit Unit Unit) Unit (Guarded Nat)
    (Call Nat Nat) (Answer Nat) Unit :=
  let m := machine (Script.next id)
  m.settle [(2, .go 0)] 5 (m.settle [(0, .go 0), (1, .go 0)] 10
    (.ofCodes (new 0) () [do let _ ← Script.ask (.visiting (waitPositive false 10)),
      do let _ ← Script.ask (.visiting (waitPositive true 100)), setAndNotify]))

/-- The two that wait. -/
def twoWaiters : Waiters (Script (Call Nat Nat) (Answer Nat) Unit Unit Unit) Nat Nat where
  threads := [0, 1]
  visit t := if t = 0 then waitPositive false 10 else waitPositive true 100
  below t := (aboutToNotify.stack t).tail

/-- The state in which they have been notified. -/
def bothNotified : State (Script (Call Nat Nat) (Answer Nat) Unit Unit Unit) Unit (Guarded Nat)
    (Call Nat Nat) (Answer Nat) Unit :=
  (machine (Script.next id)).settle [(2, .go 0)] 1 aboutToNotify

/-- The state in which both have returned, the second one first, with the record of it. -/
def bothReturned : State (Script (Call Nat Nat) (Answer Nat) Unit Unit Unit) Unit (Guarded Nat)
    (Call Nat Nat) (Answer Nat) Unit × Roll :=
  (machine (Script.next id)).follow twoWaiters.roll
    (List.replicate 4 (1, .go 0) ++ List.replicate 4 (0, .go 0)) (bothNotified, {})

theorem all_released_bothReturned :
    bothReturned.2.woken = [1, 0] ∧ bothReturned.1.shared.monitor.value = 111 ∧
      bothReturned.2.woken.Perm twoWaiters.threads ∧
      bothReturned.1.shared.monitor.value = twoWaiters.after 1 twoWaiters.threads := by
  have hreach : (machine (Script.next id)).Reach (.ofCodes (new 0) ()
      [do let _ ← Script.ask (.visiting (waitPositive false 10)),
        do let _ ← Script.ask (.visiting (waitPositive true 100)), setAndNotify])
      aboutToNotify :=
    Machine.reach_settle _ _ (Machine.reach_settle _ _ .start)
  have hreturned : (machine (Script.next id)).Observed twoWaiters.roll bothNotified {}
      bothReturned.1 bothReturned.2 :=
    Machine.observed_follow _ _ _ .start
  have hboth : ∀ t ∈ twoWaiters.threads, t = 0 ∨ t = 1 := by simp [twoWaiters]
  have hcontent : ∀ a, 0 < a → twoWaiters.Content a := by
    intro a ha t ht
    have htrue : (.ok (decide (0 < a)) : Except Fault Bool) = .ok true := by rw [decide_eq_true ha]
    obtain rfl | rfl := hboth t ht <;> exact ⟨_, rfl, htrue⟩
  have hpositive : ∀ a, twoWaiters.Content a → 0 < a := by
    intro a ha
    obtain ⟨p, hp, htrue⟩ := ha 0 List.mem_cons_self
    cases hp
    simpa using htrue
  have hstable : twoWaiters.Stable := by
    intro a ha t ht
    have hlt := hpositive a ha
    obtain rfl | rfl := hboth t ht
    · exact ⟨hcontent (a + 10) (Nat.add_pos_left hlt 10), a, rfl⟩
    · exact ⟨hcontent (a + 100) (Nat.add_pos_left hlt 100), a, rfl⟩
  have hasleep : ∀ t ∈ twoWaiters.threads, aboutToNotify.stack t =
      .call (.visit (twoWaiters.visit t) .asleep) :: twoWaiters.below t := by
    intro t ht
    obtain rfl | rfl := hboth t ht <;> rfl
  have hnotify : aboutToNotify.stack 2 = .call .notifyAll :: (aboutToNotify.stack 2).tail := rfl
  have hstep : (machine (Script.next id)).step 2 (.go 0) aboutToNotify = some bothNotified := rfl
  have hquiet : ¬ bothReturned.2.disturbed := by
    rintro ((((((((h | h) | h) | h) | h) | h) | h) | h) | h)
    · exact h
    all_goals exact absurd h (by decide +kernel)
  obtain ⟨-, -, -, -, -, -, -, hall⟩ := all_released hreach (by decide) hasleep
    (hcontent 1 Nat.one_pos) hstable hnotify hstep hreturned hquiet
  obtain ⟨-, hperm, hvalue⟩ := hall (by decide +kernel)
  refine ⟨by decide +kernel, by decide +kernel, hperm, hvalue fun t ht u hu a => ?_⟩
  obtain rfl | rfl := hboth t ht <;> obtain rfl | rfl := hboth u hu <;>
    simp [twoWaiters, waitPositive, Nat.add_right_comm]

end Offload.Guarded
