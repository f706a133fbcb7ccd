import Offload.Monitor.Guarded
import Offload.Proofs.Monitor.Visit
import Offload.Proofs.Scene

/-!
# What a call of a guarded value can do

The calls of a guarded value form a library whose calls run no code. A call that is no visit makes
one turn, which does one thing and ends it. So one step of a call is a step of a visit, a
notification, the taking of a lease, an exclusive access, or a use of the lease by its holder.

## Main results

* `Guarded.operated_of_turn`: what the turn of a call that is no visit does.
* `Guarded.turned_of_turn`: everything that one step of a call can be.
-/

namespace Offload.Guarded

variable {κ ω α β ρ ε : Type}

/-! ### The library of a guarded value -/

/-- The calls on a guarded value as a library. -/
def library : Library κ (Guarded α) (Call α β) (Answer β) ρ ε where
  turn t choice g call := (turn t choice g call).map fun (g', r) => (g', [], r)
  resume call _ := call
  begins call := ∃ request : Call α β, call = request.fresh
  notes _ := True
  rooted _ := false

/-- Threads that use a guarded value make its calls. -/
theorem machine_fits (next : κ → Move κ ω (Call α β) (Answer β) ρ ε) :
    (machine next).Fits library where
  turn_eq := rfl
  resume_eq := rfl
  begins _ _ _ h := Move.eq_of_map_eq_call h
  notes _ _ _ _ := trivial

variable {t u : Tid} {choice : Choice} {g g' : Guarded α} {call : Call α β}
  {r : Turn κ (Call α β) (Answer β)} {s s' : Scene (Guarded α) (Call α β) ε}

/-! ### Calls that are no visits -/

/-- What the turn of a call of thread `t` may be that is no visit. -/
inductive Operated (t : Tid) (choice : Choice) (g : Guarded α) :
    Call α β → Guarded α → Turn κ (Call α β) (Answer β) → Prop where
  | notifiedOne : Operated t choice g .notifyOne
      { g with monitor := g.monitor.notifyOne choice.pick } (.ret .done)
  | notifiedAll : Operated t choice g .notifyAll { g with monitor := g.monitor.notifyAll }
      (.ret .done)
  | leased : g.monitor.owner = none → Operated t choice g .lease
      { monitor := { g.monitor with owner := some t }
        lease := some { holder := t, handles := 1 } } (.ret (.count 1))
  | excluded (body : Critical α β) : g.monitor.owner = none →
      Operated t choice g (.exclusive body)
        { g with monitor := { g.monitor with value := (body g.monitor.value).1 } }
        (outcomeTurn (body g.monitor.value).2)
  | shared {l : Lease} : g.lease = some l → l.holder = t → Operated t choice g .share
      { g with lease := some { l with handles := l.handles + 1 } } (.ret (.count (l.handles + 1)))
  | unshared {l : Lease} (faulted : Bool) : g.lease = some l → l.holder = t → 1 < l.handles →
      Operated t choice g (.unshare faulted)
        { g with lease := some { l with handles := l.handles - 1 } }
        (.ret (.count (l.handles - 1)))
  /-- The last handle is given up, and the lock with it. -/
  | returned {l : Lease} (faulted : Bool) : g.lease = some l → l.holder = t → l.handles ≤ 1 →
      l.entered = false → Operated t choice g (.unshare faulted)
        { monitor := if faulted then g.monitor.releaseFaulted else g.monitor.release
          lease := none } (.ret (.count 0))
  | counted {l : Lease} : g.lease = some l → l.holder = t → Operated t choice g .handles g
      (.ret (.count l.handles))
  | entered {l : Lease} : g.lease = some l → l.holder = t → l.entered = false →
      Operated t choice g .enter { g with lease := some { l with entered := true } } (.ret .done)
  | refused {l : Lease} : g.lease = some l → l.holder = t → l.entered = true →
      Operated t choice g .enter g (.fail reentry)
  | updated {l : Lease} (body : Critical α β) : g.lease = some l → l.holder = t →
      l.entered = true → Operated t choice g (.update body)
        { g with monitor := { g.monitor with value := (body g.monitor.value).1 } }
        (outcomeTurn (body g.monitor.value).2)
  | exited {l : Lease} : g.lease = some l → l.holder = t → Operated t choice g .exit
      { g with lease := some { l with entered := false } } (.ret .done)

/-- The turn of a call that uses the lease. -/
theorem operated_of_leaseTurn {l : Lease} (hlease : g.lease = some l) (hholder : l.holder = t)
    (h : leaseTurn g l call = some (g', r)) : Operated t choice g call g' r := by
  cases call with
  | share =>
      cases h
      exact .shared hlease hholder
  | unshare faulted =>
      simp only [leaseTurn] at h
      split at h
      · next hlast =>
        split at h
        · cases h
        · next hout =>
          cases h
          exact .returned faulted hlease hholder hlast (by simpa using hout)
      · next hmore =>
        cases h
        exact .unshared faulted hlease hholder (Nat.lt_of_not_le hmore)
  | handles =>
      cases h
      exact .counted hlease hholder
  | enter =>
      simp only [leaseTurn] at h
      split at h
      · next hin =>
        cases h
        exact .refused hlease hholder hin
      · next hout =>
        cases h
        exact .entered hlease hholder (by simpa using hout)
  | update body =>
      simp only [leaseTurn] at h
      split at h
      · next hin =>
        cases h
        exact .updated body hlease hholder hin
      · cases h
  | exit =>
      cases h
      exact .exited hlease hholder
  | visit _ _ | notifyOne | notifyAll | lease | exclusive _ => cases h

/-- **Inversion.** The turn of a call that is no visit. -/
theorem operated_of_turn (hcall : ∀ v phase, call ≠ .visit v phase)
    (h : turn t choice g call = some (g', r)) : Operated t choice g call g' r := by
  cases call with
  | visit v phase => exact absurd rfl (hcall v phase)
  | notifyOne =>
      cases h
      exact .notifiedOne
  | notifyAll =>
      cases h
      exact .notifiedAll
  | lease =>
      obtain ⟨monitor, hacquire, heq⟩ := Option.map_eq_some_iff.mp h
      obtain ⟨hfree, rfl⟩ := Monitor.acquire_eq_some hacquire
      cases heq
      exact .leased hfree
  | exclusive body =>
      simp only [turn] at h
      split at h
      · next hfree =>
        cases h
        exact .excluded body (by simpa using hfree)
      · cases h
  | share | unshare | handles | enter | update | exit =>
      simp only [turn] at h
      split at h
      · next l hlease =>
        split at h
        · next hholder => exact operated_of_leaseTurn hlease hholder h
        · cases h
      · cases h

/-! ### One step of a call -/

/-- Whether a turn ends its call. -/
def Ends (r : Turn κ (Call α β) (Answer β)) : Prop :=
  (∃ answer, r = .ret answer) ∨ ∃ fault, r = .fail fault

theorem ends_outcomeTurn (outcome : Except Fault β) :
    Ends (outcomeTurn outcome : Turn κ (Call α β) (Answer β)) := by
  cases outcome with
  | ok b => exact .inl ⟨_, rfl⟩
  | error fault => exact .inr ⟨fault, rfl⟩

/-- A turn that ends its call does not go on with it, nor run code, nor abort. -/
theorem Ends.not_on (h : Ends r) :
    (∀ call', r ≠ .stay call') ∧ (∀ code call', r ≠ .run code call') ∧ r ≠ .abort := by
  obtain ⟨answer, rfl⟩ | ⟨fault, rfl⟩ := h <;> exact ⟨nofun, nofun, nofun⟩

/-- What one step of a call of thread `t` may be. -/
inductive Turned (t : Tid) (choice : Choice) (g : Guarded α) :
    Call α β → Guarded α → Turn κ (Call α β) (Answer β) → Prop where
  | visitedOn {v : Visit α β} {phase phase' : Phase β} {monitor : Monitor α} :
      v.turn t choice g.monitor phase = some (monitor, .on phase') →
      Turned t choice g (.visit v phase) { g with monitor := monitor } (.stay (.visit v phase'))
  | visitedOver {v : Visit α β} {outcome : Except Fault (Option β)} {monitor : Monitor α} :
      v.turn t choice g.monitor (.leaving outcome) = some (monitor, .ended outcome) →
      Turned t choice g (.visit v (.leaving outcome)) { g with monitor := monitor }
        (visitTurn outcome)
  | notified {call : Call α β} (sleepers : List Tid) : (∀ v phase, call ≠ .visit v phase) →
      Turned t choice g call { g with monitor := { g.monitor with sleepers := sleepers } }
        (.ret .done)
  | leased : g.monitor.owner = none →
      Turned t choice g .lease
        { monitor := { g.monitor with owner := some t }
          lease := some { holder := t, handles := 1 } }
        (.ret (.count 1))
  | excluded (body : Critical α β) : g.monitor.owner = none →
      Turned t choice g (.exclusive body)
        { g with monitor := { g.monitor with value := (body g.monitor.value).1 } }
        (outcomeTurn (body g.monitor.value).2)
  /-- The holder of the lease uses it, and keeps it or gives it up with the lock. -/
  | used {call : Call α β} {l : Lease} {r : Turn κ (Call α β) (Answer β)} {g' : Guarded α} :
      (∀ v phase, call ≠ .visit v phase) → g.lease = some l → l.holder = t →
      ((∃ l', g'.lease = some l' ∧ l'.holder = t ∧ g'.monitor.owner = g.monitor.owner) ∨
        g'.lease = none ∧ g'.monitor.owner = none) →
      Ends r → Turned t choice g call g' r

/-- What a call does that is no visit, as a step among the others. -/
theorem Operated.turned (h : Operated t choice g call g' r) : Turned t choice g call g' r := by
  cases h with
  | notifiedOne | notifiedAll => exact .notified _ nofun
  | leased hfree => exact .leased hfree
  | excluded body hfree => exact .excluded body hfree
  | shared hlease hholder | unshared _ hlease hholder _ | entered hlease hholder _
  | exited hlease hholder =>
      exact .used nofun hlease hholder (.inl ⟨_, rfl, hholder, rfl⟩) (.inl ⟨_, rfl⟩)
  | returned faulted hlease hholder _ _ =>
      refine .used nofun hlease hholder (.inr ⟨rfl, ?_⟩) (.inl ⟨_, rfl⟩)
      cases faulted <;> rfl
  | counted hlease hholder =>
      exact .used nofun hlease hholder (.inl ⟨_, hlease, hholder, rfl⟩) (.inl ⟨_, rfl⟩)
  | refused hlease hholder _ =>
      exact .used nofun hlease hholder (.inl ⟨_, hlease, hholder, rfl⟩) (.inr ⟨_, rfl⟩)
  | updated body hlease hholder _ =>
      exact .used nofun hlease hholder (.inl ⟨_, hlease, hholder, rfl⟩) (ends_outcomeTurn _)

/-- **Inversion.** Every step of a call is one of these. -/
theorem turned_of_turn (h : turn t choice g call = some (g', r)) : Turned t choice g call g' r := by
  cases call with
  | visit v phase =>
      obtain ⟨⟨monitor, progress⟩, hturn, heq⟩ := Option.map_eq_some_iff.mp h
      cases heq
      cases progress with
      | on phase' => exact .visitedOn hturn
      | ended outcome =>
          obtain rfl := Visit.leaving_of_ended hturn
          exact .visitedOver hturn
  | notifyOne | notifyAll | lease | exclusive _ | share | unshare _ | handles | enter | update _
  | exit => exact (operated_of_turn (fun _ _ heq => by cases heq) h).turned

/-- A call of a guarded value runs no code, and it never aborts. -/
theorem turn_plain (h : turn t choice g call = some (g', r)) :
    r ≠ .abort ∧ ∀ code call', r ≠ .run code call' := by
  cases turned_of_turn h with
  | visitedOn _ | notified _ _ | leased _ => exact ⟨nofun, nofun⟩
  | @visitedOver v outcome _ _ => rcases outcome with _ | _ | _ <;> exact ⟨nofun, nofun⟩
  | excluded body _ =>
      obtain ⟨-, hrun, habort⟩ := (ends_outcomeTurn (body g.monitor.value).2).not_on
      exact ⟨habort, hrun⟩
  | used _ _ _ _ hr => exact ⟨hr.not_on.2.2, hr.not_on.2.1⟩

/-- A call that goes on is a visit that goes on. -/
theorem visit_of_stay {call' : Call α β} (h : turn t choice g call = some (g', r))
    (hstay : r = .stay call') :
    ∃ v phase phase' monitor, call = .visit v phase ∧ call' = .visit v phase' ∧
      g' = { g with monitor := monitor } ∧
      v.turn t choice g.monitor phase = some (monitor, .on phase') := by
  cases turned_of_turn h with
  | @visitedOn v phase phase' monitor hturn =>
      cases hstay
      exact ⟨v, phase, phase', monitor, rfl, rfl, rfl, hturn⟩
  | @visitedOver v outcome monitor _ => rcases outcome with _ | _ | _ <;> cases hstay
  | notified _ _ | leased _ => cases hstay
  | excluded body _ =>
      exact absurd hstay ((ends_outcomeTurn (body g.monitor.value).2).not_on.1 call')
  | used _ _ _ _ hr => exact absurd hstay (hr.not_on.1 call')

end Offload.Guarded
