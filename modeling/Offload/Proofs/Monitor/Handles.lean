import Offload.Monitor.Session
import Offload.Proofs.Leads
import Offload.Proofs.Monitor.Steps

/-!
# Using a handle

While a lease is out, the lock is owned on behalf of its handles: nobody but the holder of the lease
changes it or the value (`lease_of_step_ne`). Code **uses** a handle when it enters it, does
something inside it, and exits it again. Inside it may run critical sections, which may fail, and it
may try to use this handle, or another one of the same lease, once more, which is refused. As no
other thread interferes, what a use comes to is known at its beginning.

## Main results

* `Guarded.lease_of_step_ne`: what other threads do while a lease is out.
* `Guarded.Inside`: what code may do inside a handle.
* `Guarded.bound_of_use`: what a use of a handle comes to.
-/

namespace Offload.Guarded

variable {κ ω α β ρ ε : Type} {next : κ → Move κ ω (Call α β) (Answer β) ρ ε} {value : α}
  {world : ω} {codes : List κ} {s s' : State κ ω (Guarded α) (Call α β) (Answer β) ε} {t u : Tid}
  {choice : Choice}

/-! ### Other threads -/

/-- A step of a thread that neither owns the lock nor comes to own it changes neither the value nor
the lease. -/
theorem frame_of_step {w : Tid} (h : (machine next).Reach (.ofCodes (new value) world codes) s)
    (howner : s.shared.monitor.owner = some w) (hu : u ≠ w)
    (hstep : (machine next).step u choice s = some s') :
    s'.shared.monitor.value = s.shared.monitor.value ∧
      s'.shared.monitor.owner = s.shared.monitor.owner ∧
      s'.shared.monitor.poisoned = s.shared.monitor.poisoned ∧
      s'.shared.lease = s.shared.lease := by
  obtain ⟨hmoved, -⟩ := moved_of_step h hstep
  cases hmoved with
  | coded _ hshared _ => rw [hshared]; exact ⟨rfl, rfl, rfl, rfl⟩
  | @turned call rest r hstack hturn _ _ =>
      obtain ⟨howns, hlease⟩ := guarded_of_reach h
      obtain ⟨sleepers, hg⟩ := eq_sleepers_of_turned (turned_of_turn hturn) hu.symm howner hlease
        fun v phase hv hphase => (howns u v phase (hv ▸ current_of_stack hstack) hphase).1
      rw [hg]
      exact ⟨rfl, rfl, rfl, rfl⟩

/-- **While a lease is out**, the lock is its holder's, and other threads change neither the lease
nor the value. -/
theorem lease_of_step_ne {l : Lease}
    (h : (machine next).Reach (.ofCodes (new value) world codes) s)
    (hlease : s.shared.lease = some l) (hu : u ≠ l.holder)
    (hstep : (machine next).step u choice s = some s') :
    s'.shared.lease = some l ∧ s'.shared.monitor.value = s.shared.monitor.value := by
  have howner := (guarded_of_reach h).2 l hlease
  obtain ⟨hvalue, -, -, hsame⟩ := frame_of_step h howner hu hstep
  exact ⟨hsame.trans hlease, hvalue⟩

/-! ### The holder -/

/-- What a thread that holds the lease has before it: its layers, the value and the lease, in a run
that starts with `s₀`. -/
structure Holding (next : κ → Move κ ω (Call α β) (Answer β) ρ ε)
    (s₀ : State κ ω (Guarded α) (Call α β) (Answer β) ε) (t : Tid)
    (frames : Stack κ (Call α β) (Answer β)) (a : α) (l : Lease)
    (s : State κ ω (Guarded α) (Call α β) (Answer β) ε) : Prop where
  reach : (machine next).Reach s₀ s
  stack : s.stack t = frames
  value : s.shared.monitor.value = a
  lease : s.shared.lease = some l

section Holder

variable {position : κ} {call : Call α β} {k : Except Fault (Answer β) → κ}
  {rest : Stack κ (Call α β) (Answer β)} {a : α} {l : Lease}

/-- What the holder has before it does not depend on what the others do. -/
theorem Holding.of_other {frames : Stack κ (Call α β) (Answer β)} (hholder : l.holder = t)
    (hs : Holding next (.ofCodes (new value) world codes) t frames a l s) (hu : u ≠ t)
    (hstep : (machine next).step u choice s = some s') :
    Holding next (.ofCodes (new value) world codes) t frames a l s' := by
  obtain ⟨hlease, hvalue⟩ := lease_of_step_ne hs.reach hs.lease (hholder ▸ hu) hstep
  exact ⟨.step u choice hs.reach hstep, (Machine.stack_of_step_ne hstep hu.symm).trans hs.stack,
    hvalue.trans hs.value, hlease⟩

/-- Code of the holder makes its call. -/
theorem leads_of_code (hholder : l.holder = t) (hnext : next position = .call call k) :
    (machine next).Leads t
      (Holding next (.ofCodes (new value) world codes) t (.code position :: rest) a l)
      (Holding next (.ofCodes (new value) world codes) t
        (.call call.fresh :: .wait k :: rest) a l) := by
  have hmove : (machine next).next position = .call call.fresh k := by
    rw [show (machine next).next position = (next position).map Call.fresh id from rfl, hnext]
    rfl
  have hsteps : ∀ s,
      Holding next (.ofCodes (new value) world codes) t (.code position :: rest) a l s →
      ∀ choice, (machine next).step t choice s =
        some (s.withStack t (.call call.fresh :: .wait k :: rest)) := by
    intro s hs choice
    simp only [Machine.step, live_of_reach hs.reach, Machine.stepThread, hs.stack, hmove]
    rfl
  refine ⟨fun s hs choice => by rw [hsteps s hs]; rfl, fun s hs choice s' hstep => ?_,
    fun s hs u hu choice s' hstep => hs.of_other hholder hu hstep⟩
  obtain rfl := Option.some.inj ((hsteps s hs choice).symm.trans hstep)
  exact ⟨.step t choice hs.reach hstep, State.stack_withStack_self _ (by simp [hs.stack]),
    hs.value, hs.lease⟩

/-- A call of the holder answers, or passes on a fault, with a value and a lease that it leaves. -/
theorem leads_of_call {answer : Except Fault (Answer β)} (a' : α) (l' : Lease)
    (hholder : l.holder = t)
    (hturn : ∀ g : Guarded α, g.monitor.value = a → g.lease = some l → ∀ choice, ∃ g' r,
      turn (κ := κ) t choice g call = some (g', r) ∧ g'.monitor.value = a' ∧ g'.lease = some l' ∧
      ∀ rest, Machine.afterTurn rest r = Machine.finishCall answer rest) :
    (machine next).Leads t
      (Holding next (.ofCodes (new value) world codes) t (.call call :: .wait k :: rest) a l)
      (Holding next (.ofCodes (new value) world codes) t (.code (k answer) :: rest) a' l') := by
  have hsteps : ∀ s, Holding next (.ofCodes (new value) world codes) t
      (.call call :: .wait k :: rest) a l s → ∀ choice, ∃ s',
        (machine next).step t choice s = some s' ∧
        Holding next (.ofCodes (new value) world codes) t (.code (k answer) :: rest) a' l' s' := by
    intro s hs choice
    obtain ⟨g', r, hturn, hvalue, hlease, hafter⟩ := hturn s.shared hs.value hs.lease choice
    have hturn' : (machine next).turn t choice s.shared call = some (g', [], r) := by
      simp [machine, hturn]
    obtain ⟨s', hstep, hshared, -, hstack⟩ :=
      Machine.exists_step_of_turn (live_of_reach hs.reach) hs.stack hturn'
    refine ⟨s', hstep, .step t choice hs.reach hstep, ?_, hshared ▸ hvalue, hshared ▸ hlease⟩
    rw [hstack, hafter]
    rfl
  refine ⟨fun s hs choice => ?_, fun s hs choice s' hstep => ?_,
    fun s hs u hu choice s' hstep => hs.of_other hholder hu hstep⟩
  · obtain ⟨s', hstep, -⟩ := hsteps s hs choice
    rw [hstep]
    rfl
  · obtain ⟨s'', hstep', hs'⟩ := hsteps s hs choice
    obtain rfl := Option.some.inj (hstep'.symm.trans hstep)
    exact hs'

end Holder

/-! ### Uses -/

/-- Whether code that has entered a handle can go from one position to another in `n` steps in which
it runs critical sections through the handle and tries to enter handles of the same lease: which
value it sees at first, and which it leaves. It goes on with the outcome of each section, also if
this is a fault, and with the refusal of each entry. -/
inductive Inside (next : κ → Move κ ω (Call α β) (Answer β) ρ ε) :
    Nat → κ → α → κ → α → Prop where
  | here (position : κ) (a : α) : Inside next 0 position a position a
  | updates {n : Nat} {position position' : κ} {a a' : α} {body : Critical α β}
      {k : Except Fault (Answer β) → κ} : next position = .call (.update body) k →
      Inside next n (k ((body a).2.map .value)) (body a).1 position' a' →
      Inside next (n + 2) position a position' a'
  | reenters {n : Nat} {position position' : κ} {a a' : α} {k : Except Fault (Answer β) → κ} :
      next position = .call .enter k → Inside next n (k (.error reentry)) a position' a' →
      Inside next (n + 2) position a position' a'

section Uses

variable {n : Nat} {position position' : κ} {k k' : Except Fault (Answer β) → κ}
  {rest : Stack κ (Call α β) (Answer β)} {a a' : α} {l : Lease}

/-- What a thread does inside a handle leads to the value that it leaves, whatever the other threads
do; the lease is as it was. -/
theorem Inside.bound {m : Nat} {Q : State κ ω (Guarded α) (Call α β) (Answer β) ε → Prop}
    (h : Inside next n position a position' a') (hholder : l.holder = t) (hin : l.entered = true)
    (hbound : (machine next).Bound t m
      (Holding next (.ofCodes (new value) world codes) t (.code position' :: rest) a' l) Q) :
    (machine next).Bound t (m + n)
      (Holding next (.ofCodes (new value) world codes) t (.code position :: rest) a l) Q := by
  induction h with
  | here position a => exact hbound
  | @updates n position position' a a' body k hnext _ ih =>
      refine .next (leads_of_code hholder hnext) (.next (leads_of_call _ l hholder ?_) (ih hbound))
      subst hholder
      rintro g rfl hlease choice
      refine ⟨{ g with monitor := { g.monitor with value := (body g.monitor.value).1 } },
        outcomeTurn (body g.monitor.value).2, by simp [turn, Call.fresh, hlease, leaseTurn, hin],
        rfl, hlease, fun rest => ?_⟩
      cases (body g.monitor.value).2 <;> rfl
  | @reenters n position position' a a' k hnext _ ih =>
      refine .next (leads_of_code hholder hnext) (.next (leads_of_call a l hholder ?_) (ih hbound))
      subst hholder
      rintro g rfl hlease choice
      exact ⟨g, .fail reentry, by simp [turn, Call.fresh, hlease, leaseTurn, hin], rfl, hlease,
        fun _ => rfl⟩

/-- **A use of a handle** enters it, goes on inside it, and exits it. It leaves what its critical
sections wrote, and the lease as it was. -/
theorem bound_of_use (hout : l.entered = false) (henter : next position = .call .enter k)
    (h : Inside next n (k (.ok .done)) a position' a') (hexit : next position' = .call .exit k') :
    (machine next).Bound l.holder (n + 4)
      (Holding next (.ofCodes (new value) world codes) l.holder (.code position :: rest) a l)
      (Holding next (.ofCodes (new value) world codes) l.holder
        (.code (k' (.ok .done)) :: rest) a' l) := by
  have hreset : ({ { l with entered := true } with entered := false } : Lease) = l := by
    obtain ⟨holder, handles, entered⟩ := l
    cases hout
    rfl
  have hsteps : n + 4 = 2 + n + 1 + 1 := by omega
  have hentered : ({ l with entered := true } : Lease).holder = l.holder := rfl
  rw [hsteps]
  refine .next (leads_of_code rfl henter) <|
    .next (leads_of_call a { l with entered := true } rfl ?enters) <|
    h.bound hentered rfl <| .next (leads_of_code hentered hexit) <|
    .next (leads_of_call a' l hentered ?exits) (.done _)
  case enters =>
    rintro g rfl hlease choice
    exact ⟨{ g with lease := some { l with entered := true } }, .ret .done,
      by simp [turn, Call.fresh, hlease, leaseTurn, hout], rfl, rfl, fun _ => rfl⟩
  case exits =>
    rintro g hvalue hlease choice
    exact ⟨{ g with lease := some { l with entered := false } }, .ret .done,
      by simp [turn, Call.fresh, hlease, leaseTurn], hvalue, congrArg some hreset, fun _ => rfl⟩

end Uses

/-! ### The uses of a session -/

/-- What the code of a use still does once it has come to an ending inside the handle. -/
def exiting (ending : Ending) : Code := do
  let _ ← Script.ask .exit
  Script.emit ending

/-- An edit through a handle is a use of it, also if the edit fails. -/
theorem inside_throughHandle (edit : Edit) (a : Value) :
    ∃ k ending k', Script.next id (Code.throughHandle edit) = .call .enter k ∧
      Inside (Script.next id) 2 (k (.ok .done)) a (exiting ending) (edit.run a).1 ∧
      Script.next id (exiting ending) = .call .exit k' :=
  ⟨_, _, _, rfl, .updates rfl (.here _ _), rfl⟩

/-- So is an edit through a handle after which, if it has not failed, another handle is entered. -/
theorem inside_nested (edit : Edit) (a : Value) :
    ∃ n k ending k', Script.next id (Code.nested edit) = .call .enter k ∧
      Inside (Script.next id) n (k (.ok .done)) a (exiting ending) (edit.run a).1 ∧
      Script.next id (exiting ending) = .call .exit k' := by
  cases houtcome : (edit.run a).2 with
  | ok reply =>
      refine ⟨4, _, .error reentry, _, rfl, .updates rfl ?_, rfl⟩
      rw [houtcome]
      exact .reenters rfl (.here _ _)
  | error fault =>
      refine ⟨2, _, .error fault, _, rfl, .updates rfl ?_, rfl⟩
      rw [houtcome]
      exact .here _ _

end Offload.Guarded
