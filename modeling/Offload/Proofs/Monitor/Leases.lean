import Offload.Proofs.Monitor.Handles

/-!
# Leases exclude

A guarded value is used by one at a time. What threads do to handles and value is put on record in
the order in which it happens: leases taken, handles copied and given up, and critical sections and
tests with the value that they see and the one that they leave. A record is **in turn** if it can
come from a use one after the other: a lease is taken only when none is out, its handles are used
only while it is out, and as long as one of them is alive everything on record is done through
handles of this lease; and whatever is done sees the value that was left before.

Every record is in turn (`inTurn_of_step`), and the lock is owned on behalf of a lease exactly while
more handles have been made than given up.

## Main results

* `Guarded.deeds`: the observer of what happens to handles and value.
* `Guarded.InTurn`: records of a use one after the other.
* `Guarded.sections`: the observer of how often a visit has run its critical section.
* `Guarded.leases_exclude`: in every run the record is in turn, with what this means for handles,
  visits and uses of handles.
-/

namespace Offload

variable {κ ω α β ρ ε : Type}

/-! ### One step of a visit -/

/-- Whether a visit in this phase runs its critical section in its next step. -/
def Phase.isActing : Phase β → Bool
  | .acting _ => true
  | .arriving | .testing _ | .drowsy | .asleep | .overslept | .leaving _ => false

namespace Visit

/-- What a phase of a visit says of how often its critical section has run: once when it leaves with
an answer, and not at all while it is still to run or when the visit has given up. A visit that
leaves with a fault has run it, unless its predicate has failed. -/
def HasRun (v : Visit α β) (n : Nat) : Phase β → Prop
  | .arriving | .acting _ => n = 0
  | .testing _ | .drowsy | .asleep | .overslept | .leaving (.ok none) =>
    n = 0 ∧ v.await.isSome = true
  | .leaving (.ok (some _)) => n = 1
  | .leaving (.error _) => n = 1 ∨ n = 0 ∧ v.await.isSome = true

/-- A step of a visit runs the critical section if the visit was about to, and else does not. -/
theorem hasRun_of_turn {v : Visit α β} {t : Tid} {choice : Choice} {m m' : Monitor α}
    {phase phase' : Phase β} {n : Nat} (h : v.turn t choice m phase = some (m', .on phase'))
    (hs : v.HasRun n phase) :
    v.HasRun (n + phase.isActing.toNat) phase' := by
  generalize hprogress : Progress.on phase' = progress at h
  cases turned_of_turn h with
  | arrived _ =>
      cases hprogress
      split
      · next hawait => exact ⟨hs, hawait⟩
      · exact hs
  | @tested p again hp =>
      cases hprogress
      cases htest : p m.value with
      | error fault => exact .inr hs
      | ok b =>
          cases b with
          | true => exact hs.1
          | false =>
              rw [afterTest]
              split <;> exact hs
  | untested again hnone =>
      have hsome := hs.2
      rw [hnone] at hsome
      cases hsome
  | slept | stirred _ | expired _ _ =>
      cases hprogress
      exact hs
  | woken _ _ =>
      cases hprogress
      split
      · exact hs.1
      · exact hs
  | wokenLate _ =>
      cases hprogress
      split <;> exact hs
  | acted again =>
      cases hprogress
      obtain rfl : n = 0 := hs
      cases (v.body m.value).2 with
      | error fault => exact .inl rfl
      | ok b => rfl
  | left _ | leftFaulted _ => cases hprogress

end Visit

namespace Guarded

variable {next : κ → Move κ ω (Call α β) (Answer β) ρ ε} {value : α} {world : ω} {codes : List κ}
  {s s' : State κ ω (Guarded α) (Call α β) (Answer β) ε} {t u : Tid} {choice : Choice}

/-! ### Records -/

/-- What a thread does to handles or value in one step. -/
inductive Deed (α : Type) where
  /-- It takes a lease, and has its first handle. -/
  | leased
  /-- It copies a handle. -/
  | shared
  /-- It gives up a handle. -/
  | unshared
  /-- It runs a critical section through a handle. -/
  | updated (seen left : α)
  /-- It tests the predicate of a visit. -/
  | tested (seen : α)
  /-- It runs the critical section of a visit, or one without the lock. -/
  | ran (seen left : α)

/-- What the step of a call does, given the values before and after it. -/
def Call.deed (seen left : α) : Call α β → Option (Deed α)
  | .lease => some .leased
  | .share => some .shared
  | .unshare _ => some .unshared
  | .update _ => some (.updated seen left)
  | .visit v (.testing _) => v.await.map fun _ => .tested seen
  | .visit _ (.acting _) | .exclusive _ => some (.ran seen left)
  | .visit _ _ | .notifyOne | .notifyAll | .handles | .enter | .exit => none

/-- The observer of what threads do to handles and value, first deed first. -/
def deeds : Machine.Observer κ ω (Guarded α) (Call α β) (Answer β) ε (List (Tid × Deed α)) :=
  fun t s s' done =>
    done ++ (((current s t).bind
      (Call.deed s.shared.monitor.value s'.shared.monitor.value)).map (Prod.mk t)).toList

/-- Whether a record is **in turn**: it begins with a value, leads to the given value, and leaves a
lease of the given holder with so many handles, or none. -/
inductive InTurn (value : α) : List (Tid × Deed α) → Option (Tid × Nat) → α → Prop where
  | nothing : InTurn value [] none value
  | leased {done : List (Tid × Deed α)} {a : α} (t : Tid) : InTurn value done none a →
      InTurn value (done ++ [(t, .leased)]) (some (t, 1)) a
  | shared {done : List (Tid × Deed α)} {t : Tid} {n : Nat} {a : α} :
      InTurn value done (some (t, n)) a →
      InTurn value (done ++ [(t, .shared)]) (some (t, n + 1)) a
  | unshared {done : List (Tid × Deed α)} {t : Tid} {n : Nat} {a : α} :
      InTurn value done (some (t, n + 2)) a →
      InTurn value (done ++ [(t, .unshared)]) (some (t, n + 1)) a
  /-- The last handle is given up. -/
  | returned {done : List (Tid × Deed α)} {t : Tid} {a : α} : InTurn value done (some (t, 1)) a →
      InTurn value (done ++ [(t, .unshared)]) none a
  | updated {done : List (Tid × Deed α)} {t : Tid} {n : Nat} {a : α} (left : α) :
      InTurn value done (some (t, n)) a →
      InTurn value (done ++ [(t, .updated a left)]) (some (t, n)) left
  | tested {done : List (Tid × Deed α)} {a : α} (t : Tid) : InTurn value done none a →
      InTurn value (done ++ [(t, .tested a)]) none a
  | ran {done : List (Tid × Deed α)} {a : α} (t : Tid) (left : α) : InTurn value done none a →
      InTurn value (done ++ [(t, .ran a left)]) none left

/-- The number of handles that were made. -/
def made (done : List (Tid × Deed α)) : Nat :=
  done.countP fun deed => match deed.2 with
    | .leased | .shared => true
    | .unshared | .updated _ _ | .tested _ | .ran _ _ => false

/-- The number of handles that were given up. -/
def givenUp (done : List (Tid × Deed α)) : Nat :=
  done.countP fun deed => match deed.2 with
    | .unshared => true
    | .leased | .shared | .updated _ _ | .tested _ | .ran _ _ => false

/-- The holder of the lease and the number of its handles, if a lease is out. -/
def held (g : Guarded α) : Option (Tid × Nat) :=
  g.lease.map fun l => (l.holder, l.handles)

variable {done : List (Tid × Deed α)} {hold : Option (Tid × Nat)} {a : α}

/-- A lease that is out has a handle. -/
theorem InTurn.pos {n : Nat} (h : InTurn value done hold a) (hhold : hold = some (t, n)) :
    0 < n := by
  induction h generalizing t n with
  | nothing | returned _ | tested _ _ _ | ran _ _ _ _ => cases hhold
  | leased _ _ _ | shared _ _ | unshared _ _ =>
      cases hhold
      exact Nat.succ_pos _
  | updated _ _ ih => exact ih hhold

/-- The handles of the lease that is out are those that were made and not given up. -/
theorem InTurn.made_eq (h : InTurn value done hold a) :
    made done = givenUp done + hold.elim 0 Prod.snd := by
  induction h with
  | nothing => rfl
  | leased _ _ ih | shared _ ih | unshared _ ih | returned _ ih | updated _ _ ih | tested _ _ ih
  | ran _ _ _ ih =>
      simp only [made, givenUp, List.countP_append, List.countP_singleton, Option.elim_some,
        Option.elim_none, Bool.false_eq_true, if_true, if_false] at ih ⊢
      omega

/-! ### One step -/

/-- The record after a step of a thread that makes a call. -/
theorem deeds_of_current {call : Call α β} (h : current s t = some call)
    (done : List (Tid × Deed α)) :
    deeds t s s' done = done ++
      ((call.deed s.shared.monitor.value s'.shared.monitor.value).map (Prod.mk t)).toList := by
  rw [deeds, h, Option.bind_some]

section Calls

variable {g g' : Guarded α} {r : Turn κ (Call α β) (Answer β)}

/-- A call that does nothing to handles and value in its step. -/
theorem InTurn.of_none {call : Call α β} (hs : InTurn value done (held g) g.monitor.value)
    (hdeed : ∀ seen left, call.deed seen left = none) (hvalue : g'.monitor.value = g.monitor.value)
    (hheld : held g' = held g) :
    InTurn value (done ++ ((call.deed g.monitor.value g'.monitor.value).map (Prod.mk t)).toList)
      (held g') g'.monitor.value := by
  rw [hdeed, hvalue, hheld]
  simpa using hs

/-- A step of a visit is in turn: it tests or runs its critical section only while no lease is
out. -/
theorem inTurn_of_visit {v : Visit α β} {phase : Phase β} {monitor : Monitor α}
    {progress : Progress β} (hs : InTurn value done (held g) g.monitor.value)
    (hown : phase.owns = true → g.lease = none)
    (h : v.turn t choice g.monitor phase = some (monitor, progress)) :
    InTurn value (done ++ (((Call.visit v phase).deed g.monitor.value monitor.value).map
      (Prod.mk t)).toList) (held { g with monitor := monitor }) monitor.value := by
  have hnone : phase.owns = true → held g = none := fun howns => by rw [held, hown howns]; rfl
  have hheld : held { g with monitor := monitor } = held g := rfl
  cases Visit.turned_of_turn h with
  | @tested p again hp =>
      rw [hheld, hnone rfl]
      rw [hnone rfl] at hs
      simpa [Call.deed, hp] using hs.tested t
  | acted again =>
      rw [hheld, hnone rfl]
      rw [hnone rfl] at hs
      exact hs.ran t _
  | untested again hp => exact hs.of_none (fun _ _ => by simp [Call.deed, hp]) rfl rfl
  | arrived _ | slept | stirred _ | expired _ _ | woken _ _ | wokenLate _ | left _
  | leftFaulted _ => exact hs.of_none (fun _ _ => rfl) rfl rfl

/-- A call that is no visit is in turn. -/
theorem inTurn_of_operated {call : Call α β} (hs : InTurn value done (held g) g.monitor.value)
    (hfree : g.monitor.owner = none → g.lease = none) (h : Operated t choice g call g' r) :
    InTurn value (done ++ ((call.deed g.monitor.value g'.monitor.value).map (Prod.mk t)).toList)
      (held g') g'.monitor.value := by
  -- what is held, when a lease is out
  have hheld : ∀ {l : Lease}, g.lease = some l → l.holder = t → held g = some (t, l.handles) := by
    intro l hlease hholder
    rw [held, hlease, Option.map_some, hholder]
  cases h with
  | notifiedOne | notifiedAll | counted _ _ | refused _ _ _ =>
      exact hs.of_none (fun _ _ => rfl) rfl rfl
  | leased howner =>
      have hnone : held g = none := by rw [held, hfree howner]; rfl
      rw [hnone] at hs
      exact hs.leased t
  | excluded body howner =>
      have hnone : held g = none := by rw [held, hfree howner]; rfl
      have hsame : held { g with monitor :=
          { g.monitor with value := (body g.monitor.value).1 } } = held g := rfl
      rw [hsame, hnone]
      rw [hnone] at hs
      exact hs.ran t _
  | @shared l hlease hholder =>
      rw [hheld hlease hholder] at hs
      simpa [Call.deed, held, hholder] using hs.shared
  | @unshared l faulted hlease hholder hmore =>
      rw [hheld hlease hholder] at hs
      obtain ⟨n, hn⟩ : ∃ n, l.handles = n + 2 := ⟨l.handles - 2, by omega⟩
      rw [hn] at hs
      simpa [Call.deed, held, hholder, hn] using hs.unshared
  | @returned l faulted hlease hholder hlast hout =>
      rw [hheld hlease hholder] at hs
      have hone : l.handles = 1 := by
        have hpos := hs.pos rfl
        omega
      rw [hone] at hs
      cases faulted <;> exact hs.returned
  | @entered l hlease hholder hout | @exited l hlease hholder =>
      refine hs.of_none (fun _ _ => rfl) rfl ?_
      rw [hheld hlease hholder, held, Option.map_some, hholder]
  | @updated l body hlease hholder hin =>
      have hsame : held { g with monitor :=
          { g.monitor with value := (body g.monitor.value).1 } } = held g := rfl
      rw [hsame, hheld hlease hholder]
      rw [hheld hlease hholder] at hs
      exact hs.updated _

end Calls

/-- **In turn, one step.** -/
theorem inTurn_of_step (h : (machine next).Reach (.ofCodes (new value) world codes) s)
    (hs : InTurn value done (held s.shared) s.shared.monitor.value)
    (hstep : (machine next).step t choice s = some s') :
    InTurn value (deeds t s s' done) (held s'.shared) s'.shared.monitor.value := by
  obtain ⟨hmoved, -⟩ := moved_of_step h hstep
  obtain ⟨howns, hlease⟩ := guarded_of_reach h
  cases hmoved with
  | coded hcode hshared _ =>
      rw [deeds, hcode, hshared]
      simpa using hs
  | @turned call rest r hstack hturn _ _ =>
      rw [deeds_of_current (current_of_stack hstack)]
      by_cases hvisit : ∃ v phase, call = .visit v phase
      · obtain ⟨v, phase, rfl⟩ := hvisit
        obtain ⟨⟨monitor, progress⟩, hvisit, heq⟩ := Option.map_eq_some_iff.mp hturn
        obtain ⟨hg, -⟩ := Prod.mk.inj heq
        rw [← hg]
        exact inTurn_of_visit hs
          (fun hphase => (howns t v phase (current_of_stack hstack) hphase).2) hvisit
      · refine inTurn_of_operated hs (fun hfree => ?_)
          (operated_of_turn (fun v phase heq => hvisit ⟨v, phase, heq⟩) hturn)
        cases hl : s.shared.lease with
        | none => rfl
        | some l =>
            rw [hlease l hl] at hfree
            cases hfree

/-! ### Sections of a visit -/

/-- How often a call runs the critical section of a visit in its next step. -/
def Call.acts : Call α β → Nat
  | .visit _ phase => phase.isActing.toNat
  | _ => 0

/-- The observer of how often the visit that a thread is making has run its critical section. -/
def sections : Machine.Observer κ ω (Guarded α) (Call α β) (Answer β) ε (Tid → Nat) :=
  fun t s _ times => Function.update times t
    (match current s t with
    | none => 0
    | some call => times t + call.acts)

/-- Whether every visit has run its critical section as often as its phase says. -/
def Sectioned (s : State κ ω (Guarded α) (Call α β) (Answer β) ε) (times : Tid → Nat) : Prop :=
  ∀ t v phase, current s t = some (.visit v phase) → v.HasRun (times t) phase

/-- **Once, one step.** -/
theorem sectioned_of_step {times : Tid → Nat}
    (h : (machine next).Reach (.ofCodes (new value) world codes) s) (hs : Sectioned s times)
    (hstep : (machine next).step t choice s = some s') : Sectioned s' (sections t s s' times) := by
  intro u v phase' hcall
  obtain ⟨hmoved, hothers⟩ := moved_of_step h hstep
  by_cases hu : u = t
  · subst hu
    rw [sections, Function.update_self]
    cases hmoved with
    | coded hcode _ hfresh =>
        obtain ⟨request, heq⟩ := hfresh _ hcall
        rw [hcode]
        cases request with
        | visit _ _ =>
            cases heq
            rfl
        | _ => cases heq
    | @turned call rest r hstack hturn _ hgoes =>
        obtain ⟨v', phase, phase'', monitor, rfl, heq, -, hvisit⟩ :=
          visit_of_stay hturn ((hgoes _).mp hcall)
        cases heq
        have hcurrent := current_of_stack hstack
        rw [hcurrent]
        exact Visit.hasRun_of_turn hvisit (hs u v phase hcurrent)
  · rw [sections, Function.update_of_ne hu]
    exact hs u v phase' ((hothers u hu).symm.trans hcall)

/-! ### All runs -/

/-- What holds while the lease `l` is out, where `done` is the record of what has happened. -/
structure Lent (done : List (Tid × Deed α)) (s : State κ ω (Guarded α) (Call α β) (Answer β) ε)
    (l : Lease) : Prop where
  /-- The lock is owned by the lease's holder, -/
  owner : s.shared.monitor.owner = some l.holder
  /-- the lease's handles are those that were made and not given up, -/
  handles : made done = givenUp done + l.handles
  /-- and no visit is in a phase that owns the lock. -/
  excluded : ∀ t v phase rest, s.stack t = .call (.visit v phase) :: rest → phase.owns = false

/-- What a lease means at the moment `s` of a run that begins with `value` and with the code
`codes`, where `done` is the record of what has happened. -/
structure Leased (next : κ → Move κ ω (Call α β) (Answer β) ρ ε) (value : α) (world : ω)
    (codes : List κ) (done : List (Tid × Deed α))
    (s : State κ ω (Guarded α) (Call α β) (Answer β) ε) : Prop where
  /-- The record is in turn, and leads to the value and the lease that are there. -/
  inTurn : InTurn value done (held s.shared) s.shared.monitor.value
  /-- No lease is out exactly when as many handles have been given up as were made. -/
  none_iff : s.shared.lease = none ↔ made done = givenUp done
  lent : ∀ l, s.shared.lease = some l → Lent done s l
  /-- A handle's count is the number of handles that were made and not given up. -/
  count : ∀ t rest n, s.stack t = .call .handles :: rest →
    (machine next).Answers s t (.count n) → made done = givenUp done + n
  /-- A visit has run its critical section as often as its phase says. -/
  ran : ∀ times, (machine next).Observed sections (.ofCodes (new value) world codes) (fun _ => 0) s
    times → ∀ t v phase rest, s.stack t = .call (.visit v phase) :: rest →
      v.HasRun (times t) phase
  /-- A use of a handle that is not entered ends with the lease as it was. -/
  used : ∀ l position k n a position' a' k' rest, l.entered = false →
    next position = .call .enter k → Inside next n (k (.ok .done)) a position' a' →
    next position' = .call .exit k' →
    (machine next).Bound l.holder (n + 4)
      (Holding next (.ofCodes (new value) world codes) l.holder (.code position :: rest) a l)
      (Holding next (.ofCodes (new value) world codes) l.holder
        (.code (k' (.ok .done)) :: rest) a' l)

/-- **Leases exclude.** In every run, at every moment:

* the record of what threads did to handles and value is in turn, and leads to the value and the
  lease that are there;
* a lease is out exactly while more handles have been made than given up; then the lock is owned by
  the lease's holder, its handles are those that were made and not given up, and no visit is in a
  phase that owns the lock;
* a handle's count is the number of handles that were made and not given up;
* a visit that is about to leave has run its critical section once, unless it leaves without an
  answer, which only one that waits for a predicate can do: when it has given up, it has not run it,
  and when its predicate has failed, neither; before, no visit has run it;
* a use of a handle that is not entered ends, after known steps of its thread alone and whatever the
  others do, with the lease as it was and with what its sections wrote: also if they failed, and if
  further uses were tried inside it. -/
theorem leases_exclude
    (h : (machine next).Observed deeds (.ofCodes (new value) world codes) [] s done) :
    Leased next value world codes done s := by
  have hturn : InTurn value done (held s.shared) s.shared.monitor.value :=
    h.invariant (P := fun s done => InTurn value done (held s.shared) s.shared.monitor.value)
      .nothing fun t choice s s' x hreach hs hstep => inTurn_of_step hreach hs hstep
  have hmade := hturn.made_eq
  obtain ⟨howns, howner⟩ := guarded_of_reach h.reach
  constructor
  case inTurn => exact hturn
  case none_iff =>
    cases hlease : s.shared.lease with
    | none => simpa [held, hlease] using hmade
    | some l =>
        have hheld : held s.shared = some (l.holder, l.handles) := by rw [held, hlease]; rfl
        have hpos := hturn.pos hheld
        rw [hheld] at hmade
        simp only [Option.elim_some] at hmade
        simp
        omega
  case lent =>
    refine fun l hlease => ⟨howner l hlease, ?_, fun t v phase rest hstack => ?_⟩
    · rw [hmade, held, hlease]
      rfl
    · cases hphase : phase.owns with
      | false => rfl
      | true =>
          obtain ⟨-, hnone⟩ := howns t v phase (current_of_stack hstack) hphase
          rw [hlease] at hnone
          cases hnone
  case count =>
    rintro t rest n hstack ⟨-, call, rest', choice, g', events, hstack', hanswer⟩
    rw [hstack] at hstack'
    cases hstack'
    obtain ⟨⟨g₁, r⟩, hanswer, heq⟩ := Option.map_eq_some_iff.mp hanswer
    cases heq
    cases operated_of_turn (fun _ _ heq => by cases heq) hanswer with
    | counted hlease hholder =>
        rw [hmade, held, hlease]
        rfl
  case ran =>
    intro times htimes t v phase rest hstack
    refine htimes.invariant (P := Sectioned) (fun t v phase hcall => ?_)
      (fun t choice s s' x hreach hs hstep => sectioned_of_step hreach hs hstep) t v phase
      (current_of_stack hstack)
    obtain hnil | ⟨code, hcode⟩ := State.stack_ofCodes (s := .ofCodes (new value) world codes) rfl t
    · rw [current, hnil] at hcall
      cases hcall
    · rw [current, hcode] at hcall
      cases hcall
  case used =>
    exact fun l position k n a position' a' k' rest hout henter hinside hexit =>
      bound_of_use hout henter hinside hexit

/-! A run in which a thread takes a lease, copies its handle, and fails in a use of it, while
another thread waits for the lock. -/

/-- Takes a lease, copies the handle, and adds one in a use of it that fails. -/
def leaseAndFail : Script (Call Nat Nat) (Answer Nat) Unit Unit Unit := do
  let _ ← Script.ask .lease
  let _ ← Script.ask .share
  let _ ← Script.ask .enter
  let _ ← Script.attempt (.update fun n => (n + 1, .error .other))
  let _ ← Script.ask .exit

/-- The state in which the two threads begin. -/
def leaserAndOther : State (Script (Call Nat Nat) (Answer Nat) Unit Unit Unit) Unit (Guarded Nat)
    (Call Nat Nat) (Answer Nat) Unit :=
  .ofCodes (new 0) ()
    [leaseAndFail, do let _ ← Script.ask (.visiting (Visit.plain fun n => (n, .ok n)))]

/-- The state in which the first thread has exited the handle and the other one wants the lock, with
the record of what has happened. -/
def afterFailedUse : State (Script (Call Nat Nat) (Answer Nat) Unit Unit Unit) Unit (Guarded Nat)
    (Call Nat Nat) (Answer Nat) Unit × List (Tid × Deed Nat) :=
  (machine (Script.next id)).follow deeds (List.replicate 10 (0, .go 0) ++ [(1, .go 0)])
    (leaserAndOther, [])

theorem afterFailedUse_observed : (machine (Script.next id)).Observed deeds leaserAndOther []
    afterFailedUse.1 afterFailedUse.2 :=
  Machine.observed_follow _ _ _ .start

theorem leases_exclude_afterFailedUse :
    afterFailedUse.1.shared.lease = some { holder := 0, handles := 2 } ∧
      afterFailedUse.1.shared.monitor.value = 1 ∧
      afterFailedUse.2 = [(0, .leased), (0, .shared), (0, .updated 0 1)] ∧
      afterFailedUse.1.shared.monitor.owner = some 0 ∧
      made afterFailedUse.2 = givenUp afterFailedUse.2 + 2 :=
  have hlent := (leases_exclude afterFailedUse_observed).lent { holder := 0, handles := 2 } rfl
  ⟨rfl, rfl, rfl, hlent.owner, hlent.handles⟩

end Guarded

end Offload
