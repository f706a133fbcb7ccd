import Offload.Monitor.Session
import Offload.Proofs.Monitor.Stains

/-!
# Where poison comes from

The mark of poison comes from the faults of visits alone. A fault that **strikes** in the predicate
or in the critical section of a visit is carried out by the visit that it struck, which poisons the
monitor as it leaves the lock. The fault of a section through a handle, or without the lock, goes to
the code that made the call and leaves no mark, as long as no handle is given up because of it.

At most one visit carries a fault at a time, since it owns the lock. So the faults on record that
struck are those that were carried out, in the same order, and perhaps one more at the end.

## Main definitions

* `Guarded.strikes`: the observer of the faults that strike visits and are carried out.
* `Guarded.Told`: what is on record of them, and what it says of the mark.

## Main results

* `Guarded.told_of_step`: what is on record stays true.
* `Guarded.poisoning_inert`: what the mark does to a run, and where it comes from.
-/

namespace Offload.Guarded

variable {κ ω α β ρ ε : Type}
variable {next : κ → Move κ ω (Call α β) (Answer β) ρ ε} {value : α} {world : ω} {codes : List κ}
  {s s' : State κ ω (Guarded α) (Call α β) (Answer β) ε} {t u : Tid} {choice : Choice}
  {fault : Fault}

/-! ### Faults of visits -/

/-- The faults that have struck visits, and those that visits have left with, first ones first. -/
structure Strikes where
  struck : List (Tid × Fault) := []
  left : List (Tid × Fault) := []

/-- The observer of the faults that strike visits and are carried out. -/
def strikes : Machine.Observer κ ω (Guarded α) (Call α β) (Answer β) ε Strikes := fun t s _ x =>
  { struck := x.struck ++
      (((current s t).bind (Call.struck? s.shared.monitor.value)).map (Prod.mk t)).toList
    left := x.left ++ (((current s t).bind Call.carried?).map (Prod.mk t)).toList }

/-- The fault with which a thread is about to leave its visit. -/
def carried? (s : State κ ω (Guarded α) (Call α β) (Answer β) ε) (t : Tid) : Option Fault :=
  (current s t).bind Call.carried?

theorem carried?_eq_some_iff : carried? s t = some fault ↔
    ∃ v, current s t = some (.visit v (.leaving (.error fault))) := by
  rw [carried?]
  constructor
  · intro h
    obtain ⟨call, hcall, hcarried⟩ := Option.bind_eq_some_iff.mp h
    cases call with
    | visit v phase =>
        obtain rfl := Phase.carried?_eq_some.mp hcarried
        exact ⟨v, hcall⟩
    | _ => cases hcarried
  · rintro ⟨v, hcall⟩
    rw [hcall]
    rfl

/-- What is on record of the faults of visits. The monitor is poisoned exactly if a visit has left
with a fault, and a fault that has struck has been carried out or is being carried out. -/
structure Told (s : State κ ω (Guarded α) (Call α β) (Answer β) ε) (x : Strikes) : Prop where
  poisoned_iff : s.shared.monitor.poisoned = true ↔ x.left ≠ []
  struck_eq : ∃ last : Option (Tid × Fault), x.struck = x.left ++ last.toList ∧
    ∀ u fault, carried? s u = some fault ↔ last = some (u, fault)

/-- No code gives up a handle because of a fault. -/
def Caught (s : State κ ω (Guarded α) (Call α β) (Answer β) ε) : Prop :=
  ∀ t call, .call call ∈ s.stack t → call ≠ .unshare true

theorem caught_of_step
    (hcaught : ∀ position request k, next position = .call request k → request ≠ .unshare true)
    (hs : Caught s) (hstep : (machine next).step t choice s = some s') : Caught s' := by
  refine calls_of_step (Q := fun call => call ≠ .unshare true) hs ?_ ?_ hstep
  · intro position request k hnext heq
    refine hcaught position request k hnext ?_
    cases request with
    | visit _ _ => cases heq
    | _ => exact heq
  · intro call rest g' call' hstack hturn _ heq
    obtain ⟨v, phase, phase', monitor, -, rfl, -⟩ := visit_of_stay hturn rfl
    cases heq

theorem caught_of_reach
    (hcaught : ∀ position request k, next position = .call request k → request ≠ .unshare true)
    {g : Guarded α} (h : (machine next).Reach (.ofCodes g world codes) s) : Caught s := by
  induction h with
  | start =>
      intro t call hmem
      rcases State.stack_ofCodes rfl t with hnil | ⟨code, hcode⟩
      · rw [hnil] at hmem
        cases hmem
      · rw [hcode] at hmem
        cases List.mem_singleton.mp hmem
  | step t choice _ hstep ih => exact caught_of_step hcaught ih hstep

/-- Then a step poisons the monitor exactly if a visit leaves with a fault. -/
theorem Caught.poisonsAt_eq (hs : Caught s) (t : Tid) :
    poisonsAt s t = (carried? s t).isSome := by
  rw [poisonsAt, carried?]
  cases hcall : current s t with
  | none => rfl
  | some call =>
      obtain ⟨rest, hstack⟩ := exists_stack_of_current hcall
      have hne := hs t call (hstack ▸ List.mem_cons_self)
      cases call with
      | unshare faulted =>
          cases faulted with
          | true => exact absurd rfl hne
          | false => rfl
      | _ => rfl

/-! ### One step -/

/-- A visit that is struck by a fault, or carries one, owns the lock. -/
theorem owner_of_fault (h : (machine next).Reach (.ofCodes (new value) world codes) s)
    (hfault : (current s t).bind (Call.struck? s.shared.monitor.value) = some fault ∨
      carried? s t = some fault) : s.shared.monitor.owner = some t := by
  obtain ⟨howns, -⟩ := guarded_of_reach h
  rcases hfault with hstruck | hcarried
  · obtain ⟨call, hcall, hstruck⟩ := Option.bind_eq_some_iff.mp hstruck
    cases call with
    | visit v phase =>
        refine (howns t v phase hcall ?_).1
        cases phase with
        | testing _ | acting _ => rfl
        | arriving | drowsy | asleep | overslept | leaving _ => cases hstruck
    | _ => cases hstruck
  · obtain ⟨v, hcall⟩ := carried?_eq_some_iff.mp hcarried
    exact (howns t v _ hcall rfl).1

/-- While a visit is struck by a fault, no other visit carries one: both would own the lock. -/
theorem eq_of_struck (h : (machine next).Reach (.ofCodes (new value) world codes) s)
    (hstruck : (current s t).bind (Call.struck? s.shared.monitor.value) = some fault)
    {fault' : Fault} (hcarried : carried? s u = some fault') : u = t := by
  have howner := owner_of_fault h (.inr hcarried)
  rw [owner_of_fault h (.inl hstruck)] at howner
  exact (Option.some.inj howner).symm

/-- What a visit carries after a step is the fault that struck it in this step. -/
theorem carried_of_visit {v : Visit α β} {m m' : Monitor α} {phase phase' : Phase β}
    (h : v.turn t choice m phase = some (m', .on phase')) :
    phase'.carried? = (Call.visit v phase).struck? m.value := by
  generalize hprogress : Progress.on phase' = progress at h
  cases Visit.turned_of_turn h with
  | arrived _ =>
      cases hprogress
      split <;> rfl
  | @tested q again hq =>
      cases hprogress
      simp only [Call.struck?, hq, Option.bind_some]
      cases q m.value with
      | error fault => rfl
      | ok b =>
          cases b with
          | true => rfl
          | false =>
              rw [Visit.afterTest]
              split <;> rfl
  | untested again hnone =>
      cases hprogress
      simp [Phase.carried?, Call.struck?, hnone]
  | acted again =>
      cases hprogress
      simp only [Phase.carried?, Call.struck?]
      cases (v.body m.value).2 <;> rfl
  | slept | stirred _ | expired _ _ =>
      cases hprogress
      rfl
  | woken _ _ | wokenLate _ =>
      cases hprogress
      split <;> rfl
  | left _ | leftFaulted _ => cases hprogress

/-- A visit ends unstruck. -/
theorem struck?_of_ended {v : Visit α β} {m m' : Monitor α} {phase : Phase β}
    {outcome : Except Fault (Option β)}
    (h : v.turn t choice m phase = some (m', .ended outcome)) :
    (Call.visit v phase).struck? m.value = none := by
  rw [Visit.leaving_of_ended h]
  rfl

/-- **One fault at a time.** What a thread carries after its step is the fault that struck it in
this step. -/
theorem carried_of_step (h : (machine next).Reach (.ofCodes (new value) world codes) s)
    (hstep : (machine next).step t choice s = some s') :
    carried? s' t = (current s t).bind (Call.struck? s.shared.monitor.value) := by
  obtain ⟨hmoved, -⟩ := moved_of_step h hstep
  cases hmoved with
  | coded hcode _ hfresh =>
      rw [hcode, carried?]
      cases hcall : current s' t with
      | none => rfl
      | some call =>
          obtain ⟨request, rfl⟩ := hfresh call hcall
          cases request <;> rfl
  | @turned call rest r hstack hturn _ hgoes =>
      rw [current_of_stack hstack, Option.bind_some, carried?]
      by_cases hvisit : ∃ v phase, call = .visit v phase
      · obtain ⟨v, phase, rfl⟩ := hvisit
        obtain ⟨⟨monitor, progress⟩, hvisit, heq⟩ := Option.map_eq_some_iff.mp hturn
        cases progress with
        | on phase' =>
            obtain ⟨-, rfl⟩ := Prod.mk.inj heq
            rw [(hgoes _).mpr rfl]
            exact carried_of_visit hvisit
        | ended outcome =>
            obtain ⟨-, rfl⟩ := Prod.mk.inj heq
            rw [struck?_of_ended hvisit]
            cases hcall : current s' t with
            | none => rfl
            | some call' =>
                have hstay := (hgoes call').mp hcall
                rcases outcome with _ | _ | _ <;> cases hstay
      · have hno : ∀ v phase, call ≠ .visit v phase := fun v phase heq => hvisit ⟨v, phase, heq⟩
        have hnone : current s' t = none := by
          refine Option.eq_none_iff_forall_ne_some.mpr fun call' hcall => ?_
          obtain ⟨v, phase, -, -, heq, -⟩ := visit_of_stay hturn ((hgoes call').mp hcall)
          exact hno v phase heq
        rw [hnone]
        cases call with
        | visit v phase => exact absurd rfl (hno v phase)
        | _ => rfl

/-- A visit that carries a fault is not struck by another one. -/
theorem struck?_of_carried (h : carried? s t = some fault) :
    (current s t).bind (Call.struck? s.shared.monitor.value) = none := by
  obtain ⟨v, hcall⟩ := carried?_eq_some_iff.mp h
  rw [hcall]
  rfl

/-- **What is on record stays true.** -/
theorem told_of_step {x : Strikes} (h : (machine next).Reach (.ofCodes (new value) world codes) s)
    (hcaught : Caught s) (hs : Told s x) (hstep : (machine next).step t choice s = some s') :
    Told s' (strikes t s s' x) := by
  obtain ⟨last, hstruck, hlast⟩ := hs.struck_eq
  have hothers : ∀ u, u ≠ t → carried? s' u = carried? s u := fun u hu => by
    rw [carried?, (moved_of_step h hstep).2 u hu, carried?]
  have hown := carried_of_step h hstep
  have hpoisoned := poisoned_of_step hstep
  rw [hcaught.poisonsAt_eq] at hpoisoned
  have hleft : (strikes t s s' x).left = x.left ++ ((carried? s t).map (Prod.mk t)).toList := rfl
  have hmore : (strikes t s s' x).struck = x.struck ++
      (((current s t).bind (Call.struck? s.shared.monitor.value)).map (Prod.mk t)).toList := rfl
  cases hcarried : carried? s t with
  | some fault =>
      -- the fault that is carried is the last that has struck, and it is carried out
      obtain rfl : last = some (t, fault) := (hlast t fault).mp hcarried
      have hnot := struck?_of_carried hcarried
      rw [hcarried] at hleft hpoisoned
      refine ⟨?_, none, ?_, fun u fault' => iff_of_false (fun hu => ?_) nofun⟩
      · simp [hleft, hpoisoned]
      · rw [hmore, hleft, hnot, hstruck]
        rfl
      · by_cases hut : u = t
        · subst hut
          rw [hown, hnot] at hu
          cases hu
        · rw [hothers u hut] at hu
          cases (hlast u fault').mp hu
          exact hut rfl
  | none =>
      rw [hcarried, Option.map_none, Option.toList_none, List.append_nil] at hleft
      rw [hcarried, Option.isSome_none, Bool.or_false] at hpoisoned
      refine ⟨by rw [hpoisoned, hs.poisoned_iff, hleft], ?_⟩
      cases hnew : (current s t).bind (Call.struck? s.shared.monitor.value) with
      | none =>
          refine ⟨last, ?_, fun u fault' => ?_⟩
          · rw [hmore, hnew, hstruck, hleft, Option.map_none, Option.toList_none, List.append_nil]
          · by_cases hut : u = t
            · subst hut
              rw [hown, hnew, ← hlast, hcarried]
            · rw [hothers u hut, hlast]
      | some fault =>
          have hfree : last = none := by
            refine Option.eq_none_iff_forall_ne_some.mpr fun entry hentry => ?_
            have hu := (hlast entry.1 entry.2).mpr hentry
            rw [eq_of_struck h hnew hu, hcarried] at hu
            cases hu
          subst hfree
          refine ⟨some (t, fault), ?_, fun u fault' => ?_⟩
          · rw [hmore, hnew, hstruck, hleft, Option.toList_none, List.append_nil]
            rfl
          · by_cases hut : u = t
            · subst hut
              rw [hown, hnew]
              simp
            · rw [hothers u hut, hlast]
              simp [Ne.symm hut]

/-! ### The mark -/

/-- A visit that carries a fault leaves in its thread's next step, whatever the choice is: the
monitor is poisoned, and the fault goes to the code that made the visit. -/
theorem exists_step_of_carried (h : (machine next).Reach (.ofCodes (new value) world codes) s)
    {v : Visit α β} {rest : Stack κ (Call α β) (Answer β)}
    (hstack : s.stack t = .call (.visit v (.leaving (.error fault))) :: rest) (choice : Choice) :
    ∃ s', (machine next).step t choice s = some s' ∧ s'.shared.monitor.poisoned = true ∧
      s'.stack t = Machine.finishCall (.error fault) rest := by
  have hne : s.stack t ≠ [] := by simp [hstack]
  refine ⟨_, Machine.step_eq (live_of_reach h) hstack, rfl, ?_⟩
  exact State.stack_withStack_self (Machine.finishCall (.error fault) rest) hne

/-- **Never cleared.** -/
theorem poisoned_of_reach (h : (machine next).Reach s s')
    (hs : s.shared.monitor.poisoned = true) : s'.shared.monitor.poisoned = true := by
  induction h with
  | start => exact hs
  | step t choice _ hstep ih =>
      rw [poisoned_of_step hstep, ih]
      rfl

/-- What the text of a session shows that has the given data and mark. -/
def shown (data : Text.Outline) (p : Bool) : Text.Outline :=
  .record "GuardedState"
    [("data", .record "Mutex" [("data", data), ("poisoned", .bool p)] true)] true

/-- The same session, poisoned or not. -/
def Session.stained {ι : Type} (session : Session ι) (p : Bool) : Session ι :=
  { session with bench := { session.bench with state := session.bench.state.stained p } }

/-- **Poisoning is inert.**

* Two runs by one schedule, from states that differ in the mark only, stay the same but for the
  mark, and each can step in its last state as the other can, as long as no visit that tests its
  predicate finds it false; and the text of a session shows the difference in one place.
* In every run whose code does not give up handles because of faults, the monitor is poisoned
  exactly if a visit has left with a fault. The faults with which visits have left are those that
  struck in their predicates and sections, but for one that a visit may be about to leave with,
  which it does in its next step. No other call poisons the monitor, and no call clears the mark.
  What a section wrote before its fault is the value after it. -/
theorem poisoning_inert
    (hcaught : ∀ position request k, next position = .call request k → request ≠ .unshare true) :
    (∀ (s₀ s : State κ ω (Guarded α) (Call α β) (Answer β) ε) (order : List (Tid × Choice)),
      Awake s₀ → (machine next).Runs Content s₀ order s → ∃ q,
        s.shared.monitor.poisoned = (s₀.shared.monitor.poisoned || q) ∧ ∀ p,
          (machine next).Runs Content (s₀.stained p) order (s.stained (p || q)) ∧
          ∀ t choice, ∃ q', (machine next).step t choice (s.stained (p || q)) =
            ((machine next).step t choice s).map (·.stained (p || q'))) ∧
    (∀ (ι : Type) (session : Session ι) (p : Bool), ∃ data,
      session.outline = shown data session.monitor.poisoned ∧
        (session.stained p).outline = shown data p) ∧
    ∀ (value : α) (world : ω) (codes : List κ)
      (s : State κ ω (Guarded α) (Call α β) (Answer β) ε) (x : Strikes),
      (machine next).Observed strikes (.ofCodes (new value) world codes) {} s x →
        Told s x ∧
        (∀ t v fault rest choice, s.stack t = .call (.visit v (.leaving (.error fault))) :: rest →
          ∃ s', (machine next).step t choice s = some s' ∧ s'.shared.monitor.poisoned = true ∧
            s'.stack t = Machine.finishCall (.error fault) rest) ∧
        (∀ t choice s', (machine next).step t choice s = some s' →
          (s'.shared.monitor.poisoned = true ↔ s.shared.monitor.poisoned = true ∨
            ∃ v fault, current s t = some (.visit v (.leaving (.error fault)))) ∧
          s'.shared.monitor.value = ((current s t).bind Call.section?).elim s.shared.monitor.value
            fun body => (body s.shared.monitor.value).1) ∧
        ∀ s', (machine next).Reach s s' → s.shared.monitor.poisoned = true →
          s'.shared.monitor.poisoned = true := by
  refine ⟨fun s₀ s order hs₀ hrun => ?_, fun ι session p => ⟨_, rfl, rfl⟩,
    fun value world codes s x hx => ⟨?_, ?_, ?_, ?_⟩⟩
  · obtain ⟨hawake, q, hpoisoned, hruns⟩ := runs_stained hs₀ hrun
    refine ⟨q, hpoisoned, fun p => ⟨hruns p, fun t choice => ⟨q || poisonsAt s t, ?_⟩⟩⟩
    rw [step_stained hawake, Bool.or_assoc]
  · refine hx.invariant (P := Told) ⟨by simp [State.ofCodes, new], none, rfl, fun u fault => ?_⟩
      fun t choice s s' x hreach hs hstep => told_of_step hreach (caught_of_reach hcaught hreach) hs
        hstep
    refine iff_of_false (fun hcarried => ?_) (by rintro ⟨⟩)
    obtain ⟨v, hcall⟩ := carried?_eq_some_iff.mp hcarried
    obtain ⟨rest, hstack⟩ := exists_stack_of_current hcall
    rcases State.stack_ofCodes rfl u with hnil | ⟨code, hcode⟩
    · cases hnil.symm.trans hstack
    · cases hcode.symm.trans hstack
  · exact fun t v fault rest choice hstack => exists_step_of_carried hx.reach hstack choice
  · intro t choice s' hstep
    refine ⟨?_, value_of_step hstep⟩
    rw [poisoned_of_step hstep, (caught_of_reach hcaught hx.reach).poisonsAt_eq, Bool.or_eq_true,
      Option.isSome_iff_exists]
    simp only [carried?_eq_some_iff]
    rw [exists_comm]
  · exact fun s' hlater => poisoned_of_reach hlater

/-! A thread whose visit fails after it has written, that then waits for a predicate which holds,
and fails in the use of a handle and in a section without the lock. -/

/-- The code of the thread, by its positions. -/
def failAndGoOn : Nat → Move Nat Unit (Call Nat Nat) (Answer Nat) Unit Unit
  | 0 => .call (.visiting (Visit.plain fun n => (n + 1, .error .other))) fun _ => 1
  | 1 => .call (.visiting { await := some fun n => .ok (n == 1), body := fun n => (n + 1, .ok n) })
    fun _ => 2
  | 2 => .call .lease fun _ => 3
  | 3 => .call .enter fun _ => 4
  | 4 => .call (.update fun n => (n + 1, .error .other)) fun _ => 5
  | 5 => .call .exit fun _ => 6
  | 6 => .call (.unshare false) fun _ => 7
  | 7 => .call (.exclusive fun n => (n + 1, .error .other)) fun _ => 8
  | _ => .ret ()

theorem failAndGoOn_caught (position : Nat) (request : Call Nat Nat)
    (k : Except Fault (Answer Nat) → Nat) (h : failAndGoOn position = .call request k) :
    request ≠ .unshare true := by
  match position with
  | 0 | 1 | 2 | 3 | 4 | 5 | 6 | 7 =>
      cases h
      nofun
  | _ + 8 => cases h

/-- The state in which the thread begins. -/
def failing : State Nat Unit (Guarded Nat) (Call Nat Nat) (Answer Nat) Unit :=
  .ofCodes (new 0) () [0]

/-- The state after so many steps. -/
def failed (steps : Nat) : State Nat Unit (Guarded Nat) (Call Nat Nat) (Answer Nat) Unit :=
  (machine failAndGoOn).settle [(0, .go 0)] steps failing

/-- The state at the end, with the record of the faults of visits. -/
def failedAndSeen : State Nat Unit (Guarded Nat) (Call Nat Nat) (Answer Nat) Unit × Strikes :=
  (machine failAndGoOn).follow strikes (List.replicate 21 (0, .go 0)) (failing, {})

theorem poisoning_inert_failed :
    (failed 21).shared.monitor.poisoned = true ∧ (failed 21).shared.monitor.value = 4 ∧
      (∀ p, (machine failAndGoOn).Runs Content (failing.stained p) (List.replicate 21 (0, .go 0))
        ((failed 21).stained (p || true))) ∧
      failedAndSeen.2.left = [(0, .other)] ∧ Told failedAndSeen.1 failedAndSeen.2 := by
  have hrun : (machine failAndGoOn).Runs Content failing ([] ++ List.replicate 21 (0, .go 0))
      (failed 21) := Machine.runs_settle .start (by decide) (by decide)
  obtain ⟨htwins, -, hruns⟩ := poisoning_inert failAndGoOn_caught
  obtain ⟨q, hq, htwin⟩ := htwins failing (failed 21) _ (awake_ofCodes (new 0) () [0]) hrun
  obtain rfl : q = true := hq.symm
  exact ⟨rfl, rfl, fun p => (htwin p).1, rfl,
    (hruns 0 () [0] _ _ (Machine.observed_follow _ _ _ .start)).1⟩

end Offload.Guarded
