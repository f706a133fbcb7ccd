import Offload.Proofs.Demo.Going
import Offload.Proofs.Leads
import Offload.Proofs.Pipeline.Prompt

/-!
# How the main thread is woken

While the main thread sleeps on the channel of signals nobody else does, and the channel loses no
wake-up. So when a result is there that the main thread has not received, or a signal that it has
not taken, the worker is on its way to notify it: it has published the result and goes on to call
the hook, or it is in the hook. From there nothing can hold it up.

## Main definitions

* `Brings`: the places of a worker that brings a signal, and how many steps it has to go.
* `Unheard`: whether the main thread sleeps while the worker brings a signal.

## Main results

* `wakeful_of_reach`: the channel of signals loses no wake-up.
* `unheard_of_asleep`: when a result or a signal waits for a sleeping main thread, the worker brings
  a signal.
* `Unheard.woken`: the worker can always make a step then, and after eight at most it has notified
  the main thread.
-/

namespace Offload.Demo

open Pipeline (reached workerThread)

variable {count owes : Nat} {settings : Settings} {s s' : Running} {x : Point}

/-! ### The channel of signals -/

/-- **No wake-up is lost** on the channel of signals. -/
theorem wakeful_of_reach (h : (machine count settings).Reach (start count) s)
    (hlive : s.aborted = false) :
    Channel.locks.Held (readyOf s) ∧ Channel.Wakeful 2 (readyOf s) := by
  induction h with
  | start =>
      rw [readyOf_start]
      exact ⟨Locks.held_of_nobody (fun _ => rfl) [], Channel.wakeful_empty 2⟩
  | step t choice hreach hstep ih =>
      have hbefore := (Machine.stepped_of_step hstep).1
      obtain ⟨hheld, hwakeful⟩ := ih hbefore
      obtain ⟨hlaid, hscene⟩ := ready_of_reach hreach
      have htwo : t < 2 := by rcases thread_of_step hreach hstep with rfl | rfl <;> decide
      rcases ((onReady_fits count settings).step_scene hlaid hstep).2 hlive with hsame | hseen
      · rw [readyOf, hsame]
        exact ⟨hheld, hwakeful⟩
      · exact ⟨Locks.held_of_step (Channel.locks_fits none _) (fun _ _ _ => trivial) hseen hheld,
          Channel.wakeful_of_step htwo hheld (Channel.isSound_of_reach (hscene hbefore)) hseen
            hwakeful⟩

/-- A thread's active call on the channel of signals is its topmost layer. -/
theorem stack_of_active {t : Tid} {call : Channel.Call Unit}
    (h : ((readyOf s).calls t).active = some call) :
    ∃ rest, s.stack t = .call (.ready call) :: rest := by
  obtain ⟨call', hactive, hpick⟩ := Option.bind_eq_some_iff.mp h
  obtain rfl := ((onReady_fits 0 .default).pick_iff call' call).mp hpick
  exact exists_of_active hactive

/-- The main thread makes no call on the channel of signals but its wait for one. -/
theorem MainAt.of_ready {call : Channel.Call Unit} {below : Layers}
    (h : MainAt count x (.call (.ready call) :: below)) :
    ∃ p rest, call = .pop p ∧ below = [.wait rest] ∧ x.kept < count ∧
      x = .on count x.kept false p.held.isNone := by
  cases h with
  | popping kept p rest hkept _ _ => exact ⟨p, rest, rfl, rfl, hkept, rfl⟩

/-- The worker makes no call on the channel of signals but the push of its hook. -/
theorem WorkerAt.of_ready {call : Channel.Call Unit} {below : Layers}
    (h : WorkerAt owes (.call (.ready call) :: below)) :
    ∃ p rest, call = .push p ∧ below = [.wait rest, hooked] ∧ p.IsPlain ∧
      owes = p.ahead.toList.length := by
  cases h with
  | pushing p rest hplain _ _ => exact ⟨p, rest, rfl, rfl, hplain, rfl⟩

/-- Only the main thread sleeps there, in its wait for a signal. -/
theorem eq_of_asleep {t : Tid} (hgoing : Going count x owes s)
    (hwakeful : Channel.Wakeful 2 (readyOf s)) (ht : t ∈ s.shared.ready.sleepers) :
    t = mainThread ∧ ∃ wait rest,
      s.stack mainThread = [.call (.ready (.pop ⟨wait, .asleep⟩)), .wait rest] := by
  obtain ⟨htwo, wait, -, hactive⟩ := hwakeful.sleepers t ht
  obtain ⟨below, hstack⟩ := stack_of_active hactive
  rcases t with _ | _ | t
  · have hat := hgoing.worker
    rw [show s.stack workerThread = _ from hstack] at hat
    obtain ⟨p, rest, hcall, -⟩ := hat.of_ready
    cases hcall
  · have hat := hgoing.main
    rw [show s.stack mainThread = _ from hstack] at hat
    obtain ⟨p, rest, hcall, rfl, -⟩ := hat.of_ready
    exact ⟨rfl, wait, rest, hstack⟩
  · exact absurd htwo (Nat.not_lt.mpr (Nat.le_add_left 2 t))

/-- While the main thread sleeps there, there is no signal unless the worker is about to notify. -/
theorem owes_of_asleep (hgoing : Going count x owes s)
    (hwakeful : Channel.Wakeful 2 (readyOf s)) (hmain : mainThread ∈ s.shared.ready.sleepers)
    (hne : s.shared.ready.value ≠ []) :
    ∃ p rest, s.stack workerThread = [.call (.ready (.push p)), .wait rest, hooked] ∧
      p.IsPlain ∧ p.owes = true := by
  have hitems := hwakeful.items (List.ne_nil_of_mem hmain)
  obtain ⟨-, wait, -, hactive⟩ := hwakeful.sleepers mainThread hmain
  have hmainCredit : Channel.credited s.shared.ready.sleepers mainThread
      ((readyOf s).calls mainThread) = false := by
    have hmem : mainThread ∈ s.shared.ready.sleepers := hmain
    simp [Channel.credited, hactive, Channel.credit_pop, Channel.Pop.roused, Channel.Pop.taking,
      hmem]
  have hworkerCredit : Channel.credited s.shared.ready.sleepers workerThread
      ((readyOf s).calls workerThread) = true := by
    have hpos : 0 < s.shared.ready.value.length := List.length_pos_iff.mpr hne
    have hle : s.shared.ready.value.length ≤
        (Channel.credited s.shared.ready.sleepers workerThread
          ((readyOf s).calls workerThread)).toNat +
        (Channel.credited s.shared.ready.sleepers mainThread
          ((readyOf s).calls mainThread)).toNat := by
      rw [Channel.credits, Finset.sum_range_succ, Finset.sum_range_one] at hitems
      exact hitems
    rw [hmainCredit] at hle
    cases hcredit : Channel.credited s.shared.ready.sleepers workerThread
        ((readyOf s).calls workerThread) with
    | true => rfl
    | false =>
        rw [hcredit] at hle
        exact absurd (hpos.trans_le hle) (by decide)
  obtain ⟨call, hcall, hcredit⟩ := (Option.any_eq_true _ _).mp hworkerCredit
  obtain ⟨below, hstack⟩ := stack_of_active hcall
  have hat := hgoing.worker
  rw [hstack] at hat
  obtain ⟨p, rest, rfl, rfl, hplain, -⟩ := hat.of_ready
  rw [Channel.credit_push] at hcredit
  exact ⟨p, rest, hstack, hplain, hcredit⟩

/-! ### Where the main thread stands -/

/-- At the head of its loop and while it waits for a signal that it has not got, the main thread has
kept everything that it has received, and no fewer results than the signals that it has taken. -/
theorem Going.settled (h : Going count x owes s) (hbooks : Books s) {kept : Nat}
    (hx : x = .on count kept false true) :
    heeded s ≤ kept ∧ reached .received (pipelineOf s).history = List.range kept ∧
      s.shared.summary.value = tally kept := by
  subst hx
  exact ⟨h.held.settled rfl, (h.held.ranges hbooks).2, h.held.summary⟩

/-- What the main thread has kept when it waits for a signal that it has not got. -/
theorem Going.of_waiting (h : Going count x owes s) {p : Channel.Pop Unit} {below : Layers}
    (hstack : s.stack mainThread = .call (.ready (.pop p)) :: below) (hheld : p.held = none) :
    ∃ kept < count, x = .on count kept false true := by
  have hat := h.main
  rw [hstack] at hat
  obtain ⟨p', rest, hcall, -, hkept, hx⟩ := hat.of_ready
  cases hcall
  rw [hheld] at hx
  exact ⟨x.kept, hkept, hx⟩

/-- When a result waits then and no signal is there, the worker owes one. -/
theorem Going.owes_of_finished (h : Going count x owes s) (hbooks : Books s) {kept : Nat}
    (hx : x = .on count kept false true) (hready : s.shared.ready.value = [])
    (hfinished : s.shared.pipeline.finished.value ≠ []) : owes ≠ 0 := by
  obtain ⟨hheeded, hreceived, -⟩ := h.settled hbooks hx
  have hsignals := hbooks.signals
  have hpublished := congrArg List.length hbooks.published
  have howed := h.signals
  have hpos := List.length_pos_iff.mpr hfinished
  rw [hready] at hsignals
  rw [List.length_append, List.length_map, hreceived, List.length_range] at hpublished
  simp only [List.length_nil] at hsignals
  omega

/-! ### Bringing a signal -/

/-- The layers of a worker that has `n` steps to go until it has notified the channel of signals. -/
inductive Brings : Nat → Layers → Prop where
  | published (f : Finished Position Nat TaskError) :
      Brings 8 [.call (.pipeline (.work (.publishing (.adding f (.leaving (.ok (some ())))))))]
  | notifying : Brings 7 [.call (.pipeline (.work (.publishing .notifying)))]
  | hooking : Brings 6 [hooked]
  | signalling : Brings 5 [.code .signalling, hooked]
  | adding (phase : Phase Unit) (rest : Except Fault Answer → Position) : phase.IsPlain →
      Brings (phase.toGo + 1) [.call (.ready (.push (.adding () phase))), .wait rest, hooked]
  | waking (rest : Except Fault Answer → Position) :
      Brings 1 [.call (.ready (.push .notifying)), .wait rest, hooked]

theorem Brings.le {n : Nat} {frames : Layers} (h : Brings n frames) : n ≤ 8 := by
  cases h with
  | adding phase => exact (Nat.succ_le_succ phase.toGo_le).trans (by decide)
  | published | notifying | hooking | signalling | waking => decide

theorem Brings.pos {n : Nat} {frames : Layers} (h : Brings n frames) : 0 < n := by
  cases h with
  | adding phase => exact Nat.succ_pos _
  | published | notifying | hooking | signalling | waking => decide

/-- A worker that owes a signal brings it. -/
theorem WorkerAt.brings {frames : Layers} (h : WorkerAt owes frames) (howes : owes ≠ 0) :
    ∃ n, Brings n frames := by
  cases h with
  | working w hw =>
      cases w with
      | publishing p =>
          cases p with
          | adding f phase =>
              have hheld : phase.held.isSome = true := by
                cases hphase : phase.held with
                | none => exact absurd (by rw [owed, hphase]; rfl) howes
                | some answer => rfl
              obtain ⟨answer, hanswer⟩ := Option.isSome_iff_exists.mp hheld
              obtain rfl := Phase.held_eq_some hanswer
              exact ⟨8, .published f⟩
          | notifying => exact ⟨7, .notifying⟩
          | hooking => exact ⟨6, .hooking⟩
          | ending outcome => exact absurd rfl howes
      | popping _ | entering _ _ | starting _ _ | running _ _ | returning _ | resting | leaving
      | failing _ | dying _ => exact absurd rfl howes
  | signalling => exact ⟨5, .signalling⟩
  | pushing p rest hplain _ _ =>
      cases p with
      | adding item phase => exact ⟨_, .adding phase rest hplain⟩
      | notifying | hooking | ending _ => exact absurd rfl howes
  | computing | signalled | gone => exact absurd rfl howes

/-- So does one that has added it and has yet to notify. -/
theorem brings_of_owes {p : Channel.Push Unit} (rest : Except Fault Answer → Position)
    (hplain : p.IsPlain) (howes : p.owes = true) :
    ∃ n, Brings n [.call (.ready (.push p)), .wait rest, hooked] := by
  cases p with
  | adding item phase => exact ⟨_, .adding phase rest hplain⟩
  | notifying => exact ⟨1, .waking rest⟩
  | hooking | ending _ => cases howes

/-- Whether the main thread sleeps on the channel of signals, un-notified, while the worker has
`n` steps to go until it notifies the channel. -/
structure Unheard (count : Nat) (settings : Settings) (n : Nat) (s : Running) : Prop where
  reach : (machine count settings).Reach (start count) s
  live : s.aborted = false
  asleep : mainThread ∈ s.shared.ready.sleepers
  brings : Brings n (s.stack workerThread)

variable {n : Nat} {choice : Choice}

/-- While the main thread sleeps and the worker wants the lock of the channel, the lock is free. -/
theorem Unheard.free (h : Unheard count settings n s) {below : Layers} {call : Channel.Call Unit}
    (hstack : s.stack workerThread = .call (.ready call) :: below) (hcall : call.owns = false) :
    s.shared.ready.owner = none := by
  obtain ⟨hheld, hwakeful⟩ := wakeful_of_reach h.reach h.live
  obtain ⟨x, owes, hgoing⟩ := going_of_reach h.reach
  cases howner : s.shared.ready.owner with
  | none => rfl
  | some u =>
      obtain ⟨op, hop, howns⟩ := (Option.any_eq_true _ _).mp ((hheld.owner_iff u ()).mp howner)
      obtain ⟨below', hstack'⟩ := stack_of_active hop
      rcases u with _ | _ | u
      · cases hstack.symm.trans hstack'
        rw [show Channel.locks.owns call () = call.owns from rfl, hcall] at howns
        cases howns
      · obtain ⟨-, wait, rest, hmain⟩ := eq_of_asleep hgoing hwakeful h.asleep
        cases hmain.symm.trans hstack'
        cases howns
      · have hlength := h.reach.length_threads
        have hnil : s.stack (u + 2) = [] := by
          rw [State.stack, List.getElem?_eq_none (hlength.trans_le (Nat.le_add_left 2 u))]
          rfl
        rw [hnil] at hstack'
        cases hstack'

/-- **The worker is never held up** on its way to the notification. -/
theorem Unheard.isSome (h : Unheard count settings n s) (choice : Choice) :
    ((machine count settings).step workerThread choice s).isSome = true := by
  have hcalls : ∀ {call : Call} {below : Layers}, s.stack workerThread = .call call :: below →
      (turn settings workerThread choice s.shared call).isSome = true →
      ((machine count settings).step workerThread choice s).isSome = true :=
    fun hstack hturn => (Machine.isSome_step_call h.live hstack choice).trans hturn
  have hbrings := h.brings
  generalize hstack : s.stack workerThread = frames at hbrings
  cases hbrings with
  | published | notifying | hooking | waking => exact hcalls hstack rfl
  | signalling => simp [Machine.step, h.live, Machine.stepThread, hstack, machine, next]
  | adding phase rest hplain =>
      refine hcalls hstack ?_
      rw [turn, Option.isSome_map, Channel.turn, Option.isSome_map, Channel.Push.turn,
        Option.isSome_map, Visit.isSome_turn_plain hplain]
      cases howns : phase.owns with
      | true => rfl
      | false => rw [h.free hstack howns]; rfl

/-- Its next step takes it nearer to the notification, or is the notification. -/
theorem Unheard.of_own (h : Unheard count settings n s)
    (hstep : (machine count settings).step workerThread choice s = some s') :
    mainThread ∉ s'.shared.ready.sleepers ∨ ∃ n' < n, Unheard count settings n' s' := by
  have hreach' := h.reach.step workerThread choice hstep
  obtain ⟨x', owes', hgoing'⟩ := going_of_reach hreach'
  have hnearer : ∀ {n' : Nat}, n' < n → s'.shared.ready.sleepers = s.shared.ready.sleepers →
      Brings n' (s'.stack workerThread) → ∃ n' < n, Unheard count settings n' s' :=
    fun hlt hsame hbrings => ⟨_, hlt, hreach', hgoing'.live, hsame ▸ h.asleep, hbrings⟩
  have hbrings := h.brings
  generalize hstack : s.stack workerThread = frames at hbrings
  have hne : s.stack workerThread ≠ [] := by
    rw [hstack]
    cases hbrings <;> exact List.cons_ne_nil _ _
  cases hbrings with
  | published | notifying | hooking =>
      obtain ⟨pipeline, events, r, hturn, hshared, -, -, hstack', -⟩ :=
        pipeline_of_step hstack hstep
      cases hturn
      refine .inr (hnearer (Nat.lt_succ_self _) (by rw [hshared]) ?_)
      rw [hstack']
      constructor
  | signalling =>
      have heq := Machine.eq_of_called hstack rfl hstep
      refine .inr (hnearer (Nat.lt_succ_self _) (by rw [heq]; rfl) ?_)
      rw [heq, State.stack_withStack_self _ hne]
      exact .adding .arriving _ trivial
  | adding phase rest hplain =>
      obtain ⟨ready, events, r, hturn, hshared, -, -, hstack', -⟩ := ready_of_step hstack hstep
      obtain ⟨⟨c', marks, r'⟩, hpush, heq⟩ := Option.map_eq_some_iff.mp hturn
      cases heq
      obtain ⟨⟨c₁, progress⟩, hvisit, heq⟩ := Option.map_eq_some_iff.mp hpush
      cases heq
      have hsleepers : ∀ {c : Channel Unit}, s'.shared = { s.shared with ready := c } →
          c.sleepers = s.shared.ready.sleepers →
          s'.shared.ready.sleepers = s.shared.ready.sleepers := by
        rintro c hshared hsame
        rw [hshared]
        exact hsame
      obtain ⟨rfl, rfl, rfl⟩ | ⟨again, rfl, rfl, rfl⟩ | ⟨answer, rfl, rfl, rfl⟩ :=
        Visit.plain_cases hvisit hplain
      · refine .inr (hnearer (Nat.lt_succ_self _) (hsleepers hshared rfl) ?_)
        rw [hstack']
        exact .adding (.acting false) rest trivial
      · refine .inr (hnearer (Nat.lt_succ_self _) (hsleepers hshared rfl) ?_)
        rw [hstack']
        exact .adding (.leaving (.ok (some ()))) rest trivial
      · refine .inr (hnearer (Nat.lt_succ_self _) (hsleepers hshared rfl) ?_)
        rw [hstack']
        exact .waking rest
  | waking rest =>
      obtain ⟨ready, events, r, hturn, hshared, -, -, -, -⟩ := ready_of_step hstack hstep
      cases hturn
      -- nobody but the main thread sleeps there, so it is the one that is notified
      obtain ⟨-, hwakeful⟩ := wakeful_of_reach h.reach h.live
      obtain ⟨x, owes, hgoing⟩ := going_of_reach h.reach
      have hnodup : s.shared.ready.sleepers.Nodup := hwakeful.nodup
      obtain ⟨u, hu, herase⟩ := Monitor.exists_of_notifyOne choice.pick hnodup
        (List.ne_nil_of_mem h.asleep)
      obtain ⟨rfl, -⟩ := eq_of_asleep hgoing hwakeful hu
      refine .inl ?_
      rw [hshared, herase]
      exact fun hmem => (hnodup.mem_erase_iff.mp hmem).1 rfl

/-- Nobody else makes a step, unless the main thread leaves its sleep. -/
theorem Unheard.of_other {t : Tid} (h : Unheard count settings n s) (ht : t ≠ workerThread)
    (hstep : (machine count settings).step t choice s = some s') :
    mainThread ∉ s'.shared.ready.sleepers := by
  obtain ⟨-, hwakeful⟩ := wakeful_of_reach h.reach h.live
  obtain ⟨x, owes, hgoing⟩ := going_of_reach h.reach
  obtain rfl : t = mainThread := (thread_of_step h.reach hstep).resolve_left ht
  obtain ⟨-, wait, rest, hmain⟩ := eq_of_asleep hgoing hwakeful h.asleep
  obtain ⟨ready, events, r, hturn, hshared, -, -, -, -⟩ := ready_of_step hmain hstep
  obtain ⟨⟨c', marks, r'⟩, hpop, heq⟩ := Option.map_eq_some_iff.mp hturn
  cases heq
  obtain ⟨⟨c₁, progress⟩, hvisit, heq⟩ := Option.map_eq_some_iff.mp hpop
  cases heq
  have hnodup : s.shared.ready.sleepers.Nodup := hwakeful.nodup
  have hroused : mainThread ∉ (s.shared.ready.rouse mainThread).sleepers :=
    fun hmem => (hnodup.mem_erase_iff.mp hmem).1 rfl
  rw [hshared]
  cases Visit.turned_of_turn hvisit with
  | stirred | expired => exact hroused
  | woken hawake => exact absurd h.asleep hawake

/-- **The main thread is woken.** In every later state the worker has made fewer than eight more
steps, or the main thread has left its sleep meanwhile. -/
theorem Unheard.woken (h : Unheard count settings n s) {s₁ : Running} {steps : Nat}
    (hlater : (machine count settings).Observed (Machine.ownSteps workerThread) s 0 s₁ steps) :
    (∃ s₂, (machine count settings).Reach s s₂ ∧ (machine count settings).Reach s₂ s₁ ∧
      mainThread ∉ s₂.shared.ready.sleepers) ∨
      ∃ n', n' + steps ≤ n ∧ Unheard count settings n' s₁ :=
  Machine.Observed.nears (P := Unheard count settings)
    (fun _ _ _ _ hs hstep => hs.of_own hstep)
    (fun _ _ _ _ _ ht hs hstep => .inl (hs.of_other ht hstep)) h hlater

/-- **No work waits for a sleeping main thread.** When it sleeps un-notified while a result or a
signal is there, the worker brings a signal. -/
theorem unheard_of_asleep (hreach : (machine count settings).Reach (start count) s)
    (hasleep : mainThread ∈ s.shared.ready.sleepers)
    (hdone : s.shared.ready.value ≠ [] ∨ s.shared.pipeline.finished.value ≠ []) :
    ∃ n, Unheard count settings n s := by
  obtain ⟨x, owes, hgoing⟩ := going_of_reach hreach
  obtain ⟨-, hwakeful⟩ := wakeful_of_reach hreach hgoing.live
  by_cases hready : s.shared.ready.value = []
  · have hfinished := hdone.resolve_left (not_not_intro hready)
    obtain ⟨-, wait, rest, hmain⟩ := eq_of_asleep hgoing hwakeful hasleep
    obtain ⟨kept, -, hx⟩ := hgoing.of_waiting hmain rfl
    obtain ⟨n, hbrings⟩ := hgoing.worker.brings
      (hgoing.owes_of_finished (books_of_reach hreach hgoing.live) hx hready hfinished)
    exact ⟨n, hreach, hgoing.live, hasleep, hbrings⟩
  · obtain ⟨p, rest, hstack, hplain, howes⟩ := owes_of_asleep hgoing hwakeful hasleep hready
    obtain ⟨n, hbrings⟩ := brings_of_owes rest hplain howes
    exact ⟨n, hreach, hgoing.live, hasleep, hstack ▸ hbrings⟩

end Offload.Demo
