import Offload.Proofs.Demo.Books
import Offload.Proofs.Demo.Emptying
import Offload.Proofs.Demo.Stopping

/-!
# The main thread of the demonstration

The main thread is in one of a few places, and each place says what it has received: it schedules
its tasks, then looks, waits for a signal and drains until all results have been kept, and then
shuts the pipeline down. It never comes to a fault.

## Main definitions

* `MainAt`: the places of the main thread, each with its point.

## Main results

* `main_of_step`: the main thread, one step.
-/

namespace Offload.Demo

open Pipeline (reached workerThread)

variable {count kept : Nat} {settings : Settings} {choice : Choice}

/-- Whether code goes on like this when a call that it has made at a position has ended. -/
def Awaits (count : Nat) (position : Position) (rest : Except Fault Answer → Position) : Prop :=
  ∃ call, next count position = .call call rest

/-- The layers of a drain that waits for a callback. -/
def under (left : Nat) (rest : Except Fault Answer → Position) : Layers :=
  [.call (.pipeline (.inside (.draining (.going left)))), .wait rest]

/-- Whether the layers are those of the main thread, in a place at which it stands at a point. -/
inductive MainAt (count : Nat) : Point → Layers → Prop where
  | scheduling (i : Nat) : i < count →
      MainAt count { given := i, accepted := i } [.code (.scheduling i)]
  | asking (i : Nat) (x : Point) (call : Using) (rest : Except Fault Answer → Position) :
      i < count → Awaits count (.scheduling i) rest → Scheduling i x call →
      MainAt count x [.call (.pipeline call), .wait rest]
  | looking (kept : Nat) : MainAt count (.on count kept false true) [.code .looking]
  | reading (kept : Nat) (phase : Phase Nat) (rest : Except Fault Answer → Position) :
      Awaits count .looking rest → phase.IsPlain → (∀ n, phase.held = some n → n = kept) →
      MainAt count (.on count kept false true) [.call (.summary readDelivered phase), .wait rest]
  | waiting (kept : Nat) : kept < count →
      MainAt count (.on count kept false true) [.code .waiting]
  | popping (kept : Nat) (p : Channel.Pop Unit) (rest : Except Fault Answer → Position) :
      kept < count → Awaits count .waiting rest → (Channel.Call.pop p).IsSound →
      MainAt count (.on count kept false p.held.isNone) [.call (.ready (.pop p)), .wait rest]
  | draining (kept : Nat) : MainAt count (.on count kept false false) [.code .draining]
  | emptying (kept : Nat) (x : Point) (call : Using) (rest : Except Fault Answer → Position) :
      Awaits count .draining rest → Emptying count kept x call →
      MainAt count x [.call (.pipeline call), .wait rest]
  | delivering (kept left : Nat) (rest : Except Fault Answer → Position) :
      Awaits count .draining rest →
      MainAt count (.on count kept true false) (.code (keeping kept) :: under left rest)
  | storing (kept left : Nat) (phase : Phase Nat) (rest rest' : Except Fault Answer → Position) :
      Awaits count .draining rest → (∀ answer, rest' (.ok answer) = .ended) → phase.IsPlain →
      MainAt count (.on count (kept + phase.held.isSome.toNat) phase.held.isNone false)
        (.call (.summary (keep kept) phase) :: .wait rest' :: under left rest)
  | stored (kept left : Nat) (rest : Except Fault Answer → Position) :
      Awaits count .draining rest →
      MainAt count (.on count kept false false) (.code .ended :: under left rest)
  | stopping (kept : Nat) : count ≤ kept →
      MainAt count (.on count kept false true) [.code .stopping]
  | tearing (kept : Nat) (shut : Bool) (call : Using) (rest : Except Fault Answer → Position) :
      count ≤ kept → Awaits count .stopping rest → Stopping shut call →
      MainAt count { Point.on count kept false true with shut := shut }
        [.call (.pipeline call), .wait rest]
  | finishing (kept : Nat) : count ≤ kept →
      MainAt count { Point.on count kept false true with shut := true } [.code (.finishing .done)]
  | ended (kept : Nat) : count ≤ kept →
      MainAt count { Point.on count kept false true with shut := true } [.code .ended]
  | gone (kept : Nat) : count ≤ kept →
      MainAt count { Point.on count kept false true with shut := true } []

/-- What a step of the main thread from a point leads to: a point at which no fewer results have
been kept. -/
def Advances (count : Nat) (x : Point) (s s' : Running) : Prop :=
  ∃ x', x.kept ≤ x'.kept ∧ MainAt count x' (s'.stack mainThread) ∧ Held x' s' ∧ Led s s'

section Steps

variable {s s' : Running} {x : Point} {rest : Except Fault Answer → Position}

/-- Code of the main thread that makes a call or ends. -/
theorem advances_of_code {frames : Layers} (hx : Held x s) (hs : Proper s.shared.pipeline)
    (hlive : s.aborted = false) (hne : s.stack mainThread ≠ [])
    (heq : s' = s.withStack mainThread frames) (hat : MainAt count x frames) :
    Advances count x s s' := by
  obtain ⟨hidle, hsummary⟩ := Idle.of_withStack hlive heq
  refine ⟨x, Nat.le_refl _, ?_, hx.of_idle hidle (by rw [hsummary]) hs⟩
  rw [heq, State.stack_withStack_self _ hne]
  exact hat

/-- A step of a call of the main thread on the pipeline, given what it changes. -/
theorem advances_of_pipeline {call : Using} {below : Layers} (hx : Held x s)
    (hs : Proper s.shared.pipeline) (hbooks : s'.aborted = false → Books s')
    (howed : signals s ≤ (reached .published (pipelineOf s).history).length)
    (hstack : s.stack mainThread = .call (.pipeline call) :: below)
    (h : (machine count settings).step mainThread choice s = some s')
    (hturn : ∀ {pipeline events r}, Pipeline.turn (plan settings) mainThread choice
        s.shared.pipeline call = some (pipeline, events, r) →
      r ≠ .abort ∧ ∃ x', Change x x' s.shared.pipeline pipeline events ∧
        MainAt count x' (Machine.afterTurn below
          (r.within Call.pipeline (fun a => .ret (.pipeline a)) .fail))) :
    Advances count x s s' := by
  obtain ⟨pipeline, events, r, hcall, hshared, htold, hready, hstack', hlive⟩ :=
    pipeline_of_step hstack h
  obtain ⟨hr, x', hchange, hat⟩ := hturn hcall
  rw [← hstack'] at hat
  exact ⟨x', hchange.kept.ge, hat,
    hx.of_change hchange hshared htold hready (hlive hr) howed (hbooks (hlive hr)) hs⟩

/-- A step in which the main thread schedules a task. -/
theorem advances_of_asking {i : Nat} {call : Using} (hi : i < count)
    (hrest : Awaits count (.scheduling i) rest) (hcall : Scheduling i x call) (hx : Held x s)
    (hs : Proper s.shared.pipeline) (hbooks : s'.aborted = false → Books s')
    (howed : signals s ≤ (reached .published (pipelineOf s).history).length)
    (hstack : s.stack mainThread = [.call (.pipeline call), .wait rest])
    (h : (machine count settings).step mainThread choice s = some s') : Advances count x s s' := by
  have hshut : x.shut = false := by cases hcall <;> rfl
  obtain ⟨howned, hopen⟩ := hx.owned hshut
  refine advances_of_pipeline hx hs hbooks howed hstack h fun hturn => ?_
  obtain ⟨x', hchange, ⟨call', rfl, hcall'⟩ | ⟨rfl, rfl⟩⟩ :=
    scheduling_of_turn hcall howned hopen hx.given hturn
  · exact ⟨nofun, x', hchange, .asking i x' call' rest hi hrest hcall'⟩
  · refine ⟨nofun, _, hchange, ?_⟩
    obtain ⟨_, heq⟩ := hrest
    cases heq
    rw [show Machine.afterTurn _ _ = [.code (afterScheduling count (i + 1))] from rfl,
      afterScheduling]
    split
    · next hlt => exact .scheduling (i + 1) hlt
    · next hge =>
      obtain rfl : count = i + 1 := by omega
      exact .looking 0

/-- A step in which the main thread looks how many results have been kept. -/
theorem advances_of_reading {phase : Phase Nat} (hrest : Awaits count .looking rest)
    (hplain : phase.IsPlain) (hheld : ∀ n, phase.held = some n → n = kept)
    (hx : Held (.on count kept false true) s) (hs : Proper s.shared.pipeline)
    (hstack : s.stack mainThread = [.call (.summary readDelivered phase), .wait rest])
    (h : (machine count settings).step mainThread choice s = some s') :
    Advances count (.on count kept false true) s s' := by
  obtain ⟨progress, hvisit, hidle, hstack'⟩ := summary_of_step hstack h
  rw [Advances, hstack']
  obtain ⟨rfl, hsummary, rfl⟩ | ⟨again, rfl, hsummary, rfl⟩ | ⟨n, rfl, hsummary, rfl⟩ :=
    Visit.plain_cases hvisit hplain
  · exact ⟨_, Nat.le_refl kept, .reading kept (.acting false) rest hrest trivial nofun,
      hx.of_idle hidle (by rw [hsummary]) hs⟩
  · refine ⟨_, Nat.le_refl kept,
      .reading kept (.leaving (.ok (some s.shared.summary.value.delivered))) rest hrest trivial ?_,
      hx.of_idle hidle (by rw [hsummary]) hs⟩
    rintro n ⟨⟩
    rw [hx.summary]
    exact delivered_tally kept
  · obtain rfl := hheld n rfl
    refine ⟨_, Nat.le_refl n, ?_, hx.of_idle hidle (by rw [hsummary]; rfl) hs⟩
    obtain ⟨_, heq⟩ := hrest
    cases heq
    rw [show Machine.afterTurn _ _ = [.code (if n < count then .waiting else .stopping)] from rfl]
    split
    · next hlt => exact .waiting n hlt
    · next hge => exact .stopping n (Nat.le_of_not_lt hge)

/-- A step in which the main thread waits for a signal. -/
theorem advances_of_popping {p : Channel.Pop Unit} (hkept : kept < count)
    (hrest : Awaits count .waiting rest) (hsound : (Channel.Call.pop p).IsSound)
    (hx : Held (.on count kept false p.held.isNone) s) (hs : Proper s.shared.pipeline)
    (hstack : s.stack mainThread = [.call (.ready (.pop p)), .wait rest])
    (h : (machine count settings).step mainThread choice s = some s') :
    Advances count (.on count kept false p.held.isNone) s s' := by
  obtain ⟨ready, events, r, hturn, hshared, hsignalled, htold, hstack', hlive⟩ :=
    ready_of_step hstack h
  obtain ⟨⟨c', marks, r'⟩, hpop, heq⟩ := Option.map_eq_some_iff.mp hturn
  cases heq
  rw [Advances, hstack']
  have hheld : ∀ settled, (settled = true → p.held.isNone = true ∧ Channel.removed marks = []) →
      r' ≠ .abort → Held (.on count kept false settled) s' ∧ Led s s' := by
    intro settled hsettled hr
    refine hx.of_signals hshared hsignalled htold ?_ ?_ ?_ hs
    · exact hlive (Pipeline.within_ne_abort hr (fun _ => nofun) fun _ => nofun)
    · rw [Channel.flatMap_marks]
      exact (Channel.Pop.items_of_turn hpop).2
    · rw [Channel.flatMap_marks]
      exact hsettled
  rcases Channel.Pop.marks_of_turn hpop with ⟨-, rfl⟩ | ⟨item, again, -, -, rfl, rfl⟩
  · have hsame := Channel.Pop.held_of_turn hpop
    rcases r' with p' | ⟨code, p'⟩ | answer | fault | _
    · rw [show p.held = p'.held from hsame] at hheld
      exact ⟨_, Nat.le_refl kept,
        .popping kept p' rest hkept hrest (Channel.Pop.isSound_of_turn hsound hpop rfl),
        hheld _ (fun hnone => ⟨hnone, rfl⟩) nofun⟩
    · exact absurd rfl ((Channel.Pop.turn_plain hpop).2 code p')
    · rw [show p.held = answer from hsame] at hheld
      obtain ⟨_, heq⟩ := hrest
      cases heq
      cases answer with
      | none => exact ⟨_, Nat.le_refl kept, .looking kept, hheld true (fun _ => ⟨rfl, rfl⟩) nofun⟩
      | some item => exact ⟨_, Nat.le_refl kept, .draining kept, hheld false nofun nofun⟩
    · exact absurd rfl (Channel.Pop.ne_fail_of_turn hsound hpop fault)
    · exact absurd rfl (Channel.Pop.turn_plain hpop).1
  · exact ⟨_, Nat.le_refl kept,
      .popping kept _ rest hkept hrest (Channel.Pop.isSound_of_turn hsound hpop rfl),
      hheld false nofun nofun⟩

/-- A step in which the main thread drains one batch. -/
theorem advances_of_emptying {call : Using} (hrest : Awaits count .draining rest)
    (hcall : Emptying count kept x call) (hx : Held x s) (hs : Proper s.shared.pipeline)
    (hbefore : Books s) (hbooks : s'.aborted = false → Books s')
    (howed : signals s ≤ (reached .published (pipelineOf s).history).length)
    (hstack : s.stack mainThread = [.call (.pipeline call), .wait rest])
    (h : (machine count settings).step mainThread choice s = some s') : Advances count x s s' := by
  have hpoint : x.shut = false ∧ x.kept = kept := by cases hcall <;> exact ⟨rfl, rfl⟩
  refine advances_of_pipeline hx hs hbooks howed hstack h fun hturn => ?_
  obtain ⟨x', hchange, hempties⟩ := emptying_of_turn hcall (hx.owned hpoint.1).1
    (fun hflight f later hvalue => by
      rw [hx.front hbefore hs hvalue, Point.received, hpoint.2, hflight]
      rfl) hturn
  cases hempties with
  | on call' hcall' => exact ⟨nofun, x', hchange, .emptying kept x' call' rest hrest hcall'⟩
  | calls left hx' =>
      subst hx'
      exact ⟨nofun, _, hchange, .delivering kept left rest hrest⟩
  | answers more hx' =>
      subst hx'
      refine ⟨nofun, _, hchange, ?_⟩
      obtain ⟨_, heq⟩ := hrest
      cases heq
      cases more
      · exact .looking kept
      · exact .draining kept

/-- A step in which a callback keeps its result. -/
theorem advances_of_storing {left : Nat} {phase : Phase Nat}
    {rest' : Except Fault Answer → Position}
    (hrest : Awaits count .draining rest) (hrest' : ∀ answer, rest' (.ok answer) = .ended)
    (hplain : phase.IsPlain)
    (hx : Held (.on count (kept + phase.held.isSome.toNat) phase.held.isNone false) s)
    (hs : Proper s.shared.pipeline)
    (hstack : s.stack mainThread =
      .call (.summary (keep kept) phase) :: .wait rest' :: under left rest)
    (h : (machine count settings).step mainThread choice s = some s') :
    Advances count (.on count (kept + phase.held.isSome.toNat) phase.held.isNone false) s s' := by
  obtain ⟨progress, hvisit, hidle, hstack'⟩ := summary_of_step hstack h
  rw [Advances, hstack']
  rw [keep_eq] at hvisit
  obtain ⟨rfl, hsummary, rfl⟩ | ⟨again, rfl, hsummary, rfl⟩ | ⟨n, rfl, hsummary, rfl⟩ :=
    Visit.plain_cases hvisit hplain
  · exact ⟨_, Nat.le_refl _, .storing kept left (.acting false) rest rest' hrest hrest' trivial,
      hx.of_idle hidle (by rw [hsummary]) hs⟩
  · have hkept : (keep kept).body s.shared.summary.value = (tally (kept + 1), .ok 0) := by
      rw [hx.summary]
      exact keep_tally kept
    rw [hkept] at hsummary ⊢
    exact ⟨.on count (kept + 1) false false, Nat.le_succ kept,
      .storing kept left (.leaving (.ok (some 0))) rest rest' hrest hrest' trivial,
      hx.of_visit hidle rfl (by rw [hsummary]) hs⟩
  · refine ⟨.on count (kept + 1) false false, Nat.le_refl (kept + 1), ?_,
      hx.of_idle hidle (by rw [hsummary]; rfl) hs⟩
    rw [show Machine.afterTurn _ _ = .code (rest' (.ok (.summary n))) :: under left rest from rfl,
      hrest']
    exact .stored (kept + 1) left rest hrest

/-- A step in which the main thread shuts the pipeline down. -/
theorem advances_of_tearing {shut : Bool} {call : Using} (hkept : count ≤ kept)
    (hrest : Awaits count .stopping rest) (hcall : Stopping shut call)
    (hx : Held { Point.on count kept false true with shut := shut } s)
    (hs : Proper s.shared.pipeline) (hbooks : s'.aborted = false → Books s')
    (howed : signals s ≤ (reached .published (pipelineOf s).history).length)
    (hstack : s.stack mainThread = [.call (.pipeline call), .wait rest])
    (h : (machine count settings).step mainThread choice s = some s') :
    Advances count { Point.on count kept false true with shut := shut } s s' := by
  refine advances_of_pipeline hx hs hbooks howed hstack h fun hturn => ?_
  obtain ⟨hchange, ⟨call', rfl, hcall'⟩ | rfl⟩ :=
    stopping_of_turn hcall (fun hshut => (hx.owned hshut).1) (by decide) hs hturn
  · exact ⟨nofun, _, hchange, .tearing kept true call' rest hkept hrest hcall'⟩
  · refine ⟨nofun, _, hchange, ?_⟩
    obtain ⟨_, heq⟩ := hrest
    cases heq
    exact .finishing kept hkept

/-- **The main thread, one step.** -/
theorem main_of_step (hat : MainAt count x (s.stack mainThread)) (hx : Held x s)
    (hs : Proper s.shared.pipeline) (hbefore : Books s) (hbooks : s'.aborted = false → Books s')
    (howed : signals s ≤ (reached .published (pipelineOf s).history).length)
    (h : (machine count settings).step mainThread choice s = some s') : Advances count x s s' := by
  have hlive := (Machine.stepped_of_step h).1
  have hne : s.stack mainThread ≠ [] := by
    intro hnil
    rw [Machine.step_eq_none fun _ => hnil] at h
    cases h
  have hcode : ∀ {frames}, s' = s.withStack mainThread frames → MainAt count x frames →
      Advances count x s s' := advances_of_code hx hs hlive hne
  generalize hstack : s.stack mainThread = frames at hat
  cases hat with
  | scheduling i hi =>
      exact hcode (Machine.eq_of_called hstack rfl h) (.asking i _ _ _ hi ⟨_, rfl⟩ .opening)
  | asking i x call rest hi hrest hcall =>
      exact advances_of_asking hi hrest hcall hx hs hbooks howed hstack h
  | looking kept =>
      exact hcode (Machine.eq_of_called hstack rfl h)
        (.reading kept .arriving _ ⟨_, rfl⟩ trivial nofun)
  | reading kept phase rest hrest hplain hheld =>
      exact advances_of_reading hrest hplain hheld hx hs hstack h
  | waiting kept hkept =>
      exact hcode (Machine.eq_of_called hstack rfl h)
        (.popping kept (.start .limited) _ hkept ⟨_, rfl⟩ ⟨nofun, trivial⟩)
  | popping kept p rest hkept hrest hsound =>
      exact advances_of_popping hkept hrest hsound hx hs hstack h
  | draining kept =>
      exact hcode (Machine.eq_of_called hstack rfl h) (.emptying kept _ _ _ ⟨_, rfl⟩ .opening)
  | emptying kept x call rest hrest hcall =>
      exact advances_of_emptying hrest hcall hx hs hbefore hbooks howed hstack h
  | delivering kept left rest hrest =>
      obtain ⟨rest', hnext, hrest'⟩ : ∃ rest', next count (keeping kept) =
          .call (.summary (keep kept) .arriving) rest' ∧ ∀ answer, rest' (.ok answer) = .ended :=
        next_keeping kept
      exact hcode (Machine.eq_of_called hstack hnext h)
        (.storing kept left .arriving rest rest' hrest hrest' trivial)
  | storing kept left phase rest rest' hrest hrest' hplain =>
      exact advances_of_storing hrest hrest' hplain hx hs hstack h
  | stored kept left rest hrest =>
      have heq := Machine.eq_of_ended hstack (show _ = some (.ok (.ok 0)) from rfl) h
      exact hcode heq (.emptying kept _ _ rest hrest (.going left))
  | stopping kept hkept =>
      exact hcode (Machine.eq_of_called hstack rfl h)
        (.tearing kept false _ _ hkept ⟨_, rfl⟩ .taking)
  | tearing kept shut call rest hkept hrest hcall =>
      exact advances_of_tearing hkept hrest hcall hx hs hbooks howed hstack h
  | finishing kept hkept =>
      have heq := Machine.eq_of_noted hstack rfl h
      obtain ⟨hidle, hsummary⟩ := Idle.of_noted hlive heq
      refine ⟨_, Nat.le_refl kept, ?_, hx.of_idle hidle (by rw [hsummary]) hs⟩
      rw [heq, show ((s.withStack mainThread _).noting _ _).stack mainThread = _ from
        State.stack_withStack_self _ hne]
      exact .ended kept hkept
  | ended kept hkept =>
      exact hcode (Machine.eq_of_ended hstack (show _ = some (.ok (.ok 0)) from rfl) h)
        (.gone kept hkept)
  | gone kept hkept => exact absurd hstack hne

end Steps

end Offload.Demo
