import Offload.Proofs.Pipeline.Invoking

/-!
# The steps of a drain

A drain of up to `k` results takes out the first that waits, delivers it, and goes on so until it
has taken out `k`, finds none, or a callback fails; then it looks once whether any are left. Others
may add results and take them out between any two of its steps, its own callbacks among them. A
**watch** records what the call itself does and sees, and whether anybody else has touched the
finished channel meanwhile.

## Main results

* `Standing.of_own`: one step of a drain.
* `Standing.bounded`: how many results it takes out, and how many steps it makes.
* `Standing.isPrompt`: it waits for nothing but the lock of the finished channel.
-/

namespace Offload.Pipeline

variable {κ V E ν : Type} {plan : Plan κ} {t : Tid} {choice : Choice}

/-! ### Watches -/

/-- What is seen of a drain in progress. -/
structure Watch (κ V E ν : Type) where
  /-- How many steps it has made itself. -/
  steps : Nat := 0
  /-- The results that it has taken out itself, in this order. -/
  taken : List (Finished κ V E) := []
  /-- What it has noted itself. -/
  noted : List (Event V E ν) := []
  /-- Whether there was nothing to take out when it wanted to. -/
  foundNone : Bool := false
  /-- Whether results were left when it looked. -/
  more : Option Bool := none
  /-- The fault in which a callback has ended that it ran. -/
  fault : Option Fault := none
  /-- Whether the finished channel has changed by a step that was not its own. -/
  disturbed : Prop := False

/-- Whether a call is a drain that takes out the first result in its next step, if there is one. -/
def Call.takes : Call κ V E → Bool
  | .inside (.draining (.popping _ ⟨_, .acting _⟩)) => true
  | _ => false

/-- Whether a call is a drain that looks in its next step whether results are left. -/
def Call.looks : Call κ V E → Bool
  | .inside (.draining (.checking (.acting _))) => true
  | _ => false

namespace Watch

variable {x : Watch κ V E ν} {before after : List (Finished κ V E)} {k left n : Nat}

/-- What is seen after a step of the drain itself, with what waited before and after it. -/
def own (x : Watch κ V E ν) (call? : Option (Call κ V E)) (before after : List (Finished κ V E))
    (events : List (Event V E ν)) : Watch κ V E ν :=
  { x with
    steps := x.steps + 1
    taken := x.taken ++ before.take (before.length - after.length)
    noted := x.noted ++ events
    foundNone := x.foundNone || call?.any Call.takes && before.isEmpty
    more := if call?.any Call.looks then some !before.isEmpty else x.more }

/-- What is seen after any other step, in which a callback of the drain may have failed. -/
def aside (x : Watch κ V E ν) (fault? : Option Fault) (before after : List (Finished κ V E)) :
    Watch κ V E ν :=
  { x with
    fault := fault?.or x.fault
    disturbed := x.disturbed ∨ after ≠ before }

/-- What a drain notes of the results that it delivers. -/
def told (results : List (Finished κ V E)) : List (Event V E ν) :=
  results.flatMap fun f => [.received f.ticket, deliveryEvent f]

theorem told_concat (results : List (Finished κ V E)) (f : Finished κ V E) :
    (told (results ++ [f]) : List (Event V E ν)) =
      told results ++ [.received f.ticket] ++ [deliveryEvent f] := by
  simp [told]

/-- Whether a drain that may deliver `left` more results, of `k` in all, has delivered all that it
has taken out, and has made `n` steps since the last. -/
structure Between (x : Watch κ V E ν) (k left n : Nat) : Prop where
  left : x.taken.length + left = k
  noted : x.noted = told x.taken
  steps : x.steps = 5 * x.taken.length + n

/-- Whether a drain has taken out a result that it has yet to deliver, after which it may deliver
`left` more of `k` in all, and has made `n` steps since. -/
structure Holds (x : Watch κ V E ν) (f : Finished κ V E) (k left n : Nat) : Prop where
  left : x.taken.length + left = k
  noted : ∃ delivered, x.taken = delivered ++ [f] ∧ x.noted = told delivered ++ [.received f.ticket]
  steps : x.steps = 5 * x.taken.length + n

/-- Whether a drain of up to `k` results has taken out its last, with at most `n` steps more than
all its deliveries take; `value` is what waits now. -/
structure Over (x : Watch κ V E ν) (k n : Nat) (value : List (Finished κ V E)) : Prop where
  noted : x.noted = told x.taken
  steps : x.steps ≤ 5 * k + n
  short : x.taken.length = k ∨
    x.taken.length < k ∧ x.foundNone = true ∧ (¬ x.disturbed → value = [])

/-- Whether a callback has failed that a drain of up to `k` results has run. -/
structure Failed (x : Watch κ V E ν) (k n : Nat) (fault : Fault) : Prop where
  noted : x.noted = told x.taken
  steps : x.steps ≤ 5 * k + n
  taken : x.taken.length ≤ k
  fault : x.fault = some fault

end Watch

/-! ### How a drain stands -/

/-- Whether what has been seen of a drain of up to `k` results fits how far the call has come;
`value` is what waits now. -/
inductive Standing (plan : Plan κ) (k : Nat) (x : Watch κ V E ν) (value : List (Finished κ V E)) :
    Call κ V E → Prop where
  | opening (max : Option Nat) : max.getD plan.settings.batch = k → x.Between k k 0 →
      Standing plan k x value (.opening (.drain max))
  | beginning (max : Option Nat) : max.getD plan.settings.batch = k → x.Between k k 1 →
      Standing plan k x value (.inside (.drain max))
  | going (left : Nat) : x.Between k left 2 →
      Standing plan k x value (.inside (.draining (.going left)))
  | arriving (left : Nat) : x.Between k (left + 1) 3 →
      Standing plan k x value (.inside (.draining (.popping left ⟨.never, .arriving⟩)))
  | acting (left : Nat) (again : Bool) : x.Between k (left + 1) 4 →
      Standing plan k x value (.inside (.draining (.popping left ⟨.never, .acting again⟩)))
  | missed (left : Nat) : x.Between k (left + 1) 5 → x.foundNone = true →
      (¬ x.disturbed → value = []) → Standing plan k x value
        (.inside (.draining (.popping left ⟨.never, .leaving (.ok (some none))⟩)))
  | holding (left : Nat) (f : Finished κ V E) : x.Holds f k left 0 → Standing plan k x value
      (.inside (.draining (.popping left ⟨.never, .leaving (.ok (some (some f)))⟩)))
  | delivering (left : Nat) (f : Finished κ V E) : x.Holds f k left 1 →
      Standing plan k x value (.inside (.draining (.delivering left f)))
  | arrivingLast : x.Over k 3 value →
      Standing plan k x value (.inside (.draining (.checking .arriving)))
  | looking (again : Bool) : x.Over k 4 value →
      Standing plan k x value (.inside (.draining (.checking (.acting again))))
  | looked (n : Nat) : x.Over k 5 value → x.more = some (n != 0) →
      (¬ x.disturbed → n = value.length) →
      Standing plan k x value (.inside (.draining (.checking (.leaving (.ok (some n))))))
  | closing (more : Bool) : x.Over k 6 value → x.more = some more →
      (¬ x.disturbed → more = !value.isEmpty) →
      Standing plan k x value (.closing (.ok (.drained more)))
  | failing (fault : Fault) : x.Failed k 2 fault →
      Standing plan k x value (.inside (.draining (.failing fault)))
  | passing (fault : Fault) : x.Failed k 3 fault → Standing plan k x value (.closing (.error fault))

/-- What has been seen of a drain of up to `k` results when it comes to its end with an outcome:
`first` waited at its beginning, and `value` waits now. -/
inductive Drained (k : Nat) (first : List (Finished κ V E)) (x : Watch κ V E ν)
    (value : List (Finished κ V E)) : Except Fault Answer → Prop where
  /-- It has taken out `k` results, or found none, and has delivered all that it has taken out. It
  answers what it has seen when it looked. -/
  | answered (more : Bool) : x.noted = Watch.told x.taken →
      (x.taken.length = k ∨ x.taken.length < k ∧ x.foundNone = true) → x.more = some more →
      (¬ x.disturbed → x.taken = first.take (min k first.length) ∧
        value = first.drop (min k first.length) ∧ more = decide (k < first.length)) →
      Drained k first x value (.ok (.drained more))
  /-- A callback has failed. -/
  | failed (fault : Fault) : x.noted = Watch.told x.taken → x.taken.length ≤ k →
      x.fault = some fault → (¬ x.disturbed → first = x.taken ++ value) →
      Drained k first x value (.error fault)
  /-- The pipeline had no owner any more when the drain began. -/
  | gone : x.taken = [] → x.noted = [] → Drained k first x value (.ok .gone)

/-! ### One step -/

namespace Watch

variable {x : Watch κ V E ν} {call? : Option (Call κ V E)} {fault? : Option Fault}
  {value value' before after first : List (Finished κ V E)} {events : List (Event V E ν)}
  {f : Finished κ V E} {k left n : Nat}

theorem taken_own_same (x : Watch κ V E ν) (call? : Option (Call κ V E))
    (value : List (Finished κ V E)) (events : List (Event V E ν)) :
    (x.own call? value value events).taken = x.taken := by
  simp [own]

theorem taken_own_cons (x : Watch κ V E ν) (call? : Option (Call κ V E)) (f : Finished κ V E)
    (rest : List (Finished κ V E)) (events : List (Event V E ν)) :
    (x.own call? (f :: rest) rest events).taken = x.taken ++ [f] := by
  simp [own]

theorem Between.idle (h : x.Between k left n) (call? : Option (Call κ V E))
    (value : List (Finished κ V E)) : (x.own call? value value []).Between k left (n + 1) where
  left := by rw [taken_own_same]; exact h.left
  noted := by rw [taken_own_same, ← h.noted]; exact List.append_nil _
  steps := by rw [taken_own_same]; exact congrArg (· + 1) h.steps

theorem Between.takes (h : x.Between k (left + 1) 4) (call? : Option (Call κ V E))
    (f : Finished κ V E) (rest : List (Finished κ V E)) :
    (x.own call? (f :: rest) rest [.received f.ticket]).Holds f k left 0 where
  left := by
    have hleft := h.left
    rw [taken_own_cons, List.length_append, List.length_singleton]
    omega
  noted := ⟨x.taken, taken_own_cons .., congrArg (· ++ _) h.noted⟩
  steps := by
    have hsteps : x.steps + 1 = _ := congrArg (· + 1) h.steps
    rw [taken_own_cons, List.length_append, List.length_singleton]
    exact hsteps.trans (by omega)

theorem Holds.idle (h : x.Holds f k left n) (call? : Option (Call κ V E))
    (value : List (Finished κ V E)) : (x.own call? value value []).Holds f k left (n + 1) where
  left := by rw [taken_own_same]; exact h.left
  noted := by
    obtain ⟨delivered, htaken, hnoted⟩ := h.noted
    exact ⟨delivered, by rw [taken_own_same, htaken], (List.append_nil _).trans hnoted⟩
  steps := by rw [taken_own_same]; exact congrArg (· + 1) h.steps

theorem Holds.delivers (h : x.Holds f k left n) (call? : Option (Call κ V E))
    (value : List (Finished κ V E)) :
    (x.own call? value value [deliveryEvent f]).Between k left (n + 1) where
  left := by rw [taken_own_same]; exact h.left
  noted := by
    obtain ⟨delivered, htaken, hnoted⟩ := h.noted
    rw [taken_own_same, htaken, told_concat, ← hnoted]
    rfl
  steps := by rw [taken_own_same]; exact congrArg (· + 1) h.steps

/-- A drain that has delivered its `k` results takes out none any more. -/
theorem Between.last (h : x.Between k 0 n) (value : List (Finished κ V E)) : x.Over k n value where
  noted := h.noted
  steps := by
    have hleft := h.left
    have hsteps := h.steps
    omega
  short := .inl h.left

/-- Nor does one that has found nothing. -/
theorem Between.last_of_none (h : x.Between k (left + 1) 5) (hnone : x.foundNone = true)
    (hvalue : ¬ x.disturbed → value = []) : x.Over k 2 value where
  noted := h.noted
  steps := by
    have hleft := h.left
    have hsteps := h.steps
    omega
  short := .inr ⟨by have hleft := h.left; omega, hnone, hvalue⟩

theorem Over.idle (h : x.Over k n value) (call? : Option (Call κ V E)) :
    (x.own call? value value []).Over k (n + 1) value where
  noted := by rw [taken_own_same, ← h.noted]; exact List.append_nil _
  steps := Nat.succ_le_succ h.steps
  short := by
    rw [taken_own_same]
    refine h.short.imp_right fun ⟨hlt, hnone, hvalue⟩ => ⟨hlt, ?_, hvalue⟩
    rw [own, hnone, Bool.true_or]

theorem length_bne_zero (value : List (Finished κ V E)) : (value.length != 0) = !value.isEmpty := by
  cases value <;> rfl

/-- A drain that nobody has disturbed has taken out the first `k` results, or all there were. -/
theorem Over.split_first (h : x.Over k n value) (hdisturbed : ¬ x.disturbed)
    (hfirst : first = x.taken ++ value) :
    x.taken = first.take (min k first.length) ∧ value = first.drop (min k first.length) ∧
      (!value.isEmpty) = decide (k < first.length) := by
  subst hfirst
  rcases h.short with rfl | ⟨hlt, -, hvalue⟩
  · rw [List.length_append, min_eq_left (Nat.le_add_right _ _), List.take_left, List.drop_left]
    refine ⟨rfl, rfl, ?_⟩
    cases value <;> simp
  · rw [hvalue hdisturbed, List.append_nil, min_eq_right hlt.le, List.take_length, List.drop_length]
    exact ⟨rfl, rfl, (decide_eq_false hlt.not_gt).symm⟩

theorem Failed.idle {fault : Fault} (h : x.Failed k n fault) (call? : Option (Call κ V E))
    (value : List (Finished κ V E)) : (x.own call? value value []).Failed k (n + 1) fault where
  noted := by rw [taken_own_same, ← h.noted]; exact List.append_nil _
  steps := Nat.succ_le_succ h.steps
  taken := by rw [taken_own_same]; exact h.taken
  fault := h.fault

/-- What waited first is what has been taken out and what waits, after a step that takes out the
first or nothing. -/
theorem first_own (call? : Option (Call κ V E)) (events : List (Event V E ν))
    (h : ¬ x.disturbed → first = x.taken ++ before)
    (htakes : after = before ∨ ∃ f, before = f :: after) :
    ¬ (x.own call? before after events).disturbed →
      first = (x.own call? before after events).taken ++ after := by
  intro hdisturbed
  rcases htakes with rfl | ⟨f, rfl⟩
  · rw [taken_own_same]
    exact h hdisturbed
  · rw [taken_own_cons, List.append_assoc]
    exact h hdisturbed

end Watch

/-- What follows a step of a drain: it goes on, calls a callback and goes on after that, or comes to
its end. -/
inductive Follows (plan : Plan κ) (k : Nat) (first : List (Finished κ V E)) (x : Watch κ V E ν)
    (value : List (Finished κ V E)) : Turn κ (Call κ V E) Answer → Prop where
  | on (call : Call κ V E) : Standing plan k x value call →
      Follows plan k first x value (.stay call)
  | calls (code : κ) (left : Nat) : Standing plan k x value (.inside (.draining (.going left))) →
      Follows plan k first x value (.run code (.inside (.draining (.going left))))
  | ended {r : Turn κ (Call κ V E) Answer} (outcome : Except Fault Answer) :
      (∀ frames, Machine.afterTurn frames r = Machine.finishCall outcome frames) →
      x.steps ≤ 5 * k + 7 → Drained k first x value outcome → Follows plan k first x value r

section Steps

variable {s s' : Pipeline κ V E} {events : List (Event V E ν)} {call : Call κ V E}
  {r : Turn κ (Call κ V E) Answer} {k : Nat} {x : Watch κ V E ν} {first : List (Finished κ V E)}

/-- **A drain, a step of its own.** It takes out the first result that waits, or none, and what has
been seen of it fits how far it has come. -/
theorem Standing.of_own (h : Standing plan k x s.finished.value call)
    (hfirst : ¬ x.disturbed → first = x.taken ++ s.finished.value)
    (hturn : turn plan t choice s call = some (s', events, r)) :
    (s'.finished.value = s.finished.value ∨
        ∃ f, s.finished.value = f :: s'.finished.value ∧ events = [.received f.ticket]) ∧
      Follows plan k first (x.own (some call) s.finished.value s'.finished.value events)
        s'.finished.value r := by
  cases h with
  | opening max hmax hx =>
      simp only [turn] at hturn
      split at hturn
      · cases hturn
        exact ⟨.inl rfl, .on _ (.beginning max hmax (hx.idle _ _))⟩
      · cases hturn
        have htaken : x.taken = [] := List.length_eq_zero_iff.mp (by have := hx.left; omega)
        refine ⟨.inl rfl, .ended (.ok .gone) (fun _ => rfl) ?_ (.gone ?_ ?_)⟩
        · have hsteps := (hx.idle (some (.opening (.drain max))) s.finished.value).steps
          rw [Watch.taken_own_same, htaken] at hsteps
          rw [hsteps]
          simp
        · rw [Watch.taken_own_same, htaken]
        · rw [(hx.idle _ _).noted, Watch.taken_own_same, htaken]
          rfl
  | beginning max hmax hx =>
      subst hmax
      cases hturn
      exact ⟨.inl rfl, .on _ (.going _ (hx.idle _ _))⟩
  | going left hx =>
      cases left with
      | zero =>
          cases hturn
          exact ⟨.inl rfl, .on _ (.arrivingLast ((hx.last _).idle _))⟩
      | succ left =>
          cases hturn
          exact ⟨.inl rfl, .on _ (.arriving left (hx.idle _ _))⟩
  | arriving left hx =>
      obtain ⟨r₁, huse, rfl⟩ := exists_of_nest hturn
      obtain ⟨r₂, hdrain, rfl⟩ := exists_of_nest huse
      obtain ⟨finished, marks, r₃, hpop, rfl, rfl, rfl⟩ := exists_of_onFinished hdrain
      obtain ⟨⟨c, progress⟩, hvisit, heq⟩ := Option.map_eq_some_iff.mp hpop
      cases heq
      obtain ⟨-, rfl, rfl⟩ | ⟨again, hphase, -⟩ | ⟨answer, hphase, -⟩ :=
        Visit.plain_cases hvisit trivial
      · exact ⟨.inl rfl, .on _ (.acting left false (hx.idle _ _))⟩
      · cases hphase
      · cases hphase
  | acting left again hx =>
      obtain ⟨_, _, ⟨value, _, _, _⟩, _, _, _, _, _, _⟩ := s
      cases value with
      | nil =>
          cases hturn
          exact ⟨.inl rfl, .on _ (.missed left (hx.idle _ _) (Bool.or_true _) fun _ => rfl)⟩
      | cons f rest =>
          cases hturn
          exact ⟨.inr ⟨f, rfl, rfl⟩, .on _ (.holding left f (hx.takes _ _ _))⟩
  | missed left hx hnone hvalue =>
      cases hturn
      exact ⟨.inl rfl, .on _ (.arrivingLast ((hx.last_of_none hnone hvalue).idle _))⟩
  | holding left f hx =>
      cases hturn
      exact ⟨.inl rfl, .on _ (.delivering left f (hx.idle _ _))⟩
  | delivering left f hx =>
      have hdelivers : (Call.inside (.draining (.delivering left f))).delivering? =
        some (f, .inside (.draining (.going left))) := rfl
      rw [turn_of_delivering hdelivers] at hturn
      cases hturn
      refine ⟨.inl rfl, ?_⟩
      have hx' := hx.delivers (some (.inside (.draining (.delivering left f)))) s.finished.value
      cases hcode : f.callback? with
      | none => exact .on _ (.going left hx')
      | some code => exact .calls code left (.going left hx')
  | arrivingLast hx =>
      obtain ⟨r₁, huse, rfl⟩ := exists_of_nest hturn
      obtain ⟨r₂, hdrain, rfl⟩ := exists_of_nest huse
      obtain ⟨⟨finished, r₃⟩, hsize, heq⟩ := Option.map_eq_some_iff.mp hdrain
      cases heq
      obtain ⟨⟨c, progress⟩, hvisit, heq⟩ := Option.map_eq_some_iff.mp hsize
      cases heq
      obtain ⟨-, rfl, rfl⟩ | ⟨again, hphase, -⟩ | ⟨answer, hphase, -⟩ :=
        Visit.plain_cases hvisit trivial
      · exact ⟨.inl rfl, .on _ (.looking false (hx.idle _))⟩
      · cases hphase
      · cases hphase
  | looking again hx =>
      cases hturn
      exact ⟨.inl rfl, .on _ (.looked _ (hx.idle _)
        (congrArg some (Watch.length_bne_zero s.finished.value).symm) fun _ => rfl)⟩
  | looked n hx hmore hn =>
      cases hturn
      refine ⟨.inl rfl, .on _ (.closing (n != 0) (hx.idle _) hmore fun hdisturbed => ?_)⟩
      rw [hn hdisturbed]
      exact Watch.length_bne_zero _
  | closing more hx hmore hvalue =>
      cases hturn
      have hx' := hx.idle (some (.closing (.ok (.drained more))))
      refine ⟨.inl rfl, .ended _ (fun _ => rfl) hx'.steps (.answered more hx'.noted ?_ hmore ?_)⟩
      · exact hx'.short.imp_right fun hshort => ⟨hshort.1, hshort.2.1⟩
      · intro hdisturbed
        rw [hvalue hdisturbed]
        exact hx'.split_first hdisturbed (Watch.first_own _ _ hfirst (.inl rfl) hdisturbed)
  | failing fault hx =>
      cases hturn
      exact ⟨.inl rfl, .on _ (.passing fault (hx.idle _ _))⟩
  | passing fault hx =>
      cases hturn
      have hx' := hx.idle (some (.closing (.error fault))) s.finished.value
      exact ⟨.inl rfl, .ended _ (fun _ => rfl) (hx'.steps.trans (by omega))
        (.failed fault hx'.noted hx'.taken hx'.fault (Watch.first_own _ _ hfirst (.inl rfl)))⟩

/-- What others do meanwhile does not change how a drain stands. -/
theorem Standing.aside {value value' : List (Finished κ V E)} (h : Standing plan k x value call) :
    Standing plan k (x.aside none value value') value' call := by
  -- what has been found to be so still is, unless the drain has been disturbed
  have hstill : ∀ {P : List (Finished κ V E) → Prop}, (¬ x.disturbed → P value) →
      ¬ (x.disturbed ∨ value' ≠ value) → P value' := by
    intro P hP hnot
    rw [not_or, not_not] at hnot
    exact hnot.2 ▸ hP hnot.1
  have hbetween : ∀ {left n : Nat}, x.Between k left n →
      (x.aside none value value').Between k left n := fun hx => ⟨hx.left, hx.noted, hx.steps⟩
  have hholds : ∀ {f : Finished κ V E} {left n : Nat}, x.Holds f k left n →
      (x.aside none value value').Holds f k left n := fun hx => ⟨hx.left, hx.noted, hx.steps⟩
  have hover : ∀ {n : Nat}, x.Over k n value → (x.aside none value value').Over k n value' :=
    fun hx => ⟨hx.noted, hx.steps, hx.short.imp_right fun ⟨hlt, hnone, hvalue⟩ =>
      ⟨hlt, hnone, hstill (P := (· = [])) hvalue⟩⟩
  have hfailed : ∀ {n : Nat} {fault : Fault}, x.Failed k n fault →
      (x.aside none value value').Failed k n fault :=
    fun hx => ⟨hx.noted, hx.steps, hx.taken, hx.fault⟩
  cases h with
  | opening max hmax hx => exact .opening max hmax (hbetween hx)
  | beginning max hmax hx => exact .beginning max hmax (hbetween hx)
  | going left hx => exact .going left (hbetween hx)
  | arriving left hx => exact .arriving left (hbetween hx)
  | acting left again hx => exact .acting left again (hbetween hx)
  | missed left hx hnone hvalue =>
      exact .missed left (hbetween hx) hnone (hstill (P := (· = [])) hvalue)
  | holding left f hx => exact .holding left f (hholds hx)
  | delivering left f hx => exact .delivering left f (hholds hx)
  | arrivingLast hx => exact .arrivingLast (hover hx)
  | looking again hx => exact .looking again (hover hx)
  | looked n hx hmore hn =>
      exact .looked n (hover hx) hmore (hstill (P := fun value => n = value.length) hn)
  | closing more hx hmore hvalue =>
      exact .closing more (hover hx) hmore (hstill (P := fun value => more = !value.isEmpty) hvalue)
  | failing fault hx => exact .failing fault (hfailed hx)
  | passing fault hx => exact .passing fault (hfailed hx)

/-- A drain of up to `k` results has not taken out more, nor has it made more steps than that
takes. -/
theorem Standing.bounded {value : List (Finished κ V E)} (h : Standing plan k x value call) :
    x.taken.length ≤ k ∧ x.steps ≤ 5 * k + 6 := by
  have hbetween : ∀ {left n : Nat}, x.Between k left n → n ≤ 5 * left + 6 →
      x.taken.length ≤ k ∧ x.steps ≤ 5 * k + 6 := by
    rintro left n ⟨hleft, -, hsteps⟩ hn
    omega
  have hover : ∀ {n : Nat}, x.Over k n value → n ≤ 6 →
      x.taken.length ≤ k ∧ x.steps ≤ 5 * k + 6 := by
    rintro n ⟨-, hsteps, hshort⟩ hn
    omega
  cases h with
  | opening max _ hx | beginning max _ hx => exact hbetween hx (by omega)
  | going left hx | arriving left hx | acting left _ hx | missed left hx _ _ =>
      exact hbetween hx (by omega)
  | holding left f hx | delivering left f hx =>
      obtain ⟨hleft, -, hsteps⟩ := hx
      omega
  | arrivingLast hx | looking _ hx | looked _ hx _ _ | closing _ hx _ _ =>
      exact hover hx (by decide)
  | failing fault hx | passing fault hx => exact ⟨hx.taken, hx.steps.trans (by omega)⟩

/-- A drain waits for nothing but the lock of the finished channel. -/
theorem Standing.isPrompt {value : List (Finished κ V E)} (h : Standing plan k x value call) :
    call.IsPrompt plan ν t ∧ ∀ l, call.wants = some l → l = .finished := by
  have hnone : ∀ l : Lock, none = some l → l = .finished := by
    intro l hl
    cases hl
  have hpop : ∀ {p : Channel.Pop (Finished κ V E)} {left : Nat}, p.Seeks ∨ p.owns = true →
      (Call.inside (.draining (.popping left p))).IsPrompt plan ν t ∧
        ∀ l, (if p.owns then none else some Lock.finished) = some l → l = .finished := by
    intro p left hp
    refine ⟨fun choice s => ?_, fun l hl => ?_⟩
    · rw [turn, Option.isSome_map, Use.turn, Option.isSome_map, Drain.turn, Option.isSome_map]
      refine Eq.trans ?_ (isFree_unless s p.owns .finished).symm
      rcases hp with hseeks | howns
      · exact Channel.Pop.isSome_turn_of_seeks hseeks
      · rw [howns]
        exact Channel.Pop.isSome_turn_of_owns howns
    · cases howns : p.owns <;> simp [howns] at hl
      exact hl.symm
  have hcheck : ∀ {phase : Phase Nat}, phase.IsPlain →
      (Call.inside (.draining (.checking phase)) : Call κ V E).IsPrompt plan ν t ∧
        ∀ l, (if phase.owns then none else some Lock.finished) = some l → l = .finished := by
    intro phase hphase
    refine ⟨fun choice s => ?_, fun l hl => ?_⟩
    · rw [turn, Option.isSome_map, Use.turn, Option.isSome_map, Drain.turn, Option.isSome_map]
      exact (Channel.isSome_sizeTurn hphase).trans (isFree_unless s phase.owns .finished).symm
    · cases howns : phase.owns <;> simp [howns] at hl
      exact hl.symm
  cases h with
  | opening max _ _ => exact ⟨Call.isPrompt_opening _, hnone⟩
  | going left _ => exact ⟨fun _ _ => by cases left <;> rfl, hnone⟩
  | arriving left _ | acting left _ _ => exact hpop (.inl trivial)
  | missed left _ _ _ | holding left _ _ => exact hpop (.inr rfl)
  | arrivingLast _ | looking _ _ | looked _ _ _ _ => exact hcheck trivial
  | beginning _ _ _ | delivering _ _ _ | closing _ _ _ _ | failing _ _ | passing _ _ =>
      exact ⟨fun _ _ => rfl, hnone⟩

end Steps

end Offload.Pipeline
