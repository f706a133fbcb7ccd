import Mathlib.Algebra.BigOperators.Group.Finset.Basic
import Mathlib.Logic.Function.Basic
import Offload.Machine

/-!
# Scenes

A machine's state holds code, continuations and an outside world, of which a library knows
nothing. A **scene** is what is left without them: the shared state, the history, and for
each thread the **calls** that it is making. At most one of a thread's calls is *active*,
namely when the thread is not in code; the others *wait* for code that they have run.

A **library** says how calls go on, which calls code may begin and what it may note. Its
scenes step by themselves: code may begin any call at any moment. So every run of a machine
that fits a library shows as a run of scenes, and an invariant of the library is proved
once, on scenes, for all code.

## Main results

* `Machine.Fits.reach_shows`: every reachable state of a machine shows a reachable scene of
  its library.
* `Machine.Fits.exists_shows`: the same with an invariant that only the run's threads need to keep.
* `Scene.Reach.invariant`: an invariant that every step of a scene keeps holds in every
  reachable scene.
* `Machine.Shows.stack_eq_nil`: a thread that was started with a call and makes no call has
  ended.
-/

namespace Offload

variable {κ ω σ δ γ α ρ ν ε : Type}

/-! ### The calls of a thread -/

/-- The calls that one thread is making. -/
structure Calls (γ : Type) where
  /-- The call whose next step is due, unless the thread is in code. -/
  active : Option γ
  /-- The calls that wait for code that they have run, innermost first. -/
  waiting : List γ

/-- All calls of a thread, innermost first. -/
def Calls.all (c : Calls γ) : List γ :=
  c.active.toList ++ c.waiting

/-- A thread without calls. -/
theorem Calls.eq_of_all_eq_nil {c : Calls γ} (h : c.all = []) : c = ⟨none, []⟩ := by
  obtain ⟨active, waiting⟩ := c
  obtain ⟨hactive, rfl⟩ := List.append_eq_nil_iff.mp h
  obtain rfl := Option.toList_eq_nil_iff.mp hactive
  rfl

/-- The call that a layer holds. -/
def Frame.call? : Frame κ γ α → Option γ
  | .call c => some c
  | .code _ | .wait _ => none

/-- The calls that the layers of a thread hold. -/
def callsOf : Stack κ γ α → Calls γ
  | .call call :: rest => ⟨some call, rest.filterMap Frame.call?⟩
  | frames => ⟨none, frames.filterMap Frame.call?⟩

@[simp] theorem callsOf_nil : callsOf ([] : Stack κ γ α) = ⟨none, []⟩ := rfl

@[simp] theorem callsOf_call (call : γ) (rest : Stack κ γ α) :
    callsOf (.call call :: rest) = ⟨some call, rest.filterMap Frame.call?⟩ := rfl

@[simp] theorem callsOf_code (position : κ) (rest : Stack κ γ α) :
    callsOf (.code position :: rest) = ⟨none, rest.filterMap Frame.call?⟩ := rfl

@[simp] theorem callsOf_wait (k : Except Fault α → κ) (rest : Stack κ γ α) :
    callsOf (.wait k :: rest) = ⟨none, rest.filterMap Frame.call?⟩ := rfl

theorem all_callsOf (frames : Stack κ γ α) :
    (callsOf frames).all = frames.filterMap Frame.call? := by
  rcases frames with _ | ⟨_ | _ | _, rest⟩ <;> rfl

/-- The active call of a thread is its topmost layer. -/
theorem exists_of_active {frames : Stack κ γ α} {call : γ}
    (h : (callsOf frames).active = some call) : ∃ rest, frames = .call call :: rest := by
  cases frames with
  | nil => cases h
  | cons frame rest =>
      cases frame with
      | call call' =>
          cases h
          exact ⟨rest, rfl⟩
      | code _ | wait _ => cases h

/-- The calls of a thread after one turn of its active call; an abort leaves them standing. -/
def Calls.after (call : γ) (rest : List γ) : Turn κ γ α → Calls γ
  | .stay call' => ⟨some call', rest⟩
  | .run _ call' => ⟨none, call' :: rest⟩
  | .ret _ | .fail _ => ⟨none, rest⟩
  | .abort => ⟨some call, rest⟩

/-- The call that goes on after a turn, if one does. -/
def Turn.next? : Turn κ γ α → Option γ
  | .stay call | .run _ call => some call
  | .ret _ | .fail _ | .abort => none

theorem Turn.stay_ne_abort (call : γ) : (.stay call : Turn κ γ α) ≠ .abort := nofun

theorem Turn.stay_ne_run (call : γ) (code : κ) (call' : γ) :
    (.stay call : Turn κ γ α) ≠ .run code call' := nofun

theorem Turn.ret_ne_abort (answer : α) : (.ret answer : Turn κ γ α) ≠ .abort := nofun

theorem Turn.ret_ne_run (answer : α) (code : κ) (call : γ) :
    (.ret answer : Turn κ γ α) ≠ .run code call := nofun

/-- When a part answers or fails for the larger call, the larger call goes on exactly if the
part does. -/
theorem Turn.next?_within {γ' α' : Type} (wrap : γ → γ') (answer : α → α') (turn : Turn κ γ α) :
    (turn.within wrap (fun a => .ret (answer a)) .fail).next? = turn.next?.map wrap := by
  cases turn <;> rfl

/-- After a turn, the call that goes on stands in the place of the call that was active. -/
theorem Calls.all_after {call : γ} {rest : List γ} {turn : Turn κ γ α} (h : turn ≠ .abort) :
    (Calls.after call rest turn).all = turn.next?.toList ++ rest := by
  cases turn with
  | abort => exact absurd rfl h
  | stay _ | run _ _ | ret _ | fail _ => rfl

/-! ### Well-nested layers -/

/-- The layers of a thread as a machine builds them: code stands at the bottom or on the call
that ran it, and a call stands at the bottom or on the code that made it. A `rooted` thread
has a call at the bottom. -/
inductive Nested : Bool → Stack κ γ α → Prop where
  | done (rooted : Bool) : Nested rooted []
  | code (position : κ) : Nested false [.code position]
  | call (call : γ) : Nested true [.call call]
  | ran {rooted : Bool} {rest : Stack κ γ α} (position : κ) (call : γ) :
      Nested rooted (.call call :: rest) → Nested rooted (.code position :: .call call :: rest)
  | asked {rooted : Bool} {rest : Stack κ γ α} {position : κ} (call : γ)
      (k : Except Fault α → κ) :
      Nested rooted (.code position :: rest) → Nested rooted (.call call :: .wait k :: rest)

/-- Code may go on from any position. -/
theorem Nested.withPosition {rooted : Bool} {position : κ} {rest : Stack κ γ α}
    (h : Nested rooted (.code position :: rest)) (position' : κ) :
    Nested rooted (.code position' :: rest) := by
  cases h with
  | code => exact .code position'
  | ran _ call h => exact .ran position' call h

/-- A call may go on as any other. -/
theorem Nested.withCall {rooted : Bool} {call : γ} {rest : Stack κ γ α}
    (h : Nested rooted (.call call :: rest)) (call' : γ) :
    Nested rooted (.call call' :: rest) := by
  cases h with
  | call => exact .call call'
  | asked _ k h => exact .asked call' k h

/-- When code ends, the call below it goes on. -/
theorem Nested.finishCode {m : Machine κ ω σ γ α ρ ε} {rooted : Bool} {position : κ}
    {rest : Stack κ γ α} (h : Nested rooted (.code position :: rest))
    (result : Except Fault ρ) : Nested rooted (m.finishCode result rest) := by
  cases h with
  | code => exact .done false
  | ran _ call h => exact h.withCall _

/-- When a call answers, the code below it goes on. -/
theorem Nested.finishCall {rooted : Bool} {call : γ} {rest : Stack κ γ α}
    (h : Nested rooted (.call call :: rest)) (answer : Except Fault α) :
    Nested rooted (Machine.finishCall answer rest) := by
  cases h with
  | call => exact .done true
  | asked _ k h => exact h.withPosition _

/-- A turn of the topmost call keeps layers well-nested. -/
theorem Nested.afterTurn {rooted : Bool} {call : γ} {rest : Stack κ γ α}
    (h : Nested rooted (.call call :: rest)) (turn : Turn κ γ α) :
    Nested rooted (Machine.afterTurn rest turn) := by
  cases turn with
  | stay call' => exact h.withCall call'
  | run position call' => exact .ran position call' (h.withCall call')
  | ret answer => exact h.finishCall (.ok answer)
  | fail fault => exact h.finishCall (.error fault)
  | abort => exact .done rooted

/-- Code stands at the bottom or on a call. -/
theorem Nested.below_code {rooted : Bool} {position : κ} {rest : Stack κ γ α}
    (h : Nested rooted (.code position :: rest)) :
    rest = [] ∨ ∃ call rest', rest = .call call :: rest' := by
  cases h with
  | code => exact .inl rfl
  | ran _ call _ => exact .inr ⟨call, _, rfl⟩

/-- Code of a rooted thread has been run by a call, which waits for it. -/
theorem Nested.waiting_ne_nil {position : κ} {rest : Stack κ γ α}
    (h : Nested true (.code position :: rest)) : rest.filterMap Frame.call? ≠ [] := by
  cases h with
  | ran _ call _ => simp [Frame.call?]

/-- A thread that makes no step of a call while calls wait is in code that the innermost of them
has run. -/
theorem Nested.exists_code {rooted : Bool} {frames : Stack κ γ α} {call : γ} {calls : List γ}
    (h : Nested rooted frames) (hcalls : callsOf frames = ⟨none, call :: calls⟩) :
    ∃ position rest, frames = .code position :: .call call :: rest ∧
      calls = rest.filterMap Frame.call? := by
  cases h with
  | done | code position => cases hcalls
  | call call' | asked call' k h => cases hcalls
  | @ran _ rest position call' h =>
      cases hcalls
      exact ⟨position, rest, rfl, rfl⟩

/-- A rooted thread that makes no call has ended. -/
theorem Nested.eq_nil {frames : Stack κ γ α} (h : Nested true frames)
    (hcalls : callsOf frames = ⟨none, []⟩) : frames = [] := by
  cases h with
  | done => rfl
  | call call => simp at hcalls
  | ran position call h => simp [Frame.call?] at hcalls
  | asked call k h => simp at hcalls

/-- Below the call of a rooted thread there is nothing, unless another call waits. -/
theorem Nested.eq_nil_of_call {call : γ} {rest : Stack κ γ α} (h : Nested true (.call call :: rest))
    (hcalls : (callsOf (.call call :: rest)).waiting = []) : rest = [] := by
  cases h with
  | call => rfl
  | asked _ k h => exact absurd hcalls h.waiting_ne_nil

/-! ### Libraries and scenes -/

/-- A library: how its calls go on, which calls code may begin, what code may note, and which
threads are started with a call. -/
structure Library (κ σ γ α ρ ε : Type) where
  turn : Tid → Choice → σ → γ → Option (σ × List ε × Turn κ γ α)
  resume : γ → Except Fault ρ → γ
  begins : γ → Prop
  notes : ε → Prop
  rooted : Tid → Bool

/-- What a machine's state shows of its library. -/
structure Scene (σ γ ε : Type) where
  shared : σ
  history : List (Tid × ε)
  calls : Tid → Calls γ

namespace Scene

/-- Thread `t` goes on with the given calls. -/
def withCalls (s : Scene σ γ ε) (t : Tid) (calls : Calls γ) : Scene σ γ ε :=
  { s with calls := Function.update s.calls t calls }

/-- Whether thread `t` may be in code: it makes no step of a call, and if it is rooted then a
call waits for it. -/
def InCode (lib : Library κ σ γ α ρ ε) (s : Scene σ γ ε) (t : Tid) : Prop :=
  (s.calls t).active = none ∧ (lib.rooted t = true → (s.calls t).waiting ≠ [])

/-- One step of thread `t` as far as the library is concerned. -/
inductive Step (lib : Library κ σ γ α ρ ε) (t : Tid) : Scene σ γ ε → Scene σ γ ε → Prop where
  /-- Code notes an event. -/
  | noted {s : Scene σ γ ε} {event : ε} : s.InCode lib t → lib.notes event →
      Step lib t s { s with history := s.history ++ [(t, event)] }
  /-- Code begins a call. -/
  | called {s : Scene σ γ ε} {call : γ} : s.InCode lib t → lib.begins call →
      Step lib t s (s.withCalls t ⟨some call, (s.calls t).waiting⟩)
  /-- Code ends, and the call that ran it goes on. -/
  | resumed {s : Scene σ γ ε} {call : γ} {rest : List γ} (result : Except Fault ρ) :
      s.calls t = ⟨none, call :: rest⟩ →
      Step lib t s (s.withCalls t ⟨some (lib.resume call result), rest⟩)
  /-- The active call makes a step. -/
  | turned {s : Scene σ γ ε} {call : γ} {rest : List γ} {choice : Choice} {shared : σ}
      {events : List ε} {turn : Turn κ γ α} : s.calls t = ⟨some call, rest⟩ →
      lib.turn t choice s.shared call = some (shared, events, turn) →
      Step lib t s
        { shared := shared
          history := s.history ++ events.map (Prod.mk t)
          calls := Function.update s.calls t (Calls.after call rest turn) }

/-- The scenes that some interleaving reaches from `s₀`. -/
inductive Reach (lib : Library κ σ γ α ρ ε) (s₀ : Scene σ γ ε) : Scene σ γ ε → Prop where
  | start : Reach lib s₀ s₀
  | step {s s' : Scene σ γ ε} (t : Tid) : Reach lib s₀ s → Step lib t s s' → Reach lib s₀ s'

/-- What holds at the start and is kept by every step holds in every reachable scene. -/
theorem Reach.invariant {lib : Library κ σ γ α ρ ε} {s₀ s : Scene σ γ ε}
    {P : Scene σ γ ε → Prop} (h : Reach lib s₀ s) (hstart : P s₀)
    (hstep : ∀ t s s', Reach lib s₀ s → P s → Step lib t s s' → P s') : P s := by
  induction h with
  | start => exact hstart
  | step t hs hst ih => exact hstep t _ _ hs ih hst

/-- What is reached from a reachable scene is reachable. -/
theorem Reach.trans {lib : Library κ σ γ α ρ ε} {s₀ s s' : Scene σ γ ε} (h : Reach lib s₀ s)
    (h' : Reach lib s s') : Reach lib s₀ s' := by
  induction h' with
  | start => exact h
  | step t _ hst ih => exact ih.step t hst

/-- A step of one thread adds events of that thread only. -/
theorem Step.exists_events {lib : Library κ σ γ α ρ ε} {t : Tid} {s s' : Scene σ γ ε}
    (h : Step lib t s s') :
    ∃ events : List ε, s'.history = s.history ++ events.map (Prod.mk t) := by
  cases h with
  | @noted event _ _ => exact ⟨[event], rfl⟩
  | called _ _ | resumed _ _ => exact ⟨[], (List.append_nil _).symm⟩
  | @turned _ _ _ _ events _ _ _ => exact ⟨events, rfl⟩

/-- Nothing that has happened is undone. -/
theorem Reach.exists_later {lib : Library κ σ γ α ρ ε} {s s' : Scene σ γ ε}
    (h : Reach lib s s') : ∃ later, s'.history = s.history ++ later := by
  induction h with
  | start => exact ⟨[], (List.append_nil _).symm⟩
  | step t _ hst ih =>
      obtain ⟨later, hlater⟩ := ih
      obtain ⟨events, hevents⟩ := hst.exists_events
      exact ⟨later ++ events.map (Prod.mk t), by rw [hevents, hlater, List.append_assoc]⟩

/-- A step of one thread leaves the calls of the others alone. -/
theorem Step.calls_ne {lib : Library κ σ γ α ρ ε} {t u : Tid} {s s' : Scene σ γ ε}
    (h : Step lib t s s') (hu : u ≠ t) : s'.calls u = s.calls u := by
  cases h with
  | noted _ _ => rfl
  | called _ _ | resumed _ _ | turned _ _ => exact Function.update_of_ne hu _ _

/-- What holds of calls at their beginning, and is kept by their steps and by the ends of code
that they run, holds of all calls. -/
theorem Reach.all_calls {lib : Library κ σ γ α ρ ε} {s₀ s : Scene σ γ ε} {P : γ → Prop}
    (h : Reach lib s₀ s) (hstart : ∀ t, ∀ call ∈ (s₀.calls t).all, P call)
    (hbegins : ∀ call, lib.begins call → P call)
    (hresume : ∀ call result, P call → P (lib.resume call result))
    (hturn : ∀ t choice shared call r, lib.turn t choice shared call = some r → P call →
      ∀ call', r.2.2.next? = some call' → P call') :
    ∀ t, ∀ call ∈ (s.calls t).all, P call := by
  refine h.invariant (P := fun s => ∀ t, ∀ call ∈ (s.calls t).all, P call) hstart ?_
  intro t s s' _ hs hstep u call hcall
  by_cases hu : u = t
  · subst hu
    cases hstep with
    | noted _ _ => exact hs u call hcall
    | called hcode hbegin =>
        simp only [withCalls, Function.update_self, Calls.all, Option.toList_some,
          List.singleton_append, List.mem_cons] at hcall
        rcases hcall with rfl | hcall
        · exact hbegins _ hbegin
        · exact hs u call (List.mem_append_right _ hcall)
    | resumed result hcalls =>
        simp only [withCalls, Function.update_self, Calls.all, Option.toList_some,
          List.singleton_append, List.mem_cons] at hcall
        have hold := hs u
        rw [hcalls] at hold
        rcases hcall with rfl | hcall
        · exact hresume _ _ (hold _ List.mem_cons_self)
        · exact hold call (List.mem_cons_of_mem _ hcall)
    | @turned call' rest choice shared events turn hcalls hturn' =>
        simp only [Function.update_self] at hcall
        have hold := hs u
        rw [hcalls] at hold
        by_cases habort : turn = .abort
        · subst habort
          exact hold call hcall
        · rw [Calls.all_after habort, List.mem_append, Option.mem_toList] at hcall
          rcases hcall with hnext | hcall
          · exact hturn _ _ _ _ _ hturn' (hold _ List.mem_cons_self) call hnext
          · exact hold call (List.mem_cons_of_mem _ hcall)
  · rw [hstep.calls_ne hu] at hcall
    exact hs u call hcall

@[simp] theorem withCalls_shared (s : Scene σ γ ε) (t : Tid) (c : Calls γ) :
    (s.withCalls t c).shared = s.shared := rfl

@[simp] theorem withCalls_history (s : Scene σ γ ε) (t : Tid) (c : Calls γ) :
    (s.withCalls t c).history = s.history := rfl

@[simp] theorem withCalls_calls (s : Scene σ γ ε) (t : Tid) (c : Calls γ) :
    (s.withCalls t c).calls = Function.update s.calls t c := rfl

end Scene

/-! ### Sums over threads -/

/-- A sum over the first threads changes by what one thread puts in. -/
theorem sum_exchange {n t : Nat} {f g : Nat → Nat} (ht : t < n)
    (h : ∀ u, u ≠ t → g u = f u) :
    ∑ u ∈ Finset.range n, g u + f t = ∑ u ∈ Finset.range n, f u + g t := by
  have hmem := Finset.mem_range.mpr ht
  have hrest : ∑ u ∈ (Finset.range n).erase t, g u = ∑ u ∈ (Finset.range n).erase t, f u :=
    Finset.sum_congr rfl fun u hu => h u (Finset.ne_of_mem_erase hu)
  rw [← Finset.add_sum_erase _ g hmem, ← Finset.add_sum_erase _ f hmem, hrest]
  omega

/-! ### What a state shows -/

/-- A call that code makes stands for one of its requests. -/
theorem Move.eq_of_map_eq_call {ask : δ → γ} {tell : ν → ε} {move : Move κ ω δ α ρ ν} {call : γ}
    {k : Except Fault α → κ} (h : move.map ask tell = .call call k) :
    ∃ request, call = ask request := by
  cases move with
  | call request _ =>
      cases h
      exact ⟨request, rfl⟩
  | ret _ | fail _ | note _ _ | act _ => cases h

/-- Code ends as it would end without the translation. -/
theorem Move.map_eq_ret_iff {ask : δ → γ} {tell : ν → ε} {move : Move κ ω δ α ρ ν} {result : ρ} :
    move.map ask tell = .ret result ↔ move = .ret result := by
  cases move <;> simp [Move.map]

theorem Move.map_eq_fail_iff {ask : δ → γ} {tell : ν → ε} {move : Move κ ω δ α ρ ν}
    {fault : Fault} : move.map ask tell = .fail fault ↔ move = .fail fault := by
  cases move <;> simp [Move.map]

/-- How code ends whose next move this is, if it does. -/
def Move.ended? : Move κ ω γ α ρ ε → Option (Except Fault ρ)
  | .ret result => some (.ok result)
  | .fail fault => some (.error fault)
  | .note _ _ | .act _ | .call _ _ => none

theorem Move.ended?_map {ask : δ → γ} {tell : ν → ε} (move : Move κ ω δ α ρ ν) :
    (move.map ask tell).ended? = move.ended? := by
  cases move <;> rfl

/-- An event that code notes stands for one of its notes. -/
theorem Move.eq_of_map_eq_note {ask : δ → γ} {tell : ν → ε} {move : Move κ ω δ α ρ ν} {event : ε}
    {rest : κ} (h : move.map ask tell = .note event rest) : ∃ note, event = tell note := by
  cases move with
  | note note _ =>
      cases h
      exact ⟨note, rfl⟩
  | ret _ | fail _ | call _ _ | act _ => cases h

namespace State

/-- The state in which threads are about to run the given code. -/
def ofCodes (shared : σ) (world : ω) (codes : List κ) : State κ ω σ γ α ε :=
  { shared := shared, world := world, threads := codes.map fun code => [.code code] }

/-- A thread that is about to run code has nothing else to do. -/
theorem stack_ofCodes {s : State κ ω σ γ α ε} {shared : σ} {world : ω} {codes : List κ}
    (hs : s = ofCodes shared world codes) (t : Tid) :
    s.stack t = [] ∨ ∃ code, s.stack t = [.code code] := by
  simp only [hs, stack, ofCodes, List.getElem?_map]
  cases codes[t]? with
  | none => exact .inl rfl
  | some code => exact .inr ⟨code, rfl⟩

theorem stack_withStack_self {s : State κ ω σ γ α ε} {t : Tid} (frames : Stack κ γ α)
    (h : s.stack t ≠ []) : (s.withStack t frames).stack t = frames := by
  have hlt : t < s.threads.length := by
    by_contra hge
    exact h (by simp [stack, List.getElem?_eq_none (Nat.not_lt.mp hge)])
  simp [stack, withStack, hlt]

theorem stack_withStack_ne {s : State κ ω σ γ α ε} {t u : Tid} (frames : Stack κ γ α)
    (h : u ≠ t) : (s.withStack t frames).stack u = s.stack u := by
  simp [stack, withStack, List.getElem?_set_ne (Ne.symm h)]

theorem history_noting (s : State κ ω σ γ α ε) (t : Tid) (events : List ε) :
    (s.noting t events).history = s.history ++ events.map (Prod.mk t) := by
  simp [history, noting]

end State

namespace Machine

/-- Whether the calls of a machine are those of a library, and its code keeps to what the
library lets code do. -/
structure Fits (m : Machine κ ω σ γ α ρ ε) (lib : Library κ σ γ α ρ ε) : Prop where
  turn_eq : m.turn = lib.turn
  resume_eq : m.resume = lib.resume
  begins : ∀ position call k, m.next position = .call call k → lib.begins call
  notes : ∀ position event rest, m.next position = .note event rest → lib.notes event

/-- What one step of thread `t` may be, and the state after it. -/
inductive Stepped (m : Machine κ ω σ γ α ρ ε) (t : Tid) (choice : Choice)
    (s : State κ ω σ γ α ε) : State κ ω σ γ α ε → Prop where
  | ended {position : κ} {rest : Stack κ γ α} (result : Except Fault ρ) :
      s.stack t = .code position :: rest →
      Stepped m t choice s (s.withStack t (m.finishCode result rest))
  | noted {position position' : κ} {rest : Stack κ γ α} {event : ε} :
      s.stack t = .code position :: rest → m.next position = .note event position' →
      Stepped m t choice s ((s.withStack t (.code position' :: rest)).noting t [event])
  | acted {position position' : κ} {rest : Stack κ γ α} {world : ω} :
      s.stack t = .code position :: rest →
      Stepped m t choice s { s.withStack t (.code position' :: rest) with world := world }
  | called {position : κ} {rest : Stack κ γ α} {call : γ} {k : Except Fault α → κ} :
      s.stack t = .code position :: rest → m.next position = .call call k →
      Stepped m t choice s (s.withStack t (.call call :: .wait k :: rest))
  | turned {call : γ} {rest : Stack κ γ α} {shared : σ} {events : List ε} {turn : Turn κ γ α}
      {aborted : Bool} : s.stack t = .call call :: rest →
      m.turn t choice s.shared call = some (shared, events, turn) →
      (aborted = true ↔ turn = .abort) →
      Stepped m t choice s
        { (s.withStack t (afterTurn rest turn)).noting t events with
          shared := shared, aborted := aborted }

/-- Every step is of one of these kinds, and nothing steps after an abort. -/
theorem stepped_of_step {m : Machine κ ω σ γ α ρ ε} {t : Tid} {choice : Choice}
    {s s' : State κ ω σ γ α ε} (h : m.step t choice s = some s') :
    s.aborted = false ∧ m.Stepped t choice s s' := by
  have hlive : s.aborted = false := by
    by_contra hne
    simp [step, hne] at h
  refine ⟨hlive, ?_⟩
  simp only [step, hlive, Bool.false_eq_true, if_false, stepThread] at h
  split at h
  · cases h
  · cases h
  · next position rest hst =>
    split at h
    · cases h
      exact .ended _ hst
    · cases h
      exact .ended _ hst
    · next hnext =>
      cases h
      exact .noted hst hnext
    · obtain ⟨⟨world, position'⟩, -, rfl⟩ := Option.map_eq_some_iff.mp h
      exact .acted hst
    · next hnext =>
      cases h
      exact .called hst hnext
  · next call rest hst =>
    obtain ⟨⟨shared, events, turn⟩, hturn, rfl⟩ := Option.map_eq_some_iff.mp h
    refine .turned hst hturn ?_
    cases turn <;> simp

/-- A thread that makes a call goes on by a turn of it. -/
theorem turn_of_step {m : Machine κ ω σ γ α ρ ε} {t : Tid} {choice : Choice}
    {s s' : State κ ω σ γ α ε} {call : γ} {rest : Stack κ γ α}
    (hstack : s.stack t = .call call :: rest) (h : m.step t choice s = some s') :
    ∃ shared events turn, m.turn t choice s.shared call = some (shared, events, turn) ∧
      s'.shared = shared ∧ s'.history = s.history ++ events.map (Prod.mk t) ∧
      s'.stack t = afterTurn rest turn := by
  have hne : s.stack t ≠ [] := by simp [hstack]
  cases (stepped_of_step h).2 with
  | ended _ hcode | noted hcode _ | acted hcode | called hcode _ =>
      rw [hstack] at hcode
      cases hcode
  | turned hcall hturn _ =>
      rw [hstack] at hcall
      cases hcall
      exact ⟨_, _, _, hturn, rfl, State.history_noting _ t _, State.stack_withStack_self _ hne⟩

/-- When code ends, what has run it goes on with its end. -/
theorem eq_of_ended {m : Machine κ ω σ γ α ρ ε} {t : Tid} {choice : Choice}
    {s s' : State κ ω σ γ α ε} {position : κ} {rest : Stack κ γ α} {ended : Except Fault ρ}
    (hstack : s.stack t = .code position :: rest) (hended : (m.next position).ended? = some ended)
    (h : m.step t choice s = some s') : s' = s.withStack t (m.finishCode ended rest) := by
  simp only [step, (stepped_of_step h).1, Bool.false_eq_true, if_false, stepThread, hstack] at h
  cases hnext : m.next position with
  | ret result | fail fault =>
      rw [hnext] at hended h
      cases hended
      exact (Option.some.inj h).symm
  | note _ _ | act _ | call _ _ =>
      rw [hnext] at hended
      cases hended

/-- When code makes a call, the call stands on the code that waits for its answer. -/
theorem eq_of_called {m : Machine κ ω σ γ α ρ ε} {t : Tid} {choice : Choice}
    {s s' : State κ ω σ γ α ε} {position : κ} {rest : Stack κ γ α} {call : γ}
    {k : Except Fault α → κ} (hstack : s.stack t = .code position :: rest)
    (hnext : m.next position = .call call k) (h : m.step t choice s = some s') :
    s' = s.withStack t (.call call :: .wait k :: rest) := by
  simp only [step, (stepped_of_step h).1, Bool.false_eq_true, if_false, stepThread, hstack,
    hnext] at h
  exact (Option.some.inj h).symm

/-- When code notes an event, it goes on. -/
theorem eq_of_noted {m : Machine κ ω σ γ α ρ ε} {t : Tid} {choice : Choice}
    {s s' : State κ ω σ γ α ε} {position position' : κ} {rest : Stack κ γ α} {event : ε}
    (hstack : s.stack t = .code position :: rest) (hnext : m.next position = .note event position')
    (h : m.step t choice s = some s') :
    s' = (s.withStack t (.code position' :: rest)).noting t [event] := by
  simp only [step, (stepped_of_step h).1, Bool.false_eq_true, if_false, stepThread, hstack,
    hnext] at h
  exact (Option.some.inj h).symm

/-- A turn that does not abort leaves the machine running. -/
theorem live_of_turn {m : Machine κ ω σ γ α ρ ε} {t : Tid} {choice : Choice}
    {s s' : State κ ω σ γ α ε} {call : γ} {rest : Stack κ γ α}
    (hstack : s.stack t = .call call :: rest) (h : m.step t choice s = some s')
    (hturn : ∀ shared events, m.turn t choice s.shared call ≠ some (shared, events, .abort)) :
    s'.aborted = false := by
  obtain ⟨hlive, hstep⟩ := stepped_of_step h
  cases hstep with
  | ended _ hcode | noted hcode _ | acted hcode | called hcode _ =>
      rw [hstack] at hcode
      cases hcode
  | @turned _ _ shared events r aborted hcall hr haborted =>
      rw [hstack] at hcall
      cases hcall
      cases aborted with
      | false => rfl
      | true => exact absurd (haborted.mp rfl ▸ hr) (hturn shared events)

/-- A step of one thread leaves the layers of the others alone. -/
theorem stack_of_step_ne {m : Machine κ ω σ γ α ρ ε} {t u : Tid} {choice : Choice}
    {s s' : State κ ω σ γ α ε} (h : m.step t choice s = some s') (hu : u ≠ t) :
    s'.stack u = s.stack u := by
  cases (stepped_of_step h).2 with
  | ended _ _ | noted _ _ | acted _ | called _ _ | turned _ _ _ =>
      exact State.stack_withStack_ne _ hu

/-- How a thread comes to make the next step of a call, by a step of its own: its code has made the
call, or has ended and the call goes on, or the call has stayed. -/
theorem origin_of_call {m : Machine κ ω σ γ α ρ ε} {t : Tid} {choice : Choice}
    {s s' : State κ ω σ γ α ε} {rooted : Bool} {call' : γ} {rest : Stack κ γ α}
    (hnest : Nested rooted (s.stack t)) (h : m.step t choice s = some s')
    (hstack' : s'.stack t = .call call' :: rest) :
    (∃ position k below, s.stack t = .code position :: below ∧ m.next position = .call call' k) ∨
    (∃ position call result, s.stack t = .code position :: .call call :: rest ∧
      call' = m.resume call result) ∨
    ∃ call shared events, s.stack t = .call call :: rest ∧
      m.turn t choice s.shared call = some (shared, events, .stay call') := by
  cases (stepped_of_step h).2 with
  | @ended position below result hcode =>
      have hne : s.stack t ≠ [] := by simp [hcode]
      rw [State.stack_withStack_self _ hne] at hstack'
      rw [hcode] at hnest
      rcases hnest.below_code with rfl | ⟨call, below', rfl⟩
      · cases hstack'
      · cases hstack'
        exact .inr (.inl ⟨position, call, result, hcode, rfl⟩)
  | noted hcode _ | acted hcode =>
      have hne : s.stack t ≠ [] := by simp [hcode]
      cases (State.stack_withStack_self _ hne).symm.trans hstack'
  | @called position below call k hcode hnext =>
      have hne : s.stack t ≠ [] := by simp [hcode]
      cases (State.stack_withStack_self _ hne).symm.trans hstack'
      exact .inl ⟨position, k, below, hcode, hnext⟩
  | @turned call below shared events r aborted hcall hturn _ =>
      have hne : s.stack t ≠ [] := by simp [hcall]
      have hafter := (State.stack_withStack_self _ hne).symm.trans hstack'
      rw [hcall] at hnest
      cases r with
      | stay call'' =>
          cases hafter
          exact .inr (.inr ⟨call, shared, events, hcall, hturn⟩)
      | run _ _ | abort => cases hafter
      | ret _ | fail _ =>
          -- the code below the call goes on, or nothing is left
          cases hnest <;> cases hafter

/-- A thread that has ended makes no step, and no thread does after an abort. -/
theorem step_eq_none {m : Machine κ ω σ γ α ρ ε} {t : Tid} {s : State κ ω σ γ α ε}
    (h : s.aborted = false → s.stack t = []) (choice : Choice) : m.step t choice s = none := by
  cases haborted : s.aborted with
  | true => simp [step, haborted]
  | false => simp [step, haborted, stepThread, h haborted]

/-- A thread that makes a call can make a step exactly if the call can. -/
theorem isSome_step_call {m : Machine κ ω σ γ α ρ ε} {t : Tid} {s : State κ ω σ γ α ε} {call : γ}
    {rest : Stack κ γ α} (hlive : s.aborted = false) (hstack : s.stack t = .call call :: rest)
    (choice : Choice) :
    (m.step t choice s).isSome = (m.turn t choice s.shared call).isSome := by
  simp [step, hlive, stepThread, hstack]

/-- A thread whose topmost layer is no call goes on whatever the shared state is. -/
theorem isSome_step_code (m : Machine κ ω σ γ α ρ ε) {s s' : State κ ω σ γ α ε} {t : Tid}
    (hstack : s'.stack t = s.stack t) (hworld : s'.world = s.world)
    (haborted : s'.aborted = s.aborted) (hcode : ∀ call rest, s.stack t ≠ .call call :: rest)
    (choice : Choice) : (m.step t choice s').isSome = (m.step t choice s).isSome := by
  cases hlive : s.aborted with
  | true => simp [step, haborted, hlive]
  | false =>
      simp only [step, haborted, hlive, Bool.false_eq_true, if_false, stepThread, hstack]
      cases hframes : s.stack t with
      | nil => rfl
      | cons frame rest =>
          cases frame with
          | wait k => rfl
          | code position => cases hnext : m.next position <;> simp [hnext, hworld]
          | call call => exact absurd hframes (hcode call rest)

/-- A thread that makes a call makes the step of which the call has a turn. -/
theorem exists_step_of_turn {m : Machine κ ω σ γ α ρ ε} {t : Tid} {choice : Choice}
    {s : State κ ω σ γ α ε} {call : γ} {rest : Stack κ γ α} {shared : σ} {events : List ε}
    {turn : Turn κ γ α} (hlive : s.aborted = false) (hstack : s.stack t = .call call :: rest)
    (hturn : m.turn t choice s.shared call = some (shared, events, turn)) :
    ∃ s', m.step t choice s = some s' ∧ s'.shared = shared ∧
      s'.history = s.history ++ events.map (Prod.mk t) ∧ s'.stack t = afterTurn rest turn := by
  have hsome : (m.step t choice s).isSome = true := by
    rw [isSome_step_call hlive hstack, hturn]
    rfl
  obtain ⟨s', hstep⟩ := Option.isSome_iff_exists.mp hsome
  obtain ⟨shared', events', turn', hturn', hshared, hhistory, hafter⟩ := turn_of_step hstack hstep
  cases hturn.symm.trans hturn'
  exact ⟨s', hstep, hshared, hhistory, hafter⟩

/-- Whether the call of thread `t` may answer so in its next step. -/
def Answers (m : Machine κ ω σ γ α ρ ε) (s : State κ ω σ γ α ε) (t : Tid) (answer : α) : Prop :=
  s.aborted = false ∧ ∃ call rest choice shared events, s.stack t = .call call :: rest ∧
    m.turn t choice s.shared call = some (shared, events, .ret answer)

/-- What is reached from a reachable state is reachable. -/
theorem Reach.trans {m : Machine κ ω σ γ α ρ ε} {s₀ s s' : State κ ω σ γ α ε}
    (h : m.Reach s₀ s) (h' : m.Reach s s') : m.Reach s₀ s' := by
  induction h' with
  | start => exact h
  | step t choice _ hstep ih => exact .step t choice ih hstep

/-- Nothing is reached from a state in which no thread can make a step but the state itself. -/
theorem Reach.eq_of_stuck {m : Machine κ ω σ γ α ρ ε} {s s' : State κ ω σ γ α ε}
    (h : m.Reach s s') (hs : ∀ t choice, m.step t choice s = none) : s' = s := by
  induction h with
  | start => rfl
  | step t choice _ hstep ih =>
      subst ih
      rw [hs] at hstep
      cases hstep

/-- Nothing is reached from an aborted state but the state itself. -/
theorem Reach.eq_of_aborted {m : Machine κ ω σ γ α ρ ε} {s s' : State κ ω σ γ α ε}
    (h : m.Reach s s') (hs : s.aborted = true) : s' = s :=
  h.eq_of_stuck fun _ choice =>
    step_eq_none (fun hlive => by rw [hs] at hlive; cases hlive) choice

/-- A machine whose calls never abort is never aborted. -/
theorem Reach.not_aborted {m : Machine κ ω σ γ α ρ ε} {s₀ s : State κ ω σ γ α ε}
    (h : m.Reach s₀ s) (hs₀ : s₀.aborted = false)
    (hturn : ∀ t choice shared call r, m.turn t choice shared call = some r → r.2.2 ≠ .abort) :
    s.aborted = false := by
  induction h with
  | start => exact hs₀
  | step t choice _ hstep ih =>
      cases (stepped_of_step hstep).2 with
      | ended _ _ | noted _ _ | acted _ | called _ _ => exact ih
      | @turned _ _ _ _ _ aborted _ hst haborted =>
          cases aborted with
          | false => rfl
          | true => exact absurd (haborted.mp rfl) (hturn _ _ _ _ _ hst)

/-- Whether a scene is what a state shows. After an abort the scene keeps the calls that were
being made. -/
structure Shows (lib : Library κ σ γ α ρ ε) (v : Scene σ γ ε) (s : State κ ω σ γ α ε) :
    Prop where
  shared_eq : v.shared = s.shared
  history_eq : v.history = s.history
  calls_eq : s.aborted = false → ∀ t, v.calls t = callsOf (s.stack t)
  nested : ∀ t, Nested (lib.rooted t) (s.stack t)

/-- A thread that was started with a call and makes no call any more has ended. -/
theorem Shows.stack_eq_nil {lib : Library κ σ γ α ρ ε} {v : Scene σ γ ε} {s : State κ ω σ γ α ε}
    {t : Tid} (h : Shows lib v s) (hlive : s.aborted = false) (hroot : lib.rooted t = true)
    (hcalls : v.calls t = ⟨none, []⟩) : s.stack t = [] := by
  have hnest := h.nested t
  rw [hroot] at hnest
  exact hnest.eq_nil ((h.calls_eq hlive t).symm.trans hcalls)

/-- Thread `t` goes on with layers that hold the calls with which the scene goes on. -/
theorem Shows.withStack {lib : Library κ σ γ α ρ ε} {v v' : Scene σ γ ε}
    {s s' : State κ ω σ γ α ε} {t : Tid} {frames : Stack κ γ α} (h : Shows lib v s)
    (hlive : s.aborted = false) (hne : s.stack t ≠ []) (hnested : Nested (lib.rooted t) frames)
    (hstack : ∀ u, s'.stack u = (s.withStack t frames).stack u)
    (hshared : v'.shared = s'.shared) (hhistory : v'.history = s'.history)
    (hcalls : s'.aborted = false → v'.calls = Function.update v.calls t (callsOf frames)) :
    Shows lib v' s' where
  shared_eq := hshared
  history_eq := hhistory
  calls_eq := by
    intro hlive' u
    rw [hcalls hlive', hstack]
    by_cases hu : u = t
    · subst hu
      rw [Function.update_self, State.stack_withStack_self _ hne]
    · rw [Function.update_of_ne hu, State.stack_withStack_ne _ hu, h.calls_eq hlive]
  nested := by
    intro u
    rw [hstack]
    by_cases hu : u = t
    · subst hu
      rwa [State.stack_withStack_self _ hne]
    · rw [State.stack_withStack_ne _ hu]
      exact h.nested u

/-- The layers that a call leaves hold the calls that it leaves. -/
theorem callsOf_afterTurn {rooted : Bool} {call : γ} {rest : Stack κ γ α} {turn : Turn κ γ α}
    (h : Nested rooted (.call call :: rest)) (hturn : turn ≠ .abort) :
    callsOf (afterTurn rest turn) = Calls.after call (rest.filterMap Frame.call?) turn := by
  cases turn with
  | stay call' => rfl
  | run position call' => rfl
  | ret answer | fail fault => cases h <;> rfl
  | abort => exact absurd rfl hturn

/-- A step of a call shows as that step. -/
theorem Shows.turned {m : Machine κ ω σ γ α ρ ε} {lib : Library κ σ γ α ρ ε} (hfits : m.Fits lib)
    {v : Scene σ γ ε} {s s' : State κ ω σ γ α ε} {t : Tid} {choice : Choice} {call : γ}
    {rest : Stack κ γ α} (h : Shows lib v s) (hstack : s.stack t = .call call :: rest)
    (hstep : m.step t choice s = some s') :
    v.calls t = ⟨some call, rest.filterMap Frame.call?⟩ ∧ ∃ shared events turn,
      lib.turn t choice v.shared call = some (shared, events, turn) ∧
      (s'.aborted = true ↔ turn = .abort) ∧ s'.stack t = afterTurn rest turn ∧
      Shows lib ⟨shared, v.history ++ events.map (Prod.mk t),
        Function.update v.calls t (Calls.after call (rest.filterMap Frame.call?) turn)⟩ s' := by
  obtain ⟨hlive, hstep⟩ := stepped_of_step hstep
  have hne : s.stack t ≠ [] := by simp [hstack]
  have hcalls := h.calls_eq hlive t
  have hnest := h.nested t
  rw [hstack] at hcalls hnest
  refine ⟨hcalls, ?_⟩
  cases hstep with
  | ended _ hcode | noted hcode _ | acted hcode | called hcode _ =>
      rw [hstack] at hcode
      cases hcode
  | turned hcall hturn haborted =>
      rw [hstack] at hcall
      cases hcall
      rw [hfits.turn_eq, ← h.shared_eq] at hturn
      refine ⟨_, _, _, hturn, haborted, State.stack_withStack_self _ hne, h.withStack hlive hne
        (hnest.afterTurn _) (fun _ => rfl) rfl ?_ fun hlive' => ?_⟩
      · exact (congrArg (· ++ _) h.history_eq).trans (State.history_noting _ t _).symm
      · rw [callsOf_afterTurn hnest fun habort => ?_]
        simp [haborted.mpr habort] at hlive'

/-- A step of a state is a step of the scene that it shows, or changes nothing that shows. -/
theorem Shows.exists_step {m : Machine κ ω σ γ α ρ ε} {lib : Library κ σ γ α ρ ε}
    (hfits : m.Fits lib) {v : Scene σ γ ε} {s s' : State κ ω σ γ α ε} {t : Tid}
    {choice : Choice} (h : Shows lib v s) (hstep : m.step t choice s = some s') :
    ∃ v', (v' = v ∨ Scene.Step lib t v v') ∧ Shows lib v' s' := by
  obtain ⟨hlive, hstepped⟩ := stepped_of_step hstep
  have hcalls := h.calls_eq hlive t
  have hnest := h.nested t
  have hin : ∀ {position rest}, s.stack t = .code position :: rest → v.InCode lib t := by
    intro position rest hst
    rw [hst] at hcalls hnest
    refine ⟨by simp [hcalls], fun hroot => ?_⟩
    rw [hroot] at hnest
    simpa [hcalls] using hnest.waiting_ne_nil
  cases hstepped with
  | @ended position rest result hst =>
      have hne : s.stack t ≠ [] := by simp [hst]
      rw [hst] at hcalls hnest
      rcases hnest.below_code with rfl | ⟨call, rest', rfl⟩
      · -- a thread's own code ends: nothing shows
        refine ⟨v, .inl rfl, h.withStack hlive hne (hnest.finishCode (m := m) result)
          (fun _ => rfl) h.shared_eq h.history_eq fun _ => ?_⟩
        rw [Function.eq_update_iff]
        exact ⟨by simpa [finishCode] using hcalls, fun _ _ => rfl⟩
      · have hwaits : v.calls t = ⟨none, call :: rest'.filterMap Frame.call?⟩ := by
          simpa [Frame.call?] using hcalls
        refine ⟨_, .inr (.resumed result hwaits), h.withStack hlive hne
          (hnest.finishCode (m := m) result) (fun _ => rfl) h.shared_eq h.history_eq fun _ => ?_⟩
        simp [finishCode, hfits.resume_eq]
  | noted hst hnext =>
      have hne : s.stack t ≠ [] := by simp [hst]
      refine ⟨_, .inr (.noted (hin hst) (hfits.notes _ _ _ hnext)), ?_⟩
      rw [hst] at hcalls hnest
      refine h.withStack hlive hne (hnest.withPosition _) (fun _ => rfl) h.shared_eq ?_ fun _ => ?_
      · exact (congrArg (· ++ [(t, _)]) h.history_eq).trans (State.history_noting _ t [_]).symm
      · rw [Function.eq_update_iff]
        exact ⟨by simpa using hcalls, fun _ _ => rfl⟩
  | acted hst =>
      have hne : s.stack t ≠ [] := by simp [hst]
      rw [hst] at hcalls hnest
      refine ⟨v, .inl rfl, h.withStack hlive hne (hnest.withPosition _) (fun _ => rfl)
        h.shared_eq h.history_eq fun _ => ?_⟩
      rw [Function.eq_update_iff]
      exact ⟨by simpa using hcalls, fun _ _ => rfl⟩
  | called hst hnext =>
      have hne : s.stack t ≠ [] := by simp [hst]
      refine ⟨_, .inr (.called (hin hst) (hfits.begins _ _ _ hnext)), ?_⟩
      rw [hst] at hcalls hnest
      refine h.withStack hlive hne (.asked _ _ hnest) (fun _ => rfl) h.shared_eq h.history_eq
        fun _ => ?_
      simp [hcalls, List.filterMap_cons_none (f := Frame.call?) (a := .wait _) rfl]
  | turned hst _ _ =>
      obtain ⟨hcalls, shared, events, turn, hturn, -, -, hshows⟩ := h.turned hfits hst hstep
      exact ⟨_, .inr (.turned hcalls hturn), hshows⟩

/-- A call that goes on after code that it has run goes on with the end of this code. -/
theorem Shows.exists_end {m : Machine κ ω σ γ α ρ ε} {lib : Library κ σ γ α ρ ε}
    (hfits : m.Fits lib) {v v' : Scene σ γ ε} {s s' : State κ ω σ γ α ε} {t : Tid}
    {choice : Choice} {call call' : γ} {rest : List γ} (h : Shows lib v s) (h' : Shows lib v' s')
    (hstep : m.step t choice s = some s') (hwaits : v.calls t = ⟨none, call :: rest⟩)
    (hgoes : v'.calls t = ⟨some call', rest⟩) :
    ∃ position frames, s.stack t = .code position :: .call call :: frames ∧
      ((∃ result, m.next position = .ret result ∧ call' = lib.resume call (.ok result)) ∨
        ∃ fault, m.next position = .fail fault ∧ call' = lib.resume call (.error fault)) := by
  have hlive := (stepped_of_step hstep).1
  obtain ⟨position, frames, hstack, rfl⟩ :=
    (h.nested t).exists_code ((h.calls_eq hlive t).symm.trans hwaits)
  refine ⟨position, frames, hstack, ?_⟩
  have hne : s.stack t ≠ [] := by simp [hstack]
  -- what the thread goes on with shows in the calls that it makes then
  have hshown : ∀ {s₁ : State κ ω σ γ α ε} {frames' : Stack κ γ α}, s' = s₁ →
      s₁.aborted = false → s₁.stack t = frames' →
      callsOf frames' = ⟨some call', frames.filterMap Frame.call?⟩ := by
    rintro s₁ frames' rfl hlive' rfl
    rw [← h'.calls_eq hlive', hgoes]
  simp only [step, hlive, Bool.false_eq_true, if_false, stepThread, hstack] at hstep
  split at hstep
  · next result hnext =>
    have hcalls := hshown (Option.some.inj hstep).symm hlive (State.stack_withStack_self _ hne)
    rw [finishCode, callsOf_call, hfits.resume_eq, Calls.mk.injEq, Option.some.injEq] at hcalls
    exact .inl ⟨result, hnext, hcalls.1.symm⟩
  · next fault hnext =>
    have hcalls := hshown (Option.some.inj hstep).symm hlive (State.stack_withStack_self _ hne)
    rw [finishCode, callsOf_call, hfits.resume_eq, Calls.mk.injEq, Option.some.injEq] at hcalls
    exact .inr ⟨fault, hnext, hcalls.1.symm⟩
  · cases hshown (Option.some.inj hstep).symm hlive (State.stack_withStack_self _ hne)
  · obtain ⟨⟨world, position'⟩, -, heq⟩ := Option.map_eq_some_iff.mp hstep
    cases hshown heq.symm hlive (State.stack_withStack_self _ hne)
  · have hcalls := hshown (Option.some.inj hstep).symm hlive (State.stack_withStack_self _ hne)
    have hlength := congrArg (fun calls => calls.waiting.length) hcalls
    exact absurd hlength (Nat.succ_ne_self _)

/-- Threads that are about to run code show a scene without calls. -/
theorem shows_ofCodes {lib : Library κ σ γ α ρ ε} (hroot : ∀ t, lib.rooted t = false)
    (shared : σ) (world : ω) (codes : List κ) :
    Shows lib ⟨shared, [], fun _ => ⟨none, []⟩⟩ (State.ofCodes shared world codes) where
  shared_eq := rfl
  history_eq := rfl
  calls_eq := by
    intro _ t
    obtain h | ⟨code, h⟩ := State.stack_ofCodes rfl t <;> rw [h] <;> rfl
  nested := by
    intro t
    rw [hroot]
    obtain h | ⟨code, h⟩ := State.stack_ofCodes rfl t <;> rw [h]
    · exact .done false
    · exact .code code

/-! ### The threads of a run -/

/-- A thread that makes a step is one of the state's threads. -/
theorem lt_of_step {m : Machine κ ω σ γ α ρ ε} {t : Tid} {choice : Choice}
    {s s' : State κ ω σ γ α ε} (h : m.step t choice s = some s') : t < s.threads.length := by
  have hne : s.stack t ≠ [] := by
    intro hnil
    rw [step_eq_none fun _ => hnil] at h
    cases h
  by_contra hge
  exact hne (by simp [State.stack, List.getElem?_eq_none (Nat.not_lt.mp hge)])

/-- No thread comes or goes in a run. -/
theorem Reach.length_threads {m : Machine κ ω σ γ α ρ ε} {s₀ s : State κ ω σ γ α ε}
    (h : m.Reach s₀ s) : s.threads.length = s₀.threads.length := by
  induction h with
  | start => rfl
  | step t choice _ hstep ih =>
      rw [← ih]
      cases (stepped_of_step hstep).2 <;> exact List.length_set

/-- A run is not aborted, or its last step was the abort: the thread that made it has ended, and
the others stand where they stood. -/
theorem Reach.live_or_aborted {m : Machine κ ω σ γ α ρ ε} {s₀ s : State κ ω σ γ α ε}
    (h : m.Reach s₀ s) (hs₀ : s₀.aborted = false) :
    s.aborted = false ∨ ∃ s₁ t choice call rest events, m.Reach s₀ s₁ ∧ s₁.aborted = false ∧
      s₁.stack t = .call call :: rest ∧
      m.turn t choice s₁.shared call = some (s.shared, events, .abort) ∧
      s.stack t = [] ∧ ∀ u, u ≠ t → s.stack u = s₁.stack u := by
  cases h with
  | start => exact .inl hs₀
  | @step s₁ s t choice hreach hstep =>
      obtain ⟨hlive, hstep⟩ := stepped_of_step hstep
      cases hstep with
      | ended _ _ | noted _ _ | acted _ | called _ _ => exact .inl hlive
      | @turned call rest shared events turn aborted hstack hturn haborted =>
          cases aborted with
          | false => exact .inl rfl
          | true =>
              obtain rfl := haborted.mp rfl
              have hne : s₁.stack t ≠ [] := by simp [hstack]
              exact .inr ⟨s₁, t, choice, call, rest, events, hreach, hlive, hstack, hturn,
                State.stack_withStack_self _ hne, fun u hu => State.stack_withStack_ne _ hu⟩

/-- **Invariants of a run.** What holds of the scene at the start, and is kept by every step of
one of the run's threads, holds of a scene that the state shows. -/
theorem Fits.exists_shows {m : Machine κ ω σ γ α ρ ε} {lib : Library κ σ γ α ρ ε}
    (hfits : m.Fits lib) {v₀ : Scene σ γ ε} {s₀ s : State κ ω σ γ α ε} {P : Scene σ γ ε → Prop}
    (hs₀ : Shows lib v₀ s₀) (hstart : P v₀)
    (hkeeps : ∀ t v v', t < s₀.threads.length → Scene.Reach lib v₀ v → P v →
      Scene.Step lib t v v' → P v')
    (h : m.Reach s₀ s) : ∃ v, Scene.Reach lib v₀ v ∧ Shows lib v s ∧ P v := by
  induction h with
  | start => exact ⟨v₀, .start, hs₀, hstart⟩
  | step t choice hreach hstep ih =>
      obtain ⟨v, hv, hshows, hP⟩ := ih
      obtain ⟨v', rfl | hv', hshows'⟩ := hshows.exists_step hfits hstep
      · exact ⟨v', hv, hshows', hP⟩
      · have hlt := lt_of_step hstep
        rw [hreach.length_threads] at hlt
        exact ⟨v', hv.step t hv', hshows', hkeeps t v v' hlt hv hP hv'⟩

/-- Every reachable state shows a reachable scene. -/
theorem Fits.reach_shows {m : Machine κ ω σ γ α ρ ε} {lib : Library κ σ γ α ρ ε}
    (hfits : m.Fits lib) {v₀ : Scene σ γ ε} {s₀ s : State κ ω σ γ α ε} (hs₀ : Shows lib v₀ s₀)
    (h : m.Reach s₀ s) : ∃ v, Scene.Reach lib v₀ v ∧ Shows lib v s := by
  obtain ⟨v, hv, hshows, -⟩ :=
    hfits.exists_shows (P := fun _ => True) hs₀ trivial (fun _ _ _ _ _ _ _ => trivial) h
  exact ⟨v, hv, hshows⟩

end Machine

end Offload
