import Offload.Proofs.Pipeline.Ledger
import Offload.Proofs.Pipeline.Staff
import Offload.Script

/-!
# Runs of a pipeline

A run starts with a new pipeline, the worker's thread about to start, and any number of other
threads about to run any code. In every state that it reaches the pipeline is **orderly**: the gate,
the way down, the books and the worker's tally are as they should be.

## Main results

* `orderly_of_reach`: every reachable scene is orderly.
* `exists_shows`: every reachable state shows a reachable scene.
* `worker_eq`: the worker is read off the layers of its thread.
-/

namespace Offload.Pipeline

variable {κ ω V E ν : Type} {plan : Plan κ} {t : Tid}

/-- The state in which the worker's thread is about to start and other threads are about to run the
given code. -/
def start (world : ω) (codes : List κ) :
    State κ ω (Pipeline κ V E) (Call κ V E) Answer (Event V E ν) :=
  { shared := {}, world := world, threads := workerStack :: codes.map fun code => [.code code] }

/-- The scene in which the worker's thread is about to start. -/
def opening : View κ V E ν where
  shared := {}
  history := []
  calls t := if t = workerThread then ⟨some (.work .start), []⟩ else ⟨none, []⟩

/-- The calls at the start. -/
theorem calls_opening (t : Tid) :
    t = workerThread ∧ (opening : View κ V E ν).calls t = ⟨some (.work .start), []⟩ ∨
      t ≠ workerThread ∧ (opening : View κ V E ν).calls t = ⟨none, []⟩ := by
  by_cases ht : t = workerThread
  · exact .inl ⟨ht, if_pos ht⟩
  · exact .inr ⟨ht, if_neg ht⟩

/-- The threads at the start. -/
theorem stack_start (world : ω) (codes : List κ) (t : Tid) :
    t = workerThread ∧ (start world codes : State κ ω (Pipeline κ V E) (Call κ V E) Answer
        (Event V E ν)).stack t = [.call (.work .start)] ∨
      t ≠ workerThread ∧ ((start world codes : State κ ω (Pipeline κ V E) (Call κ V E) Answer
          (Event V E ν)).stack t = [] ∨
        ∃ code, (start world codes : State κ ω (Pipeline κ V E) (Call κ V E) Answer
          (Event V E ν)).stack t = [.code code]) := by
  cases t with
  | zero => exact .inl ⟨rfl, rfl⟩
  | succ t =>
      refine .inr ⟨nofun, ?_⟩
      simp only [State.stack, start, List.getElem?_cons_succ, List.getElem?_map]
      cases codes[t]? with
      | none => exact .inl rfl
      | some code => exact .inr ⟨code, rfl⟩

theorem shows_start (plan : Plan κ) (world : ω) (codes : List κ) :
    Machine.Shows (library plan) (opening : View κ V E ν) (start world codes) where
  shared_eq := rfl
  history_eq := rfl
  calls_eq := by
    intro _ t
    rcases stack_start (V := V) (E := E) (ν := ν) world codes t with ⟨rfl, h⟩ | ⟨ht, h⟩
    · rw [h]
      rfl
    · rw [show (opening : View κ V E ν).calls t = ⟨none, []⟩ from if_neg ht]
      obtain h | ⟨code, h⟩ := h <;> rw [h] <;> rfl
  nested := by
    intro t
    rcases stack_start (V := V) (E := E) (ν := ν) world codes t with ⟨rfl, h⟩ | ⟨ht, h⟩
    · rw [h]
      exact .call _
    · have hroot : (library plan : Library κ (Pipeline κ V E) (Call κ V E) Answer (Except E V)
          (Event V E ν)).rooted t = false := by
        simpa [library] using ht
      rw [hroot]
      obtain h | ⟨code, h⟩ := h <;> rw [h]
      · exact .done false
      · exact .code code

/-! ### Order -/

/-- What holds of a pipeline at every moment. -/
structure Orderly (v : View κ V E ν) : Prop where
  gated : Gated v
  closing : ∃ u d, Closing u d v
  ledger : Ledger v
  staff : ∃ w, Staff w v

/-- At the start there is no call but the worker's. -/
theorem eq_of_mem_opening {call : Call κ V E}
    (h : call ∈ ((opening : View κ V E ν).calls t).all) : call = .work .start := by
  rcases calls_opening (V := V) (E := E) (ν := ν) t with ⟨-, hcalls⟩ | ⟨-, hcalls⟩ <;>
    rw [hcalls] at h
  · exact List.mem_singleton.mp h
  · cases h

theorem eq_of_active_opening {call : Call κ V E}
    (h : ((opening : View κ V E ν).calls t).active = some call) : call = .work .start :=
  eq_of_mem_opening (List.mem_append_left _ (by rw [h]; exact List.mem_singleton_self _))

theorem gated_opening : Gated (opening : View κ V E ν) := by
  refine ⟨fun t call hcall => ?_, fun t call hcall hholds => ?_, fun t call hcall hahead => ?_⟩
  · rw [eq_of_mem_opening (List.mem_append_right _ hcall)]
    rfl
  · rw [eq_of_active_opening hcall] at hholds
    cases hholds
  · rw [eq_of_active_opening hcall] at hahead
    exact absurd rfl hahead

theorem closing_opening : Closing workerThread none (opening : View κ V E ν) := by
  have hpassed : ∀ x, ¬ Passed x ([] : List (Tid × Event V E ν)) := by
    rintro x ⟨entry, hentry, -⟩
    cases hentry
  refine ⟨fun t => ?_, fun _ => ⟨rfl, rfl⟩, fun _ hd => ?_, fun _ hd => ?_,
    ⟨fun _ => ⟨hpassed _, hpassed _⟩, ?_, fun _ => rfl, fun hstop => ?_, ?_, Nat.zero_le _, ?_⟩⟩
  · obtain ⟨rfl, h⟩ | ⟨ht, h⟩ := calls_opening (V := V) (E := E) (ν := ν) t <;> rw [h]
    · rfl
    · rw [if_neg ht]
      rfl
  · cases hd
  · cases hd
  · rintro (h | h | h)
    · exact absurd h (hpassed _)
    · exact absurd h (hpassed _)
    · exact absurd h (hpassed _)
  · cases hstop
  · intro before after hsplit
    cases before <;> cases hsplit
  · exact fun h => absurd h (hpassed _)

theorem ledger_opening : Ledger (opening : View κ V E ν) := by
  refine ⟨rfl, rfl, .nil, fun k hk => ?_, fun t call ticket task hcall hahead => ?_⟩
  · cases hk
  · rw [eq_of_active_opening hcall] at hahead
    cases hahead

theorem staff_opening : Staff (some .start) (opening : View κ V E ν) := by
  refine ⟨fun t => ?_, bottomed_singleton (w := .start) rfl, fun w hw => ?_, ?_, rfl, ?_, rfl⟩
  · obtain ⟨rfl, h⟩ | ⟨ht, h⟩ := calls_opening (V := V) (E := E) (ν := ν) t <;> rw [h]
    · rfl
    · rw [if_neg ht]
      rfl
  · cases hw
  · exact ⟨nofun, fun h => absurd rfl h⟩
  · exact ⟨[], rfl, Nat.zero_le _, fun h => absurd rfl h⟩

/-- **Order, one step.** -/
theorem orderly_of_moved {v v' : View κ V E ν} (h : Moved plan t v v') (hv : Orderly v) :
    Orderly v' := by
  obtain ⟨u, d, hclosing⟩ := hv.closing
  obtain ⟨w, hstaff⟩ := hv.staff
  exact ⟨gated_of_moved h hv.gated, closing_of_moved h hv.gated hclosing,
    ledger_of_moved h hv.gated hclosing.kept hv.ledger, staff_of_moved h hstaff⟩

/-- Every call of a reachable scene is sound. -/
theorem isSound_of_opening {v : View κ V E ν} (h : Scene.Reach (library plan) opening v) :
    ∀ t, ∀ call ∈ (v.calls t).all, call.IsSound := by
  refine isSound_of_reach h fun t call hcall => ?_
  rw [eq_of_mem_opening hcall]
  exact ⟨trivial, trivial, fun _ _ => nofun⟩

/-- A step of a reachable scene shows as a step of a pipeline. -/
theorem moved_of_reach {v v' : View κ V E ν} (hv : Scene.Reach (library plan) opening v)
    (h : Scene.Step (library plan) t v v') : Moved plan t v v' :=
  moved_of_step h (isSound_of_opening hv)

/-- **Order.** Every reachable scene is orderly. -/
theorem orderly_of_reach {v : View κ V E ν} (h : Scene.Reach (library plan) opening v) :
    Orderly v :=
  h.invariant ⟨gated_opening, ⟨_, _, closing_opening⟩, ledger_opening, ⟨_, staff_opening⟩⟩
    fun _ _ _ hs hv hstep => orderly_of_moved (moved_of_reach hs hstep) hv

/-! ### States -/

section States

variable {next : κ → Move κ ω (Request κ V E) Answer (Except E V) ν} {world : ω} {codes : List κ}
  {s : State κ ω (Pipeline κ V E) (Call κ V E) Answer (Event V E ν)} {v : View κ V E ν}

/-- Every reachable state shows a reachable scene. -/
theorem exists_shows (h : (machine plan next).Reach (start world codes) s) :
    ∃ v, Scene.Reach (library plan) opening v ∧ Machine.Shows (library plan) v s :=
  (machine_fits plan next).reach_shows (shows_start plan world codes) h

/-- What the worker is doing, read off the layers of its thread, unless it has ended. -/
def worker (s : State κ ω (Pipeline κ V E) (Call κ V E) Answer (Event V E ν)) :
    Option (Work κ V E) :=
  (picks Part.working? (callsOf (s.stack workerThread)).all).head?

theorem worker_eq {w : Option (Work κ V E)} (hshows : Machine.Shows (library plan) v s)
    (hlive : s.aborted = false) (hstaff : Staff w v) : worker s = w := by
  rw [worker, ← hshows.calls_eq hlive, hstaff.sole workerThread, if_pos rfl]
  cases w <;> rfl

end States

/-! ### A run in which a shutdown comes between two tasks -/

/-- What the code of the run asks for. -/
inductive Wish where
  /-- Schedules a task that does nothing. -/
  | schedule
  | shutDown

/-- The code of the run. -/
abbrev Wisher := Script Wish Answer Unit Unit (Except Unit Unit)

/-- The request that a wish stands for. -/
def Wish.request : Wish → Request Wisher Unit Unit
  | .schedule => .handing { body := some (.ret (.ok ())) }
  | .shutDown => .taking true

/-- Schedules two tasks and shuts the pipeline down. -/
def twoAndShutDown : Wisher := do
  Script.all (([.schedule, .schedule, .shutDown] : List Wish).map fun wish => do
    let _ ← Script.ask wish)
  pure (.ok ())

/-- The states of the run. -/
abbrev Wished := State Wisher Unit (Pipeline Wisher Unit Unit) (Call Wisher Unit Unit) Answer
  (Event Unit Unit Unit)

/-- The machine of the run. -/
abbrev wishing : Machine Wisher Unit (Pipeline Wisher Unit Unit) (Call Wisher Unit Unit) Answer
    (Except Unit Unit) (Event Unit Unit Unit) :=
  machine {} (Script.next Wish.request)

/-- The state in which the worker has the first task in hand and the shutdown waits for its end:
two tasks have been scheduled, and the second has been discarded. -/
def midway : Wished :=
  wishing.settle [(1, .go 0)] 40
    (wishing.settle [(0, .go 0)] 4 (wishing.settle [(1, .go 0)] 22 (start () [twoAndShutDown])))

/-- The state in which everything has come to its end. -/
def atTheEnd : Wished :=
  wishing.settle [(0, .go 0), (1, .go 0)] 60 midway

theorem reach_midway : wishing.Reach (start () [twoAndShutDown]) midway :=
  Machine.reach_settle _ _ (Machine.reach_settle _ _ (Machine.reach_settle _ _ .start))

theorem reach_atTheEnd : wishing.Reach midway atTheEnd :=
  Machine.reach_settle _ _ .start

end Offload.Pipeline
