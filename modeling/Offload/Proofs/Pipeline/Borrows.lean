import Offload.Proofs.Pipeline.Delivery
import Offload.Proofs.Pipeline.Runs

/-!
# The borrowers of a pipeline

A call on the owner's behalf **borrows** the pipeline from its beginning to its end, and the
pipeline counts its borrowers. It is taken from its owner only when there are none, and nobody
borrows it afterwards. Results are taken out by borrowers only, so a teardown that counts what is in
the finished channel counts what stays there.

## Main results

* `borrowed_of_moved`: who borrows the pipeline, kept by every step of every thread.
* `finished_of_turn`: no other call takes a result out, and none but the worker adds one.
-/

namespace Offload.Pipeline

variable {κ V E ν : Type} {plan : Plan κ} {t : Tid} {choice : Choice} {s s' : Pipeline κ V E}
  {events : List (Event V E ν)} {call : Call κ V E} {r : Turn κ (Call κ V E) Answer}

/-! ### One step of a call -/

/-- Whether a call borrows the pipeline. -/
def Call.borrows : Call κ V E → Bool
  | .inside _ | .closing _ => true
  | .opening _ | .handle _ | .taking _ | .teardown _ | .work _ => false

/-- Whether a step leaves the owner and the number of the borrowers alone. -/
structure SameBorrows (s s' : Pipeline κ V E) : Prop where
  owned_eq : s'.owned = s.owned
  borrows_eq : s'.borrows = s.borrows

theorem sameBorrows_drain {stage : Drain κ V E} {r' : Turn κ (Drain κ V E) Bool}
    (h : stage.turn t choice s = some (s', events, r')) : SameBorrows s s' := by
  cases stage with
  | going left =>
      cases left <;>
      · cases h
        exact ⟨rfl, rfl⟩
  | popping left p =>
      obtain ⟨finished, marks, r'', -, rfl, -, -⟩ := exists_of_onFinished h
      exact ⟨rfl, rfl⟩
  | delivering left result =>
      cases h
      exact ⟨rfl, rfl⟩
  | checking phase =>
      obtain ⟨⟨finished, r''⟩, -, heq⟩ := Option.map_eq_some_iff.mp h
      cases heq
      exact ⟨rfl, rfl⟩
  | failing fault =>
      cases h
      exact ⟨rfl, rfl⟩

theorem sameBorrows_await {stage : Await κ V E} {r' : Turn κ (Await κ V E) Bool}
    (h : stage.turn t choice s = some (s', events, r')) : SameBorrows s s' := by
  cases stage with
  | popping p =>
      obtain ⟨finished, marks, r'', -, rfl, -, -⟩ := exists_of_onFinished h
      exact ⟨rfl, rfl⟩
  | delivering result =>
      cases h
      exact ⟨rfl, rfl⟩
  | ending outcome =>
      cases outcome <;>
      · cases h
        exact ⟨rfl, rfl⟩

theorem sameBorrows_scheduling {stage : Schedule κ V E}
    {r' : Turn κ (Schedule κ V E) (Except Failure Unit)}
    (h : stage.turn t choice s = some (s', events, r')) : SameBorrows s s' := by
  cases Schedule.turned_of_turn h <;> exact ⟨rfl, rfl⟩

theorem sameBorrows_use {use : Use κ V E} {r' : Turn κ (Use κ V E) Answer}
    (h : use.turn plan t choice s = some (s', events, r')) : SameBorrows s s' := by
  cases use with
  | schedule stage =>
      obtain ⟨r'', hturn, -⟩ := exists_of_nest h
      exact sameBorrows_scheduling hturn
  | draining stage =>
      obtain ⟨r'', hturn, -⟩ := exists_of_nest h
      exact sameBorrows_drain hturn
  | await stage =>
      obtain ⟨r'', hturn, -⟩ := exists_of_nest h
      exact sameBorrows_await hturn
  | pendingSize phase | finishedSize phase =>
      obtain ⟨⟨channel, r''⟩, -, heq⟩ := Option.map_eq_some_iff.mp h
      cases heq
      exact ⟨rfl, rfl⟩
  | drain _ | busy =>
      cases h
      exact ⟨rfl, rfl⟩

theorem sameBorrows_handle {use : HandleUse κ V E} {r' : Turn κ (HandleUse κ V E) Answer}
    (h : use.turn t choice s = some (s', events, r')) : SameBorrows s s' := by
  cases use with
  | schedule stage =>
      obtain ⟨r'', hturn, -⟩ := exists_of_nest h
      exact sameBorrows_scheduling hturn
  | accepting phase =>
      obtain ⟨⟨intake, progress⟩, -, heq⟩ := Option.map_eq_some_iff.mp h
      cases heq
      exact ⟨rfl, rfl⟩

/-- What one step of a call does to the borrowers, where `next` is the call that goes on. -/
inductive Lends (s : Pipeline κ V E) (call : Call κ V E) :
    Pipeline κ V E → Option (Call κ V E) → Prop where
  /-- The call borrows the pipeline, which has an owner. -/
  | lent {s' : Pipeline κ V E} {call' : Call κ V E} : s.owned = true → s'.owned = true →
      s'.borrows = s.borrows + 1 → call.borrows = false → call'.borrows = true →
      Lends s call s' (some call')
  /-- The call gives the pipeline back, and ends. -/
  | returned {s' : Pipeline κ V E} : s'.owned = s.owned → s'.borrows = s.borrows - 1 →
      call.borrows = true → Lends s call s' none
  /-- The pipeline is taken from its owner, unborrowed. -/
  | taken {s' : Pipeline κ V E} {call' : Call κ V E} : s.borrows = 0 → s'.borrows = 0 →
      call.borrows = false → call'.borrows = false → Lends s call s' (some call')
  /-- The call borrows the pipeline, or does not, as it did. -/
  | same {s' : Pipeline κ V E} {next : Option (Call κ V E)} : SameBorrows s s' →
      next.elim false Call.borrows = call.borrows → Lends s call s' next

/-- **Borrowing, one step of a call.** -/
theorem lends_of_turn (h : turn plan t choice s call = some (s', events, r)) (hlive : r ≠ .abort) :
    Lends s call s' r.next? := by
  cases Call.turned_of_turn h with
  | lent use howned => exact .lent howned howned rfl rfl rfl
  | refused _ _ | missed _ _ => exact .same ⟨rfl, rfl⟩ rfl
  | @inside _ _ _ r' hturn =>
      refine .same (sameBorrows_use hturn) ?_
      cases r' with
      | stay _ | run _ _ | ret _ | fail _ => rfl
      | abort => exact absurd rfl hlive
  | answered _ | failed _ => exact .returned rfl rfl rfl
  | @handle _ _ _ r' hturn =>
      refine .same (sameBorrows_handle hturn) ?_
      cases r' <;> rfl
  | taken reporting _ hzero => exact .taken hzero hzero rfl rfl
  | @teardown _ _ _ r' hturn =>
      refine .same ?_ ?_
      · cases Teardown.turned_of_turn hturn <;> exact ⟨rfl, rfl⟩
      · cases r' <;> rfl
  | @work _ _ _ r' hturn =>
      refine .same ?_ ?_
      · cases Work.turned_of_turn hturn <;> exact ⟨rfl, rfl⟩
      · cases r' <;> rfl

/-- A call that does not borrow the pipeline delivers nothing. -/
theorem source_ne_delivery (hsound : call.IsSound) (hborrows : call.borrows = false)
    (h : turn plan t choice s call = some (s', events, r)) :
    ∀ event ∈ events, event.source ≠ .delivery := by
  cases Call.turned_of_turn h with
  | lent _ _ | refused _ _ | missed _ _ | taken _ _ _ => rintro _ ⟨⟩
  | @handle use _ _ _ _ => cases use <;> exact (quiet_of_turn hsound (by rintro ⟨⟩) h).1
  | teardown _ | work _ => exact (quiet_of_turn hsound (by rintro ⟨⟩) h).1
  | inside _ | answered _ | failed _ => cases hborrows

/-- **What is finished stays** while neither the worker nor a borrower makes a step. -/
theorem finished_of_turn (hsound : call.IsSound) (hborrows : call.borrows = false)
    (hworker : call.part.working? = none)
    (h : turn plan t choice s call = some (s', events, r)) :
    s'.finished.value.length = s.finished.value.length := by
  have hbalance := (balanced_of_turn hsound h).finished
  rw [ticketsAt_eq_nil_of_ne (m := .published) (bystander_of_turn hsound hworker h).1.source_ne,
    ticketsAt_eq_nil_of_ne (m := .received) (source_ne_delivery hsound hborrows h),
    List.append_nil, List.nil_append] at hbalance
  simpa using (congrArg List.length hbalance).symm

/-! ### All runs -/

/-- Whether these threads borrow the pipeline, each as often as it does, and none when the pipeline
has no owner. -/
structure Borrowed (borrowers : List Tid) (v : View κ V E ν) : Prop where
  length : borrowers.length = v.shared.borrows
  count : ∀ t, borrowers.count t = (v.calls t).all.countP Call.borrows
  owned : v.shared.owned = false → borrowers = []

theorem borrows_call (request : Request κ V E) : request.call.borrows = false := by
  cases request <;> rfl

theorem borrows_resume (call : Call κ V E) (result : Except Fault (Except E V)) :
    (resume call result).borrows = call.borrows := by
  cases call <;> rfl

/-- The calls of thread `t` change, of which so many borrow as of the threads are `t`. -/
theorem count_update {v : View κ V E ν} {c : Calls (Call κ V E)} {borrowers borrowers' : List Tid}
    (hcount : ∀ u, borrowers.count u = (v.calls u).all.countP Call.borrows)
    (hother : ∀ u, u ≠ t → borrowers'.count u = borrowers.count u)
    (hself : borrowers'.count t = c.all.countP Call.borrows) :
    ∀ u, borrowers'.count u = (Function.update v.calls t c u).all.countP Call.borrows := by
  rw [Function.forall_update_iff v.calls
    (p := fun u c => borrowers'.count u = c.all.countP Call.borrows)]
  exact ⟨hself, fun u hu => (hother u hu).trans (hcount u)⟩

/-- **Borrowing, one step.** -/
theorem borrowed_of_moved {v v' : View κ V E ν} {borrowers : List Tid} (h : Moved plan t v v')
    (hv : Borrowed borrowers v) : ∃ borrowers', Borrowed borrowers' v' := by
  cases h with
  | still => exact ⟨borrowers, hv⟩
  | noted note _ => exact ⟨borrowers, hv.length, hv.count, hv.owned⟩
  | began request hcode =>
      refine ⟨borrowers, hv.length, count_update hv.count (fun _ _ => rfl) ?_, hv.owned⟩
      rw [hv.count t, Calls.all, Calls.all, hcode.1]
      simp [borrows_call]
  | @resumed call rest result hwaits =>
      refine ⟨borrowers, hv.length, count_update hv.count (fun _ _ => rfl) ?_, hv.owned⟩
      rw [hv.count t, hwaits]
      simp [Calls.all, List.countP_cons, borrows_resume]
  | @turned call rest choice s' events r hactive hsound hturn hlive =>
      have hcount := hv.count t
      rw [hactive, Calls.all, Option.toList_some, List.singleton_append, List.countP_cons] at hcount
      have hafter : (Calls.after call rest r).all.countP Call.borrows =
          (r.next?.elim false Call.borrows).toNat + rest.countP Call.borrows := by
        rw [Calls.all_after hlive, List.countP_append]
        cases r.next? with
        | none => rfl
        | some call' => cases hborrows : call'.borrows <;> simp [hborrows]
      have hlends := lends_of_turn hturn hlive
      generalize r.next? = next at hlends hafter
      cases hlends with
      | lent _ howned' hborrows hcall hcall' =>
          refine ⟨t :: borrowers, ?_, count_update hv.count (fun u hu => ?_) ?_, fun hnone => ?_⟩
          · rw [List.length_cons, hv.length, ← hborrows]
          · exact List.count_cons_of_ne (Ne.symm hu)
          · rw [List.count_cons_self, hcount, hafter, Option.elim_some, hcall, hcall']
            simp [Nat.add_comm]
          · cases howned'.symm.trans hnone
      | returned howned hborrows hcall =>
          rw [hcall, if_pos rfl] at hcount
          have hmem : t ∈ borrowers := List.count_pos_iff.mp (by omega)
          refine ⟨borrowers.erase t, ?_, count_update hv.count (fun u hu => ?_) ?_, fun hnone => ?_⟩
          · rw [List.length_erase_of_mem hmem, hv.length]
            exact hborrows.symm
          · exact List.count_erase_of_ne hu
          · rw [List.count_erase_self, hcount, hafter]
            simp
          · rw [hv.owned (howned.symm.trans hnone)]
            rfl
      | taken hzero hzero' hcall hcall' =>
          have hnil : borrowers = [] := List.length_eq_zero_iff.mp (hv.length.trans hzero)
          refine ⟨borrowers, hv.length.trans (hzero.trans hzero'.symm),
            count_update hv.count (fun _ _ => rfl) ?_, fun _ => hnil⟩
          rw [hcount, hafter, Option.elim_some, hcall, hcall']
          simp
      | same hsame hnext =>
          refine ⟨borrowers, hv.length.trans hsame.borrows_eq.symm,
            count_update hv.count (fun _ _ => rfl) ?_,
            fun hnone => hv.owned (hsame.owned_eq.symm.trans hnone)⟩
          rw [hcount, hafter, hnext]
          cases call.borrows <;> simp [Nat.add_comm]

theorem borrowed_opening : Borrowed [] (opening : View κ V E ν) := by
  refine ⟨rfl, fun t => ?_, fun _ => rfl⟩
  rw [List.count_nil, eq_comm, List.countP_eq_zero]
  intro call hcall
  rw [eq_of_mem_opening hcall]
  exact Bool.false_ne_true

/-- The borrowers of every reachable scene are known. -/
theorem exists_borrowed {v : View κ V E ν} (h : Scene.Reach (library plan) opening v) :
    ∃ borrowers, Borrowed borrowers v := by
  refine h.invariant (P := fun v => ∃ borrowers, Borrowed borrowers v) ⟨[], borrowed_opening⟩ ?_
  rintro t v v' hs ⟨borrowers, hborrowed⟩ hstep
  exact borrowed_of_moved (moved_of_reach hs hstep) hborrowed

/-- **Borrowers.** Nobody borrows a pipeline that has no owner. -/
theorem borrows_eq_false {v : View κ V E ν} (h : Scene.Reach (library plan) opening v)
    (howned : v.shared.owned = false) {call : Call κ V E} (hcall : call ∈ (v.calls t).all) :
    call.borrows = false := by
  obtain ⟨borrowers, hborrowed⟩ := exists_borrowed h
  have hcount := hborrowed.count t
  rw [hborrowed.owned howned, List.count_nil, eq_comm, List.countP_eq_zero] at hcount
  simpa using hcount call hcall

/-- The borrows of a thread are counted. -/
theorem countP_borrows_le {v : View κ V E ν} (h : Scene.Reach (library plan) opening v) (t : Tid) :
    (v.calls t).all.countP Call.borrows ≤ v.shared.borrows := by
  obtain ⟨borrowers, hborrowed⟩ := exists_borrowed h
  rw [← hborrowed.count t, ← hborrowed.length]
  exact List.count_le_length

end Offload.Pipeline
