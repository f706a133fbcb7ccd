import Offload.Proofs.Pipeline.Runs

/-!
# No task is lost, doubled or overtaken

What has been accepted is, in this order, what has begun, at most one task that the worker has in
hand, and what is pending, or what has been discarded once the pending channel was cleared. What
has begun is what has been published, and at most one task more: the one that runs, or the one that
a fault has struck. What has been published is what has been received for delivery and what is in
the finished channel.

## Main results

* `tasks_conserved`: this, in every reachable state of every run.
-/

namespace Offload.Pipeline

variable {κ ω V E ν : Type} {plan : Plan κ}

/-! ### Scenes -/

section Scenes

variable {v : View κ V E ν} {w : Option (Work κ V E)}

/-- What has been accepted, in order. -/
theorem accepted_eq (hledger : Ledger v) (hkept : Kept v.shared v.history) (hstaff : Staff w v) :
    (¬ Passed .cleared v.history → reached .accepted v.history = reached .begun v.history ++
        w.elim [] Work.hand ++ ticketsOf v.shared.pending.value) ∧
      (Passed .cleared v.history → ticketsOf v.shared.pending.value = [] ∧
        reached .accepted v.history = reached .begun v.history ++ w.elim [] Work.hand ++
          reached .discarded v.history) := by
  rw [hledger.pending, hstaff.tally.taken]
  refine ⟨fun hnot => ?_, fun hcleared => ⟨hkept.cleared hcleared, ?_⟩⟩
  · rw [discarded_eq_nil hnot, List.append_nil]
  · rw [hkept.cleared hcleared, List.append_nil]

/-- No task begins twice. -/
theorem begun_nodup (hledger : Ledger v) (hstaff : Staff w v) :
    (reached .begun v.history).Nodup := by
  have hsub : (reached .begun v.history).Sublist (reached .accepted v.history) := by
    rw [hledger.pending, hstaff.tally.taken, List.append_assoc, List.append_assoc]
    exact List.sublist_append_left _ _
  exact (hledger.sorted.sublist hsub).imp fun h => Nat.ne_of_lt h

/-- What has begun has been published, except for at most one task: the one that the worker is
at, or one that has not returned and whose fault has struck the worker. -/
theorem begun_eq (hledger : Ledger v) (hstaff : Staff w v) :
    ∃ last, last.length ≤ 1 ∧
      reached .begun v.history = reached .published v.history ++ last ∧
      ∀ ticket ∈ last, ticket ∈ w.elim [] Work.current ∨
        ticket ∉ reached .returned v.history ∧ Failed w v.shared := by
  obtain ⟨lost, hbegun, hone, hfailed⟩ := hstaff.tally.begun
  have hnodup := begun_nodup hledger hstaff
  by_cases hnil : lost = []
  · subst hnil
    refine ⟨w.elim [] Work.current, ?_, ?_, fun ticket => .inl⟩
    · cases w with
      | none => exact Nat.zero_le _
      | some w => exact w.length_current_le
    · rw [hbegun, hstaff.tally.returned]
      cases w <;> simp [Work.current]
  · have hstruck := hfailed hnil
    have hcurrent : w.elim [] Work.unpublished = [] ∧ w.elim [] Work.unreturned = [] := by
      cases w with
      | none => exact ⟨rfl, rfl⟩
      | some w => exact List.append_eq_nil_iff.mp (Work.current_of_hasFailed hstruck)
    rw [hcurrent.2, List.append_nil] at hbegun
    refine ⟨lost, hone, ?_, fun ticket hticket => .inr ⟨fun hreturned => ?_, hstruck⟩⟩
    · rw [hbegun, hstaff.tally.returned, hcurrent.1, List.append_nil]
    · rw [hbegun] at hnodup
      exact (List.nodup_append.mp hnodup).2.2 ticket hreturned ticket hticket rfl

end Scenes

/-! ### States -/

section Runs

variable {next : κ → Move κ ω (Request κ V E) Answer (Except E V) ν} {world : ω} {codes : List κ}

/-- **Conservation of tasks.** In every run, at every moment, whatever bodies, callbacks, hooks and
other code do:

* tasks are accepted in the order of their tickets, so none is accepted twice;
* what was taken is what has begun, and at most one task that the worker has in hand;
* what was accepted is what was taken and what is pending, until the pending channel is cleared;
  afterwards it is what was taken and what was discarded, and no task is pending;
* what has begun has been published, except for at most one task, which is the last; the worker is
  at it, or it has not returned and a fault has struck the worker;
* what was published is what was received for delivery, and what is in the finished channel.

After an abort there is no worker any more, and nothing moves. -/
theorem tasks_conserved {s : State κ ω (Pipeline κ V E) (Call κ V E) Answer (Event V E ν)}
    (h : (machine plan next).Reach (start world codes) s) :
    (reached .accepted s.history).Pairwise (· < ·) ∧
      (∃ hand, hand.length ≤ 1 ∧ (s.aborted = false → hand = (worker s).elim [] Work.hand) ∧
        reached .taken s.history = reached .begun s.history ++ hand ∧
        (¬ Passed .cleared s.history → reached .accepted s.history =
          reached .begun s.history ++ hand ++ ticketsOf s.shared.pending.value) ∧
        (Passed .cleared s.history → ticketsOf s.shared.pending.value = [] ∧
          reached .accepted s.history =
            reached .begun s.history ++ hand ++ reached .discarded s.history)) ∧
      (∃ last, last.length ≤ 1 ∧
        reached .begun s.history = reached .published s.history ++ last ∧
        (s.aborted = false → ∀ ticket ∈ last, ticket ∈ (worker s).elim [] Work.current ∨
          ticket ∉ reached .returned s.history ∧ Failed (worker s) s.shared)) ∧
      reached .published s.history =
        reached .received s.history ++ s.shared.finished.value.map Finished.ticket := by
  obtain ⟨v, hreach, hshows⟩ := exists_shows h
  obtain ⟨-, ⟨u, d, hclosing⟩, hledger, w, hstaff⟩ := orderly_of_reach hreach
  have hworker : s.aborted = false → worker s = w := fun hlive => worker_eq hshows hlive hstaff
  rw [← hshows.history_eq, ← hshows.shared_eq]
  refine ⟨hledger.sorted, ⟨w.elim [] Work.hand, Work.length_elim_hand_le w,
    fun hlive => by rw [hworker hlive], hstaff.tally.taken,
    accepted_eq hledger hclosing.kept hstaff⟩, ?_, hledger.finished⟩
  obtain ⟨last, hone, hbegun, hlast⟩ := begun_eq hledger hstaff
  refine ⟨last, hone, hbegun, fun hlive => ?_⟩
  rw [hworker hlive]
  exact hlast

/-- Midway the first task is in hand and the second has been discarded. -/
theorem tasks_conserved_midway :
    Passed .cleared midway.history ∧ reached .accepted midway.history = [0, 1] ∧
      (worker midway).elim [] Work.hand = [0] ∧ ∃ hand : List Ticket, hand.length ≤ 1 ∧
        reached .accepted midway.history =
          reached .begun midway.history ++ hand ++ reached .discarded midway.history := by
  have hcleared : Passed .cleared midway.history :=
    by_contra fun h => absurd (passes_eq_zero.mpr h) (by decide)
  obtain ⟨-, ⟨hand, hone, -, -, -, hbooks⟩, -⟩ := tasks_conserved reach_midway
  exact ⟨hcleared, rfl, rfl, hand, hone, (hbooks hcleared).2⟩

end Runs

end Offload.Pipeline
