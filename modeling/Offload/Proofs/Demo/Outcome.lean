import Offload.Demo.Command
import Offload.Proofs.Demo.Going
import Offload.Proofs.Pipeline.Report

/-!
# What the demonstration comes to

When the main thread leaves its loop, every result has been received and kept, in the order of the
tasks, whatever the settings are and however the threads interleave. From then on the shutdown has
nothing to discard and nothing is left undelivered, so the report is told by the number of tasks.

## Main definitions

* `Complete`: whether every result has been received and kept.

## Main results

* `complete_of_going`: once as many results as tasks have been kept, all is complete.
* `outcome_determined`: the outcome of every run with any settings.
-/

namespace Offload.Demo

open Pipeline (reached workerThread)

variable {count owes : Nat} {settings : Settings} {s s' : Running} {x : Point}

/-! ### The end of the loop -/

/-- Whether all results have been received and kept, and nothing is left. -/
structure Complete (count : Nat) (s : Running) : Prop where
  summary : s.shared.summary.value = tally count
  received : reached .received (pipelineOf s).history = List.range count
  finished : s.shared.pipeline.finished.value = []
  pending : Pipeline.ticketsOf s.shared.pipeline.pending.value = []
  discarded : reached .discarded (pipelineOf s).history = []

/-- No more than all tasks are accepted. -/
theorem MainAt.accepted_le {frames : Layers} (h : MainAt count x frames) : x.accepted ≤ count := by
  cases h with
  | scheduling i hi => exact hi.le
  | asking i x call rest hi _ hcall => exact hcall.accepted_le.trans hi
  | emptying kept x call rest _ hcall => cases hcall <;> exact Nat.le_refl count
  | _ => exact Nat.le_refl count

/-- **The end.** Once as many results as tasks have been kept, everything has been received and
nothing is left. -/
theorem complete_of_going (hreach : (machine count settings).Reach (start count) s)
    (hgoing : Going count x owes s) (hkept : count ≤ x.kept) : Complete count s := by
  have hbooks := books_of_reach hreach hgoing.live
  obtain ⟨-, -, hledger, w, hstaff⟩ :=
    Pipeline.orderly_of_reach ((pipeline_of_reach hreach).2 hgoing.live)
  obtain ⟨last, -, hbegun, -⟩ := Pipeline.begun_eq hledger hstaff
  -- every task has come all the way, so the books have no room for anything else
  have haccepted := congrArg List.length hgoing.held.accepted
  have hpublished := congrArg List.length hbooks.published
  have htasks := congrArg List.length hledger.pending
  have htaken := congrArg List.length hstaff.tally.taken
  have hlast := congrArg List.length hbegun
  rw [List.length_range] at haccepted
  rw [List.length_append, hgoing.held.received, List.length_map, Point.received] at hpublished
  simp only [List.length_append] at htasks htaken hlast
  have hle := hgoing.main.accepted_le
  have hfinished : s.shared.pipeline.finished.value.length = 0 := by omega
  have hdiscarded : (reached .discarded (pipelineOf s).history).length = 0 := by omega
  have hpending : (Pipeline.ticketsOf s.shared.pipeline.pending.value).length = 0 := by
    have : (pipelineOf s).shared = s.shared.pipeline := rfl
    rw [this] at htasks
    omega
  have hreceived : x.received = count := by
    rw [Point.received]
    omega
  obtain rfl : x.kept = count := by omega
  exact ⟨hgoing.held.summary, hreceived ▸ (hgoing.held.ranges hbooks).2,
    List.length_eq_zero_iff.mp hfinished, List.length_eq_zero_iff.mp hpending,
    List.length_eq_zero_iff.mp hdiscarded⟩

/-! ### How the main thread ends -/

/-- No call notes an ending. -/
theorem ne_finished_of_turn {t : Tid} {choice : Choice} {shared shared' : Shared} {call : Call}
    {events : List Event} {r : Turn Position Call Answer}
    (h : turn settings t choice shared call = some (shared', events, r)) :
    ∀ event ∈ events, ∀ ending, event ≠ .finished ending := by
  intro event hevent ending
  cases call with
  | pipeline call =>
      obtain ⟨_, events', _, -, -, rfl, -⟩ := turn_pipeline h
      obtain ⟨event', -, rfl⟩ := List.mem_map.mp hevent
      rintro ⟨⟩
  | ready call =>
      obtain ⟨_, events', _, -, -, rfl, -⟩ := turn_ready h
      obtain ⟨event', -, rfl⟩ := List.mem_map.mp hevent
      rintro ⟨⟩
  | summary visit phase =>
      obtain ⟨_, _, -, -, rfl, -⟩ := turn_summary h
      cases hevent

/-- An ending is noted by code that is about to finish with it. -/
theorem finishing_of_step {t u : Tid} {choice : Choice} {ending : Ending}
    (h : (machine count settings).step t choice s = some s')
    (hnoted : (u, .finished ending) ∈ s'.history) :
    (u, .finished ending) ∈ s.history ∨ ∃ rest, s.stack t = .code (.finishing ending) :: rest := by
  cases (Machine.stepped_of_step h).2 with
  | ended | acted | called => exact .inl hnoted
  | @noted position position' rest event hstack hnext =>
      rw [State.history_noting] at hnoted
      rcases List.mem_append.mp hnoted with hnoted | hnoted
      · exact .inl hnoted
      · obtain ⟨event', hmem, heq⟩ := List.mem_map.mp hnoted
        cases heq
        rw [List.mem_singleton] at hmem
        subst hmem
        cases position <;> cases hnext
        exact .inr ⟨rest, hstack⟩
  | @turned call rest shared events r aborted _ hturn _ =>
      have hnoted : (u, .finished ending) ∈ s.history ++ events.map (Prod.mk t) := by
        rw [← State.history_noting]
        exact hnoted
      rcases List.mem_append.mp hnoted with hnoted | hnoted
      · exact .inl hnoted
      · obtain ⟨event, hevent, heq⟩ := List.mem_map.mp hnoted
        cases heq
        exact absurd rfl (ne_finished_of_turn hturn _ hevent ending)

/-- The main thread finishes when all went well and all results have been kept. -/
theorem MainAt.of_finishing {rest : Layers} {ending : Ending}
    (h : MainAt count x (.code (.finishing ending) :: rest)) : ending = .done ∧ count ≤ x.kept := by
  generalize hframes : (Frame.code (.finishing ending) :: rest : Layers) = frames at h
  cases h with
  | finishing kept hkept =>
      cases hframes
      exact ⟨rfl, hkept⟩
  | delivering kept =>
      rw [keeping] at hframes
      split at hframes <;> cases hframes
  | _ => cases hframes

/-- The main thread leaves its loop when all results have been kept. -/
theorem MainAt.of_stopping {rest : Layers} (h : MainAt count x (.code .stopping :: rest)) :
    count ≤ x.kept := by
  generalize hframes : (Frame.code .stopping :: rest : Layers) = frames at h
  cases h with
  | stopping kept hkept => exact hkept
  | delivering kept =>
      rw [keeping] at hframes
      split at hframes <;> cases hframes
  | _ => cases hframes

/-- **The main thread ends well.** When it has noted how it ends, all results have been kept. -/
theorem done_of_reach (h : (machine count settings).Reach (start count) s) :
    ∃ x owes, Going count x owes s ∧ ∀ u ending, (u, .finished ending) ∈ s.history →
      ending = .done ∧ count ≤ x.kept := by
  induction h with
  | start =>
      obtain ⟨x, hgoing⟩ := going_start count
      exact ⟨x, 0, hgoing, nofun⟩
  | step t choice hreach hstep ih =>
      obtain ⟨x, owes, hgoing, hended⟩ := ih
      obtain ⟨x', owes', hkept, hgoing'⟩ := going_of_step hreach hgoing hstep
      refine ⟨x', owes', hgoing', fun u ending hnoted => ?_⟩
      rcases finishing_of_step hstep hnoted with hnoted | ⟨rest, hstack⟩
      · obtain ⟨hdone, hle⟩ := hended u ending hnoted
        exact ⟨hdone, hle.trans hkept⟩
      · rcases thread_of_step hreach hstep with rfl | rfl
        · have hat := hgoing.worker
          rw [hstack] at hat
          cases hat
        · have hat := hgoing.main
          rw [hstack] at hat
          obtain ⟨hdone, hle⟩ := hat.of_finishing
          exact ⟨hdone, hle.trans hkept⟩

/-! ### The report -/

/-- A third of the tasks fail, rounded down. -/
theorem length_tally (n : Nat) :
    (tally n).succeeded.length = n - n / 3 ∧ (tally n).failed.length = n / 3 := by
  have hfailed : (tally n).failed.length = n / 3 := by
    rw [tally, List.length_map]
    induction n with
    | zero => rfl
    | succ n ih =>
        rw [List.range_succ, List.filter_append, List.length_append, ih]
        by_cases hn : n % 3 = 2 <;> simp [hn] <;> omega
  have hdelivered := delivered_tally n
  rw [Summary.delivered, hfailed] at hdelivered
  exact ⟨by omega, hfailed⟩

/-- The lines of the report of so many tasks. -/
def reportOf (place : Site → String) (elapsed : String) (n : Nat) : List String :=
  (((List.range n).filter (· % 3 ≠ 2)).map fun i =>
      "ok    " ++ padded 4 i ++ " -> " ++ toString (i * i))
    ++ (((List.range n).filter (· % 3 = 2)).map fun i => "error " ++ (failure i).shown place)
    ++ [toString (n - n / 3) ++ " succeeded, " ++ toString (n / 3) ++ " failed in " ++ elapsed]

theorem reportLines_tally (place : Site → String) (elapsed : String) (n : Nat) :
    reportLines place elapsed (tally n) = reportOf place elapsed n := by
  obtain ⟨hsucceeded, hfailed⟩ := length_tally n
  rw [reportLines, reportOf, hsucceeded, hfailed, tally, List.map_map, List.map_map]
  rfl

/-! ### The command -/

/-- A pipeline is made unless the name of the worker's thread is refused. -/
theorem new_of_name (hname : '\x00' ∉ settings.threadName.toList) :
    (Pipeline.new (plan settings) : Except Failure (Pipeline Position Nat TaskError)) =
      .ok {} := by
  have hcontains : settings.threadName.toList.contains '\x00' = false := by
    simpa using hname
  simp only [Pipeline.new, plan, hcontains, Bool.false_eq_true, if_false]

/-- **The command,** with the schedule that it follows: unless it gives up waiting, it reports on
all tasks. -/
theorem summaryOf_eq (hname : '\x00' ∉ settings.threadName.toList) :
    summaryOf count settings = .ok (tally count) ∨
      summaryOf count settings = .error { message := "Task runner did not finish" } := by
  obtain ⟨s, hreach, hrun⟩ : ∃ s, (machine count settings).Reach (start count) s ∧
      run count settings = .ok (s.shared.summary.value, ending? s.history) := by
    refine ⟨_, Machine.reach_settle ((List.range (threads count).length).map fun t => (t, .go 0))
      Machine.patience .start, ?_⟩
    rw [run, new_of_name hname]
    rfl
  rw [summaryOf, hrun]
  cases hending : ending? s.history with
  | none => exact .inr rfl
  | some ending =>
      obtain ⟨⟨u, event⟩, hnoted, hevent⟩ := List.exists_of_findSome?_eq_some hending
      obtain rfl : event = .finished ending := by
        cases event with
        | finished => exact congrArg Event.finished (Option.some.inj hevent)
        | pipeline | ready => cases hevent
      obtain ⟨x, owes, hgoing, hended⟩ := done_of_reach hreach
      obtain ⟨rfl, hkept⟩ := hended u ending hnoted
      exact .inl (congrArg Except.ok (complete_of_going hreach hgoing hkept).summary)

/-! ### The outcome -/

/-- No square of a number below a bound of 2³² overflows. -/
theorem square_lt {i n : Nat} (hi : i < n) (hn : n ≤ 2 ^ 32) :
    i < UInt64.size ∧ i * i < UInt64.size := by
  have hle : i ≤ 2 ^ 32 - 1 := by omega
  have hmul : i * i ≤ (2 ^ 32 - 1) * (2 ^ 32 - 1) := Nat.mul_le_mul hle hle
  exact ⟨lt_of_le_of_lt hle (by decide), lt_of_le_of_lt hmul (by decide)⟩

/-- **The outcome does not depend on schedules and settings.** Whatever number of tasks up to 2³²
the arguments give, whatever settings the environment gives with a name for the worker's thread that
holds no NUL, and however the main thread and the worker interleave: when the main thread leaves its
loop,

* exactly as many results as tasks have been delivered, in the order of the tasks;
* the summary holds the squares of all numbers whose remainder by three is not two, and the errors
  of the others, either in increasing order, and no square exceeds 64 bits;
* whatever happens from then on, the summary stays, no task is discarded and no result is left, and
  so the report of the shutdown says; the main thread ends well if it ends;
* the report that is printed has a line for each success, then one for each failure, in these
  orders, and the totals.

The command, which follows one of the schedules, ends with the same summary unless it gives up
waiting. -/
theorem outcome_determined {arguments : List String} {lookUp : Settings.LookUp}
    {env : Settings.Environment} {n : Nat} (hcount : countOf arguments = .ok n)
    (hn : n ≤ 2 ^ 32) (hsettings : settingsOf lookUp env = .ok settings)
    (hname : '\x00' ∉ settings.threadName.toList) :
    (∃ pipeline, Pipeline.new (plan settings) = .ok pipeline ∧ ∀ s : Running,
      (machine n settings).Reach
        { shared := { pipeline := pipeline }, world := (), threads := threads n } s →
      s.stack mainThread = [.code .stopping] →
        s.shared.summary.value.delivered = n ∧
        reached .received (pipelineOf s).history = List.range n ∧
        s.shared.summary.value.succeeded =
          ((List.range n).filter (· % 3 ≠ 2)).map (fun i => (i, i * i)) ∧
        (∀ entry ∈ s.shared.summary.value.succeeded,
          entry.1 < UInt64.size ∧ entry.2 < UInt64.size) ∧
        s.shared.summary.value.failed = ((List.range n).filter (· % 3 = 2)).map failure ∧
        ∀ s' : Running, (machine n settings).Reach s s' →
          s'.shared.summary.value = s.shared.summary.value ∧
          reached .discarded (pipelineOf s').history = [] ∧
          Pipeline.ticketsOf s'.shared.pipeline.pending.value = [] ∧
          s'.shared.pipeline.finished.value = [] ∧
          (∀ t discarded undelivered,
            (t, .notice (.stopped discarded undelivered)) ∈ (pipelineOf s').history →
            discarded = 0 ∧ undelivered = 0) ∧
          (∀ t ending, (t, .finished ending) ∈ s'.history → ending = .done) ∧
          ∀ place elapsed,
            reportLines place elapsed s'.shared.summary.value = reportOf place elapsed n) ∧
      (command arguments lookUp env = .ok (tally n) ∨
        command arguments lookUp env = .error { message := "Task runner did not finish" }) := by
  refine ⟨⟨_, new_of_name hname, fun s hreach hstopping => ?_⟩, ?_⟩
  · have hreach : (machine n settings).Reach (start n) s := hreach
    obtain ⟨x, owes, hgoing⟩ := going_of_reach hreach
    have hkept : n ≤ x.kept := by
      have hat := hgoing.main
      rw [hstopping] at hat
      exact hat.of_stopping
    have hcomplete := complete_of_going hreach hgoing hkept
    rw [hcomplete.summary]
    refine ⟨delivered_tally n, hcomplete.received, rfl, fun entry hentry => ?_, rfl,
      fun s' hlater => ?_⟩
    · obtain ⟨i, hi, rfl⟩ := List.mem_map.mp hentry
      exact square_lt (List.mem_range.mp (List.mem_filter.mp hi).1) hn
    · obtain ⟨x', owes', hkept', hgoing'⟩ := going_of_reach_of_going hreach hgoing hlater
      have hreach' := hreach.trans hlater
      have hcomplete' := complete_of_going hreach' hgoing' (hkept.trans hkept')
      refine ⟨hcomplete'.summary, hcomplete'.discarded, hcomplete'.pending, hcomplete'.finished,
        fun t discarded undelivered hnotice => ?_, fun t ending hnoted => ?_,
        fun place elapsed => ?_⟩
      · have hscene := (pipeline_of_reach hreach').2 hgoing'.live
        have hfinal := (Pipeline.reported_of_reach hscene).final
        obtain ⟨-, ⟨-, hdiscarded⟩, hundelivered⟩ := hfinal.reports t discarded undelivered hnotice
        rw [hcomplete'.discarded] at hdiscarded
        rw [show (pipelineOf s').shared.finished.value = [] from hcomplete'.finished]
          at hundelivered
        exact ⟨hdiscarded.symm, hundelivered.symm⟩
      · obtain ⟨_, _, _, hended⟩ := done_of_reach hreach'
        exact (hended t ending hnoted).1
      · rw [hcomplete'.summary]
        exact reportLines_tally place elapsed n
  · have hcommand : command arguments lookUp env = summaryOf n settings := by
      rw [command, hcount, hsettings]
      rfl
    rw [hcommand]
    exact summaryOf_eq hname

/-- The state in which the main thread leaves its loop after three tasks, when the worker always
goes on as far as it can. -/
def threeKept : Running :=
  (machine 3 .default).settle [(workerThread, .go 0), (mainThread, .go 0)] 168 (start 3)

theorem outcome_determined_threeKept :
    threeKept.stack mainThread = [.code .stopping] ∧
      threeKept.shared.summary.value.succeeded = [(0, 0), (1, 1)] ∧
      threeKept.shared.summary.value.failed = [failure 2] := by
  have hcount : countOf ["3"] = .ok 3 := rfl
  have hsettings : settingsOf (fun _ => .nothing) { config := none, home := none } = .ok .default :=
    rfl
  have hstopping : threeKept.stack mainThread = [.code .stopping] := rfl
  obtain ⟨⟨pipeline, hnew, hall⟩, -⟩ := outcome_determined hcount (by decide) hsettings (by decide)
  have hstart : (Pipeline.new (plan .default) : Except Failure (Pipeline Position Nat TaskError)) =
    .ok {} := new_of_name (by decide)
  obtain rfl : {} = pipeline := Except.ok.inj (hstart.symm.trans hnew)
  obtain ⟨-, -, hsucceeded, -, hfailed, -⟩ :=
    hall threeKept (Machine.reach_settle _ 168 .start) hstopping
  exact ⟨hstopping, hsucceeded, hfailed⟩

end Offload.Demo
