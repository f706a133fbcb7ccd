import Offload.Proofs.Channel.Lock
import Offload.Proofs.Pipeline.Runs

/-!
# The locks of a pipeline

A pipeline has three locks: that of the intake and those of its two channels. A scheduling owns the
intake's lock while it pushes to the pending channel, so the intake ranks below the channels;
nothing else owns one lock while it wants another. Bodies, callbacks, the hook and all destructors
run when the call that runs them owns none.

## Main result

* `Call.steady_of_turn`: every step of every call keeps to the locks, and runs code without any.
-/

namespace Offload.Pipeline

variable {κ ω V E ν : Type} {plan : Plan κ} {t : Tid} {choice : Choice} {s s' : Pipeline κ V E}
  {events : List (Event V E ν)}

/-- The locks of a pipeline. -/
inductive Lock where
  | intake
  | pending
  | finished
  deriving DecidableEq

/-- Who owns a lock. -/
def owner (s : Pipeline κ V E) : Lock → Option Tid
  | .intake => s.intake.owner
  | .pending => s.pending.owner
  | .finished => s.finished.owner

/-- The same pipeline, except that a lock is free. -/
def freed (s : Pipeline κ V E) : Lock → Pipeline κ V E
  | .intake => { s with intake := s.intake.release }
  | .pending => { s with pending := s.pending.release }
  | .finished => { s with finished := s.finished.release }

/-- The intake's lock may be owned while another is wanted. -/
def Lock.rank : Lock → Nat
  | .intake => 0
  | .pending | .finished => 1

/-! ### What the parts own and want -/

/-- Whether a scheduling owns a lock. -/
def Schedule.owns (stage : Schedule κ V E) : Lock → Bool
  | .intake => stage.holds
  | .pending =>
    match stage with
    | .pushing p => p.owns
    | _ => false
  | .finished => false

/-- The lock that a scheduling wants before it can go on. -/
def Schedule.wants : Schedule κ V E → Option Lock
  | .entering _ => some .intake
  | .pushing p => if p.wants then some .pending else none
  | .checking _ | .deciding _ | .leaving _ | .dropping _ _ | .dropped _ => none

/-- Whether the worker owns a lock. -/
def Work.owns : Work κ V E → Lock → Bool
  | .popping p, .pending => p.owns
  | .publishing p, .finished => p.owns
  | _, _ => false

/-- The lock that the worker wants before it can go on. -/
def Work.wants : Work κ V E → Option Lock
  | .popping p => if p.owns then none else some .pending
  | .publishing p => if p.wants then some .finished else none
  | _ => none

/-- Whether a drain owns a lock. -/
def Drain.owns : Drain κ V E → Lock → Bool
  | .popping _ p, .finished => p.owns
  | .checking phase, .finished => phase.owns
  | _, _ => false

/-- The lock that a drain wants before it can go on. -/
def Drain.wants : Drain κ V E → Option Lock
  | .popping _ p => if p.owns then none else some .finished
  | .checking phase => if phase.owns then none else some .finished
  | _ => none

/-- Whether an await owns a lock. -/
def Await.owns : Await κ V E → Lock → Bool
  | .popping p, .finished => p.owns
  | _, _ => false

/-- The lock that an await wants before it can go on. -/
def Await.wants : Await κ V E → Option Lock
  | .popping p => if p.owns then none else some .finished
  | _ => none

/-- Whether a teardown at this stage owns a lock. -/
def Teardown.Stage.owns : Teardown.Stage κ V E → Lock → Bool
  | .closing phase, .intake => phase.owns
  | .clearing c, .pending => c.owns
  | .stopping _ p, .pending => p.owns
  | .counting _ _ phase, .finished => phase.owns
  | _, _ => false

/-- The lock that a teardown at this stage wants before it can go on. -/
def Teardown.Stage.wants : Teardown.Stage κ V E → Option Lock
  | .closing phase => if phase.owns then none else some .intake
  | .clearing c => if c.wants then some .pending else none
  | .stopping _ p => if p.wants then some .pending else none
  | .counting _ _ phase => if phase.owns then none else some .finished
  | _ => none

/-- Whether what is done through a handle owns a lock. -/
def HandleUse.owns : HandleUse κ V E → Lock → Bool
  | .schedule stage, l => stage.owns l
  | .accepting phase, .intake => phase.owns
  | .accepting _, _ => false

/-- The lock that what is done through a handle wants before it can go on. -/
def HandleUse.wants : HandleUse κ V E → Option Lock
  | .schedule stage => stage.wants
  | .accepting phase => if phase.owns then none else some .intake

/-- Whether what is done through the owner owns a lock. -/
def Use.owns : Use κ V E → Lock → Bool
  | .schedule stage, l => stage.owns l
  | .draining stage, l => stage.owns l
  | .await stage, l => stage.owns l
  | .pendingSize phase, .pending => phase.owns
  | .finishedSize phase, .finished => phase.owns
  | _, _ => false

/-- The lock that what is done through the owner wants before it can go on. -/
def Use.wants : Use κ V E → Option Lock
  | .schedule stage => stage.wants
  | .draining stage => stage.wants
  | .await stage => stage.wants
  | .pendingSize phase => if phase.owns then none else some .pending
  | .finishedSize phase => if phase.owns then none else some .finished
  | .drain _ | .busy => none

/-- Whether a call owns a lock. -/
def Call.owns : Call κ V E → Lock → Bool
  | .inside use, l => use.owns l
  | .handle use, l => use.owns l
  | .teardown d, l => d.stage.owns l
  | .work w, l => w.owns l
  | .opening _, _ | .closing _, _ | .taking _, _ => false

/-- The lock that a call wants before it can go on. -/
def Call.wants : Call κ V E → Option Lock
  | .inside use => use.wants
  | .handle use => use.wants
  | .teardown d => d.stage.wants
  | .work w => w.wants
  | .opening _ | .closing _ | .taking _ => none

/-- Whether a call that is yet to begin has not taken a lock. -/
def Call.IsIdle : Call κ V E → Prop
  | .opening use => ∀ l, use.owns l = false
  | _ => True

/-- The locks of a pipeline's machine. -/
def locks : Locks Lock (Pipeline κ V E) (Call κ V E) where
  owner := owner
  free := freed
  owns := Call.owns
  wants := Call.wants
  rank := Lock.rank
  sound call := call.IsSound ∧ call.IsIdle

/-! ### Steps keep to the locks -/

section Parts

variable {γ α γ' α' : Type} {owns : γ → Bool} {owns' : γ' → Lock → Bool} {x : γ} {r : Turn κ γ α}
  {answered : α → Turn κ γ' α'} {failed : Fault → Turn κ γ' α'}

/-- A call keeps to the locks if its part keeps to that of the pending channel, and the call owns
what its part owns and nothing else. -/
theorem steady_onPending {pending : Channel (Entry κ V E)} (wrap : γ → γ')
    (hkeeps : Keeps t s.pending.owner pending.owner (owns x) (r.holds owns))
    (hrun : ∀ code y, r = .run code y → owns y = false)
    (hwrap : ∀ y l, owns' (wrap y) l = match l with | .pending => owns y | _ => false)
    (hanswered : ∀ b y, (answered b).next? = some y → ∀ l, owns' y l = false)
    (hfailed : ∀ fault y, (failed fault).next? = some y → ∀ l, owns' y l = false) :
    Steady owner owns' t s { s with pending := pending } (wrap x)
      (r.within wrap answered failed) := by
  refine .of_part wrap .pending hkeeps hrun ?_ (hwrap · .pending) ?_ hanswered hfailed
  · rintro (_ | _ | _) hl <;> first | rfl | exact absurd rfl hl
  · rintro y (_ | _ | _) hl <;> first | exact hwrap y _ | exact absurd rfl hl

/-- The same for a part that keeps to the lock of the channel of results. -/
theorem steady_onFinished {finished : Channel (Finished κ V E)} (wrap : γ → γ')
    (hkeeps : Keeps t s.finished.owner finished.owner (owns x) (r.holds owns))
    (hrun : ∀ code y, r = .run code y → owns y = false)
    (hwrap : ∀ y l, owns' (wrap y) l = match l with | .finished => owns y | _ => false)
    (hanswered : ∀ b y, (answered b).next? = some y → ∀ l, owns' y l = false)
    (hfailed : ∀ fault y, (failed fault).next? = some y → ∀ l, owns' y l = false) :
    Steady owner owns' t s { s with finished := finished } (wrap x)
      (r.within wrap answered failed) := by
  refine .of_part wrap .finished hkeeps hrun ?_ (hwrap · .finished) ?_ hanswered hfailed
  · rintro (_ | _ | _) hl <;> first | rfl | exact absurd rfl hl
  · rintro y (_ | _ | _) hl <;> first | exact hwrap y _ | exact absurd rfl hl

/-- A call that removes a result keeps to the locks. -/
theorem steady_popping {finished : Channel (Finished κ V E)} {p : Channel.Pop (Finished κ V E)}
    {marks : List (Channel.Mark (Finished κ V E))}
    {r : Turn κ (Channel.Pop (Finished κ V E)) (Option (Finished κ V E))}
    {answered : Option (Finished κ V E) → Turn κ γ' α'} (wrap : Channel.Pop (Finished κ V E) → γ')
    (h : p.turn t choice s.finished = some (finished, marks, r))
    (hwrap : ∀ p l, owns' (wrap p) l = match l with | .finished => p.owns | _ => false)
    (hanswered : ∀ b y, (answered b).next? = some y → ∀ l, owns' y l = false)
    (hfailed : ∀ fault y, (failed fault).next? = some y → ∀ l, owns' y l = false) :
    Steady owner owns' t s { s with finished := finished } (wrap p)
      (r.within wrap answered failed) :=
  steady_onFinished wrap (Channel.Pop.keeps_of_turn h)
    (fun code p' hrun => absurd hrun ((Channel.Pop.turn_plain h).2 code p')) hwrap hanswered hfailed

/-- A call that counts the results keeps to the locks. -/
theorem steady_counting {finished : Channel (Finished κ V E)} {phase : Phase Nat}
    {r : Turn κ (Phase Nat) Nat} {answered : Nat → Turn κ γ' α'} (wrap : Phase Nat → γ')
    (h : Channel.sizeTurn t choice s.finished phase = some (finished, r))
    (hwrap : ∀ phase l, owns' (wrap phase) l = match l with | .finished => phase.owns | _ => false)
    (hanswered : ∀ n y, (answered n).next? = some y → ∀ l, owns' y l = false)
    (hfailed : ∀ fault y, (failed fault).next? = some y → ∀ l, owns' y l = false) :
    Steady owner owns' t s { s with finished := finished } (wrap phase)
      (r.within wrap answered failed) := by
  refine steady_onFinished wrap (Channel.keeps_of_sizeTurn h) ?_ hwrap hanswered hfailed
  rintro code phase' rfl
  exact absurd h Channel.sizeTurn_ne_run

end Parts

/-- A scheduling that does not hold the intake owns nothing. -/
theorem Schedule.owns_of_not_holds {stage : Schedule κ V E} (h : stage.holds = false) (l : Lock) :
    stage.owns l = false := by
  cases l with
  | intake => exact h
  | pending =>
      cases stage with
      | pushing _ => cases h
      | checking _ | entering _ | deciding _ | leaving _ | dropping _ _ | dropped _ => rfl
  | finished => rfl

/-- A scheduling keeps to the locks. -/
theorem Schedule.steady_of_turn {stage : Schedule κ V E}
    {r : Turn κ (Schedule κ V E) (Except Failure Unit)}
    (h : stage.turn t choice s = some (s', events, r)) :
    Steady owner Schedule.owns t s s' stage r := by
  cases turned_of_turn h with
  | passed hholds _ hnext _ =>
      exact .of_idle (fun _ => rfl) (owns_of_not_holds hholds)
        fun stage' hstage' => owns_of_not_holds (hnext stage' hstage').1
  | entered task hfree =>
      refine ⟨fun l => ?_, fun _ _ => nofun⟩
      cases l with
      | intake => exact .taken t _ hfree
      | pending | finished => exact .same t _ _
  | admitted task _ | refused task _ =>
      refine ⟨fun l => ?_, fun _ _ => nofun⟩
      cases l <;> exact .same t _ _
  | pushedOn hpush =>
      refine ⟨fun l => ?_, fun _ _ => nofun⟩
      cases l with
      | pending => exact (Channel.Push.keeps_of_turn hpush).1
      | intake | finished => exact .same t _ _
  | pushedOver outcome hpush hnone =>
      refine ⟨fun l => ?_, fun _ _ => nofun⟩
      cases l with
      | pending =>
          have hkeeps := (Channel.Push.keeps_of_turn hpush).1
          rwa [Turn.holds_eq_false fun p' hp' => by rw [hnone] at hp'; cases hp'] at hkeeps
      | intake | finished => exact .same t _ _
  | left refused _ hfree hnext _ hrun =>
      refine ⟨fun l => ?_, fun code stage' heq => absurd heq (hrun code stage')⟩
      rw [Turn.holds_eq_false fun stage' hstage' => owns_of_not_holds (hnext stage' hstage').1 l]
      cases l with
      | intake =>
          rw [owner, owner, hfree]
          exact .left t _
      | pending | finished => exact .same t _ _

/-- The worker keeps to the locks. -/
theorem Work.steady_of_turn {w : Work κ V E} {r : Turn κ (Work κ V E) Unit}
    (h : w.turn plan t choice s = some (s', events, r)) : Steady owner Work.owns t s s' w r := by
  cases turned_of_turn h with
  | popped hpop =>
      refine steady_onPending _ (Channel.Pop.keeps_of_turn hpop)
        (fun code p' hrun => absurd hrun ((Channel.Pop.turn_plain hpop).2 code p'))
        (fun _ l => by cases l <;> rfl) ?_ ?_
      · rintro (_ | _ | _) y ⟨⟩ l <;> cases l <;> rfl
      · rintro fault y ⟨⟩ l
        cases l <;> rfl
  | published hpush =>
      refine steady_onFinished _ (Channel.Push.keeps_of_turn hpush).1
        (Channel.Push.keeps_of_turn hpush).2 (fun _ l => by cases l <;> rfl) ?_ ?_
      · rintro b y ⟨⟩ l
        cases l <;> rfl
      · rintro fault y ⟨⟩ l
        cases l <;> rfl
  | entered _ _ | began _ _ | returned _ | rested | left | failed _ | died _ =>
      refine .of_idle ?_ ?_ ?_
      · intro l
        cases l <;> rfl
      · intro l
        cases l <;> rfl
      · rintro y hy l
        cases hy <;> cases l <;> rfl

/-- A drain keeps to the locks. -/
theorem Drain.steady_of_turn {stage : Drain κ V E} {r : Turn κ (Drain κ V E) Bool}
    (h : stage.turn t choice s = some (s', events, r)) :
    Steady owner Drain.owns t s s' stage r := by
  cases stage with
  | going left =>
      cases left <;>
      · cases h
        refine .of_idle (fun _ => rfl) (fun _ => rfl) ?_
        rintro y ⟨⟩ l
        cases l <;> rfl
  | popping left p =>
      obtain ⟨finished, marks, r', hpop, rfl, rfl, rfl⟩ := exists_of_onFinished h
      refine steady_popping _ hpop (fun _ l => by cases l <;> rfl) ?_ fun _ => Turn.owns_of_ends rfl
      rintro (_ | _) y ⟨⟩ l <;> cases l <;> rfl
  | delivering left f =>
      obtain ⟨rfl, -, -, hafter⟩ := of_deliver h
      refine .of_idle (fun _ => rfl) (fun _ => rfl) fun y hy l => ?_
      cases hafter.symm.trans hy
      cases l <;> rfl
  | checking phase =>
      obtain ⟨⟨finished, r'⟩, hsize, heq⟩ := Option.map_eq_some_iff.mp h
      cases heq
      exact steady_counting _ hsize (fun _ l => by cases l <;> rfl) (fun _ => Turn.owns_of_ends rfl)
        fun _ => Turn.owns_of_ends rfl
  | failing fault =>
      cases h
      exact .of_idle (fun _ => rfl) (fun _ => rfl) (Turn.owns_of_ends rfl)

/-- An await keeps to the locks. -/
theorem Await.steady_of_turn {stage : Await κ V E} {r : Turn κ (Await κ V E) Bool}
    (h : stage.turn t choice s = some (s', events, r)) :
    Steady owner Await.owns t s s' stage r := by
  cases stage with
  | popping p =>
      obtain ⟨finished, marks, r', hpop, rfl, rfl, rfl⟩ := exists_of_onFinished h
      refine steady_popping _ hpop (fun _ l => by cases l <;> rfl) ?_ fun _ => Turn.owns_of_ends rfl
      rintro (_ | _) y ⟨⟩ l
      cases l <;> rfl
  | delivering f =>
      obtain ⟨rfl, -, -, hafter⟩ := of_deliver h
      refine .of_idle (fun _ => rfl) (fun _ => rfl) fun y hy l => ?_
      cases hafter.symm.trans hy
      cases l <;> rfl
  | ending outcome =>
      cases outcome <;>
      · cases h
        exact .of_idle (fun _ => rfl) (fun _ => rfl) (Turn.owns_of_ends rfl)

/-- A teardown that touches nothing that others share owns nothing. -/
theorem Teardown.Stage.owns_of_isQuiet {stage : Teardown.Stage κ V E} (h : stage.isQuiet = true)
    (l : Lock) : stage.owns l = false := by
  cases stage with
  | claiming | parting _ | joining _ | ending _ => cases l <;> rfl
  | closing _ | clearing _ | cleared _ | stopping _ _ | counting _ _ _ => cases h

/-- A teardown keeps to the locks. -/
theorem Teardown.steady_of_turn {d : Teardown κ V E}
    {r : Turn κ (Teardown κ V E) (Except Failure Unit)}
    (h : d.turn t choice s = some (s', events, r)) :
    Steady owner (fun d l => d.stage.owns l) t s s' d r := by
  obtain ⟨reporting, earlier, stage⟩ := d
  cases turned_of_turn h with
  | claimed hstage _ =>
      obtain rfl : stage = .claiming := hstage
      refine .of_idle ?_ ?_ ?_
      · intro l
        cases l <;> rfl
      · intro l
        cases l <;> rfl
      · rintro y ⟨⟩ l
        cases l <;> rfl
  | @closing phase phase' intake hstage hvisit =>
      obtain rfl : stage = .closing phase := hstage
      refine ⟨fun l => ?_, fun _ _ => nofun⟩
      cases l with
      | intake => exact Visit.keeps_of_turn hvisit
      | pending | finished => exact .same t _ _
  | @closed outcome intake r hstage hvisit hnext _ =>
      obtain rfl : stage = .closing (.leaving outcome) := hstage
      have hnone : ∀ y, r.next? = some y → ∀ l, y.stage.owns l = false := by
        intro y hy l
        rw [hnext y hy]
        cases l <;> rfl
      refine ⟨fun l => ?_, ?_⟩
      · rw [Turn.holds_eq_false fun y hy => hnone y hy l]
        cases l with
        | intake => exact Visit.keeps_of_turn hvisit
        | pending | finished => exact .same t _ _
      · rintro code y rfl
        exact hnone y rfl
  | @clearing c _ _ _ hstage hclear =>
      obtain rfl : stage = .clearing c := hstage
      refine steady_onPending (fun c => (⟨reporting, earlier, .clearing c⟩ : Teardown κ V E))
        (Channel.Clear.keeps_of_turn hclear).1 (Channel.Clear.keeps_of_turn hclear).2
        (fun _ l => by cases l <;> rfl) ?_ fun _ => Turn.owns_of_ends rfl
      rintro b y ⟨⟩ l
      cases l <;> rfl
  | cleared n hstage _ =>
      obtain rfl : stage = .cleared n := hstage
      refine .of_idle (fun _ => rfl) ?_ ?_
      · intro l
        cases l <;> rfl
      · rintro y ⟨⟩ l
        cases l <;> rfl
  | @stopping n p _ _ _ hstage hpush =>
      obtain rfl : stage = .stopping n p := hstage
      refine steady_onPending (fun p => (⟨reporting, earlier, .stopping n p⟩ : Teardown κ V E))
        (Channel.Push.keeps_of_turn hpush).1 (Channel.Push.keeps_of_turn hpush).2
        (fun _ l => by cases l <;> rfl) ?_ fun _ => Turn.owns_of_ends rfl
      rintro b y ⟨⟩ l
      cases l <;> rfl
  | rested hquiet _ hnext _ _ =>
      exact .of_idle (fun _ => rfl) (Stage.owns_of_isQuiet hquiet)
        fun y hy => Stage.owns_of_isQuiet (hnext y hy).1
  | joined n outcome hstage _ =>
      obtain rfl : stage = .joining n := hstage
      refine .of_idle (fun _ => rfl) ?_ ?_
      · intro l
        cases l <;> rfl
      · rintro y ⟨⟩ l
        cases l <;> rfl
  | @counting n outcome phase _ _ _ hstage hsize _ =>
      obtain rfl : stage = .counting n outcome phase := hstage
      refine steady_counting (fun phase => (⟨reporting, earlier, .counting n outcome phase⟩ :
        Teardown κ V E)) hsize (fun _ l => by cases l <;> rfl) ?_ fun _ => Turn.owns_of_ends rfl
      rintro b y ⟨⟩ l
      cases l <;> rfl

/-- What is done through a handle keeps to the locks. -/
theorem HandleUse.steady_of_turn {use : HandleUse κ V E} {r : Turn κ (HandleUse κ V E) Answer}
    (h : use.turn t choice s = some (s', events, r)) :
    Steady owner HandleUse.owns t s s' use r := by
  cases use with
  | schedule stage =>
      obtain ⟨r', hturn, rfl⟩ := exists_of_nest h
      exact (Schedule.steady_of_turn hturn).within (fun _ _ => rfl)
        (fun _ => Turn.owns_of_ends rfl) fun _ => Turn.owns_of_ends rfl
  | accepting phase =>
      obtain ⟨⟨intake, progress⟩, hvisit, heq⟩ := Option.map_eq_some_iff.mp h
      cases heq
      have hkeeps := Visit.keeps_of_turn hvisit
      refine ⟨fun l => ?_, ?_⟩
      · cases l with
        | intake => rcases progress with phase' | fault | answer <;> exact hkeeps
        | pending | finished =>
            rcases progress with phase' | fault | answer <;> exact .same t _ _
      · rcases progress with phase' | fault | answer <;> nofun

/-- What is done through the owner keeps to the locks. -/
theorem Use.steady_of_turn {use : Use κ V E} {r : Turn κ (Use κ V E) Answer}
    (h : use.turn plan t choice s = some (s', events, r)) :
    Steady owner Use.owns t s s' use r := by
  cases use with
  | schedule stage =>
      obtain ⟨r', hturn, rfl⟩ := exists_of_nest h
      exact (Schedule.steady_of_turn hturn).within (fun _ _ => rfl)
        (fun _ => Turn.owns_of_ends rfl) fun _ => Turn.owns_of_ends rfl
  | drain max =>
      cases h
      refine .of_idle (fun _ => rfl) (fun _ => rfl) ?_
      rintro y ⟨⟩ l
      cases l <;> rfl
  | draining stage =>
      obtain ⟨r', hturn, rfl⟩ := exists_of_nest h
      exact (Drain.steady_of_turn hturn).within (fun _ _ => rfl)
        (fun _ => Turn.owns_of_ends rfl) fun _ => Turn.owns_of_ends rfl
  | await stage =>
      obtain ⟨r', hturn, rfl⟩ := exists_of_nest h
      exact (Await.steady_of_turn hturn).within (fun _ _ => rfl)
        (fun _ => Turn.owns_of_ends rfl) fun _ => Turn.owns_of_ends rfl
  | pendingSize phase =>
      obtain ⟨⟨pending, r'⟩, hsize, heq⟩ := Option.map_eq_some_iff.mp h
      cases heq
      refine steady_onPending _ (Channel.keeps_of_sizeTurn hsize) ?_ (fun _ l => by cases l <;> rfl)
        (fun _ => Turn.owns_of_ends rfl) fun _ => Turn.owns_of_ends rfl
      rintro code phase' rfl
      exact absurd hsize Channel.sizeTurn_ne_run
  | finishedSize phase =>
      obtain ⟨⟨finished, r'⟩, hsize, heq⟩ := Option.map_eq_some_iff.mp h
      cases heq
      exact steady_counting _ hsize (fun _ l => by cases l <;> rfl) (fun _ => Turn.owns_of_ends rfl)
        fun _ => Turn.owns_of_ends rfl
  | busy =>
      cases h
      exact .of_idle (fun _ => rfl) (fun l => by cases l <;> rfl) nofun

variable {call : Call κ V E} {r : Turn κ (Call κ V E) Answer}

/-- **Every call keeps to the locks**, and runs code without any. -/
theorem Call.steady_of_turn (hidle : call.IsIdle)
    (h : turn plan t choice s call = some (s', events, r)) :
    Steady owner Call.owns t s s' call r := by
  cases Call.turned_of_turn h with
  | lent use _ =>
      refine .of_idle ?_ (fun _ => rfl) ?_
      · intro l
        cases l <;> rfl
      · rintro y ⟨⟩ l
        exact hidle l
  | refused _ _ | missed _ _ =>
      exact .of_idle (fun _ => rfl) (fun _ => rfl) (Turn.owns_of_ends rfl)
  | inside hturn =>
      refine (Use.steady_of_turn hturn).within (fun _ _ => rfl) ?_ ?_
      · rintro b y ⟨⟩ l
        rfl
      · rintro fault y ⟨⟩ l
        rfl
  | answered _ | failed _ =>
      refine .of_idle ?_ (fun _ => rfl) (Turn.owns_of_ends rfl)
      intro l
      cases l <;> rfl
  | handle hturn =>
      exact (HandleUse.steady_of_turn hturn).within (fun _ _ => rfl)
        (fun _ => Turn.owns_of_ends rfl) fun _ => Turn.owns_of_ends rfl
  | taken _ _ _ =>
      refine .of_idle ?_ (fun _ => rfl) ?_
      · intro l
        cases l <;> rfl
      · rintro y ⟨⟩ l
        cases l <;> rfl
  | teardown hturn =>
      exact (Teardown.steady_of_turn hturn).within (fun _ _ => rfl)
        (fun _ => Turn.owns_of_ends rfl) fun _ => Turn.owns_of_ends rfl
  | work hturn =>
      exact (Work.steady_of_turn hturn).within (fun _ _ => rfl)
        (fun _ => Turn.owns_of_ends rfl) fun _ => Turn.owns_of_ends rfl

/-- So a call that goes on has taken no lock before its beginning. -/
theorem Call.isIdle_of_next {call' : Call κ V E}
    (h : turn plan t choice s call = some (s', events, r)) (hnext : r.next? = some call') :
    call'.IsIdle := by
  cases call' with
  | opening use => exact absurd rfl (ne_opening_of_next h hnext use)
  | inside _ | handle _ | teardown _ | work _ | closing _ | taking _ => trivial

end Offload.Pipeline
