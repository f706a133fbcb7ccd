import Offload.Proofs.Channel.Conservation
import Offload.Proofs.Locks

/-!
# The lock of a channel

A push, a pop, a count and a clear own the channel's lock exactly in the stages of their visit that
own it. They keep to the lock, run code only when they do not own it, and want for nothing else:
one that cannot go on wants the lock, or sleeps.

## Main results

* `Push.keeps_of_turn`, `Pop.keeps_of_turn`, `Clear.keeps_of_turn`, `keeps_of_sizeTurn`: one step
  of each part.
* `locks_fits`: the calls of a channel's machine keep to the channel's lock.
-/

namespace Offload.Channel

variable {κ ω α ρ ν : Type} {t : Tid} {choice : Choice} {c c' : Channel α}
  {marks : List (Mark α)}

/-! ### The parts -/

/-- Whether a push owns the lock. -/
def Push.owns : Push α → Bool
  | .adding _ phase => phase.owns
  | .notifying | .hooking | .ending _ => false

/-- Whether a push wants the lock before it can go on. -/
def Push.wants : Push α → Bool
  | .adding _ phase => !phase.owns
  | .notifying | .hooking | .ending _ => false

/-- Whether a pop owns the lock. -/
def Pop.owns (pop : Pop α) : Bool :=
  pop.phase.owns

/-- Whether a clear owns the lock. -/
def Clear.owns : Clear α → Bool
  | .taking phase => phase.owns
  | .finalizing _ _ _ | .broken => false

/-- Whether a clear wants the lock before it can go on. -/
def Clear.wants : Clear α → Bool
  | .taking phase => !phase.owns
  | .finalizing _ _ _ | .broken => false

/-- **A push keeps to the lock**, and calls the hook without it. -/
theorem Push.keeps_of_turn {hook : Option κ} {push : Push α} {turn : Turn κ (Push α) Unit}
    (h : push.turn hook t choice c = some (c', marks, turn)) :
    Keeps t c.owner c'.owner push.owns (turn.holds Push.owns) ∧
      ∀ code push', turn = .run code push' → push'.owns = false := by
  cases push with
  | adding item phase =>
      obtain ⟨⟨c₁, progress⟩, hvisit, heq⟩ := Option.map_eq_some_iff.mp h
      cases heq
      have hkeeps := Visit.keeps_of_turn hvisit
      rcases progress with phase' | fault | answer
      · exact ⟨hkeeps, fun _ _ => nofun⟩
      · exact ⟨hkeeps, fun _ _ => nofun⟩
      · exact ⟨hkeeps, fun _ _ => nofun⟩
  | notifying =>
      cases h
      exact ⟨.same t _ _, fun _ _ => nofun⟩
  | hooking =>
      cases hook with
      | none =>
          cases h
          exact ⟨.same t _ _, fun _ _ => nofun⟩
      | some code =>
          cases h
          refine ⟨.same t _ _, ?_⟩
          rintro code' push' ⟨⟩
          rfl
  | ending outcome =>
      cases outcome <;>
      · cases h
        exact ⟨.same t _ _, fun _ _ => nofun⟩

/-- **A pop keeps to the lock.** -/
theorem Pop.keeps_of_turn {pop : Pop α} {turn : Turn κ (Pop α) (Option α)}
    (h : pop.turn t choice c = some (c', marks, turn)) :
    Keeps t c.owner c'.owner pop.owns (turn.holds Pop.owns) := by
  obtain ⟨⟨c₁, progress⟩, hvisit, heq⟩ := Option.map_eq_some_iff.mp h
  cases heq
  have hkeeps := Visit.keeps_of_turn hvisit
  cases progress with
  | on phase' => exact hkeeps
  | ended outcome =>
      have hnone : (Pop.afterVisit pop.wait outcome : Turn κ (Pop α) (Option α)).holds Pop.owns =
          false := by
        rcases outcome with fault | _ | _ | item
        · rfl
        · rfl
        · by_cases hwait : pop.wait = .endless <;> simp [Pop.afterVisit, hwait, Turn.holds,
            Pop.owns, Pop.start, Phase.owns]
        · rfl
      rw [hnone]
      exact hkeeps

/-- **A clear keeps to the lock**, and runs finalizers without it. -/
theorem Clear.keeps_of_turn {finalizer : α → Option κ} {clear : Clear α}
    {turn : Turn κ (Clear α) Nat}
    (h : clear.turn finalizer t choice c = some (c', marks, turn)) :
    Keeps t c.owner c'.owner clear.owns (turn.holds Clear.owns) ∧
      ∀ code clear', turn = .run code clear' → clear'.owns = false := by
  cases clear with
  | taking phase =>
      obtain ⟨⟨c₁, progress⟩, hvisit, heq⟩ := Option.map_eq_some_iff.mp h
      cases heq
      have hkeeps := Visit.keeps_of_turn hvisit
      rcases progress with phase' | fault | answer
      · exact ⟨hkeeps, fun _ _ => nofun⟩
      · exact ⟨hkeeps, fun _ _ => nofun⟩
      · exact ⟨hkeeps, fun _ _ => nofun⟩
  | finalizing count rest fault =>
      cases rest with
      | nil =>
          cases fault <;>
          · cases h
            exact ⟨.same t _ _, fun _ _ => nofun⟩
      | cons item rest =>
          cases h
          cases finalizer item with
          | none => exact ⟨.same t _ _, fun _ _ => nofun⟩
          | some code =>
              refine ⟨.same t _ _, ?_⟩
              rintro code' clear' ⟨⟩
              rfl
  | broken =>
      cases h
      exact ⟨.same t _ _, fun _ _ => nofun⟩

/-- **A count keeps to the lock.** -/
theorem keeps_of_sizeTurn {phase : Phase Nat} {turn : Turn κ (Phase Nat) Nat}
    (h : sizeTurn t choice c phase = some (c', turn)) :
    Keeps t c.owner c'.owner phase.owns (turn.holds Phase.owns) := by
  obtain ⟨⟨c₁, progress⟩, hvisit, heq⟩ := Option.map_eq_some_iff.mp h
  cases heq
  have hkeeps := Visit.keeps_of_turn hvisit
  rcases progress with phase' | fault | answer <;> exact hkeeps

/-! ### What a part wants -/

/-- A push that cannot go on wants the lock. -/
theorem Push.wants_of_stuck {hook : Option κ} {push : Push α}
    (h : push.turn hook t choice c = none) : push.wants = true := by
  cases push with
  | adding item phase => simp [wants, Visit.owns_of_stuck h]
  | notifying => cases h
  | hooking => cases hook <;> cases h
  | ending outcome => cases outcome <;> cases h

/-- A clear that cannot go on wants the lock. -/
theorem Clear.wants_of_stuck {finalizer : α → Option κ} {clear : Clear α}
    (h : clear.turn finalizer t choice c = none) : clear.wants = true := by
  cases clear with
  | taking phase => simp [wants, Visit.owns_of_stuck h]
  | finalizing count rest fault =>
      cases rest with
      | nil => cases fault <;> cases h
      | cons item rest => cases h
  | broken => cases h

/-- A push that wants the lock does not own it. -/
theorem Push.owns_of_wants {push : Push α} (h : push.wants = true) : push.owns = false := by
  cases push with
  | adding item phase => simpa [wants, owns] using h
  | notifying | hooking | ending _ => rfl

/-- A clear that wants the lock does not own it. -/
theorem Clear.owns_of_wants {clear : Clear α} (h : clear.wants = true) : clear.owns = false := by
  cases clear with
  | taking phase => simpa [wants, owns] using h
  | finalizing _ _ _ | broken => rfl

/-! ### The machine of one channel -/

/-- Whether a call owns the channel's lock. -/
def Call.owns : Call α → Bool
  | .push p => p.owns
  | .pop p => p.owns
  | .size phase => phase.owns
  | .clear p => p.owns

/-- Whether a call wants the channel's lock before it can go on. -/
def Call.wants : Call α → Bool
  | .push p => p.wants
  | .pop p => !p.owns
  | .size phase => !phase.owns
  | .clear p => p.wants

/-- The only lock of a channel's machine. -/
def locks : Locks Unit (Channel α) (Call α) where
  owner c _ := c.owner
  free c _ := c.release
  owns call _ := call.owns
  wants call := if call.wants then some () else none
  rank _ := 0
  sound _ := True

variable {hook : Option κ} {finalizer : α → Option κ} {call : Call α} {events : List (Event α ν)}
  {r : Turn κ (Call α) (Answer α)}

/-- What a call holds after a step of its part, the part holds. -/
theorem holds_of_embed {γ β : Type} {wrap : γ → Call α} {answer : β → Answer α}
    {part : Channel α × List (Mark α) × Turn κ γ β} {holds : Call α → Bool} {holds' : γ → Bool}
    (heq : embed wrap answer part = (c', events, r)) (hwrap : ∀ p, holds (wrap p) = holds' p) :
    r.holds holds = part.2.2.holds holds' := by
  obtain ⟨c₁, marks, r'⟩ := part
  cases heq
  cases r' with
  | stay p => exact hwrap p
  | run _ _ | ret _ | fail _ | abort => rfl

/-- A call keeps to the lock as its part does. -/
theorem keeps_of_embed {γ β : Type} {wrap : γ → Call α} {answer : β → Answer α} {owns : γ → Bool}
    {part : Channel α × List (Mark α) × Turn κ γ β} {held : Bool}
    (heq : embed wrap answer part = (c', events, r)) (hwrap : ∀ p, (wrap p).owns = owns p)
    (hkeeps : Keeps t c.owner part.1.owner held (part.2.2.holds owns)) :
    Keeps t c.owner c'.owner held (r.holds Call.owns) := by
  rw [holds_of_embed heq hwrap]
  cases heq
  exact hkeeps

/-- A call runs code when its part does. -/
theorem exists_run_of_embed {γ β : Type} {wrap : γ → Call α} {answer : β → Answer α}
    {part : Channel α × List (Mark α) × Turn κ γ β} {code : κ} {call' : Call α}
    (heq : embed wrap answer part = (c', events, .run code call')) :
    ∃ p, part.2.2 = .run code p ∧ call' = wrap p := by
  obtain ⟨c₁, marks, r'⟩ := part
  cases r' <;> cases heq
  exact ⟨_, rfl, rfl⟩

/-- **A call keeps to the lock**, and runs code without it. -/
theorem Call.keeps_of_turn (h : turn hook finalizer t choice c call = some (c', events, r)) :
    Keeps t c.owner c'.owner call.owns (r.holds Call.owns) ∧
      ∀ code call', r = .run code call' → call'.owns = false := by
  cases call with
  | push p =>
      obtain ⟨part, hturn, heq⟩ := Option.map_eq_some_iff.mp h
      obtain ⟨hkeeps, hrun⟩ := Push.keeps_of_turn hturn
      refine ⟨keeps_of_embed heq (fun _ => rfl) hkeeps, ?_⟩
      rintro code call' rfl
      obtain ⟨p', hp', rfl⟩ := exists_run_of_embed heq
      exact hrun code p' hp'
  | pop p =>
      obtain ⟨part, hturn, heq⟩ := Option.map_eq_some_iff.mp h
      refine ⟨keeps_of_embed heq (fun _ => rfl) (Pop.keeps_of_turn hturn), ?_⟩
      rintro code call' rfl
      obtain ⟨p', hp', -⟩ := exists_run_of_embed heq
      exact absurd hp' ((Pop.turn_plain hturn).2 code p')
  | size phase =>
      obtain ⟨⟨c₁, part⟩, hturn, heq⟩ := Option.map_eq_some_iff.mp h
      refine ⟨keeps_of_embed heq (fun _ => rfl) (keeps_of_sizeTurn hturn), ?_⟩
      rintro code call' rfl
      obtain ⟨phase', rfl, -⟩ := exists_run_of_embed heq
      exact absurd hturn sizeTurn_ne_run
  | clear p =>
      obtain ⟨part, hturn, heq⟩ := Option.map_eq_some_iff.mp h
      obtain ⟨hkeeps, hrun⟩ := Clear.keeps_of_turn hturn
      refine ⟨keeps_of_embed heq (fun _ => rfl) hkeeps, ?_⟩
      rintro code call' rfl
      obtain ⟨p', hp', rfl⟩ := exists_run_of_embed heq
      exact hrun code p' hp'

/-- A call that cannot go on wants the lock, or sleeps and will want it. -/
theorem Call.wants_of_stuck (h : turn hook finalizer t choice c call =
    (none : Option (Channel α × List (Event α ν) × Turn κ (Call α) (Answer α)))) :
    call.wants = true := by
  cases call with
  | push p => exact Push.wants_of_stuck (Option.map_eq_none_iff.mp h)
  | pop p => simp [wants, Pop.owns, Visit.owns_of_stuck (Option.map_eq_none_iff.mp h)]
  | size phase =>
      simp [wants, Visit.owns_of_stuck (Option.map_eq_none_iff.mp h)]
  | clear p => exact Clear.wants_of_stuck (Option.map_eq_none_iff.mp h)

/-- A call that wants the lock does not own it. -/
theorem Call.owns_of_wants (h : call.wants = true) : call.owns = false := by
  cases call with
  | push p => exact Push.owns_of_wants h
  | pop p | size phase => simpa [wants, owns] using h
  | clear p => exact Clear.owns_of_wants h

/-- **The calls of a channel's machine keep to its lock.** -/
theorem locks_fits (hook : Option κ) (finalizer : α → Option κ) :
    locks.Fits (library (ρ := ρ) (ν := ν) hook finalizer) where
  begins := by
    rintro call ⟨request, rfl⟩
    exact ⟨trivial, fun _ => by cases request <;> rfl⟩
  resume := by
    refine fun call result _ => ⟨trivial, fun howns l => ?_⟩
    have howns : call.owns = false := howns l
    cases call with
    | push p => cases p <;> exact howns
    | pop p | size phase => exact howns
    | clear p =>
        cases p with
        | taking phase => cases result <;> exact howns
        | finalizing count rest fault => cases result <;> cases fault <;> rfl
        | broken => cases result <;> rfl
  keeps _ _ _ _ _ _ _ _ hturn :=
    ⟨⟨fun _ => (Call.keeps_of_turn hturn).1,
      fun code call' hrun _ => (Call.keeps_of_turn hturn).2 code call' hrun⟩, fun _ _ => trivial⟩
  abort := by
    intro t choice c call c' events _ hturn
    obtain rfl := broken_of_abort hturn
    cases hturn
    rfl
  wants := by
    intro t choice c call l hstuck _
    exact if_pos (Call.wants_of_stuck hstuck)
  order := by
    intro call l l' hwants howns
    have hnot : call.owns = false := by
      refine Call.owns_of_wants ?_
      by_contra hne
      rw [show locks.wants call = none from if_neg hne] at hwants
      cases hwants
    rw [show locks.owns call l' = call.owns from rfl, hnot] at howns
    cases howns

/-- A run on a new channel starts with the lock free. -/
theorem locks_start {hook : Option κ} {finalizer : α → Option κ} (world : ω) (codes : List κ) :
    locks.Starts (library (ρ := ρ) (ν := ν) hook finalizer) ⟨empty, [], fun _ => ⟨none, []⟩⟩
      (.ofCodes empty world codes) where
  shows := Machine.shows_ofCodes (fun _ => rfl) empty world codes
  live := rfl
  sound _ _ _ := trivial
  held := Locks.held_of_nobody (fun _ => rfl) []

end Offload.Channel
