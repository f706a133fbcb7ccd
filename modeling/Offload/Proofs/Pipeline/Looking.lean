import Offload.Pipeline.Calls

/-!
# Looks at the finished channel

A drain and an await look at the finished channel in short visits: they take its lock, look, and
leave it. Here each step of such a visit is given as an equation, so that what follows from it can
be computed.

## Main results

* `turn_going`, `turn_drawing`, `turn_drawn`, `turn_parted`: a drain takes out a result, or finds
  none.
* `turn_checking`, `turn_checked`, `turn_answering`: a drain looks whether any results are left.
* `turn_arriving`, `turn_tested`, `turn_awaited`, `turn_received`: an await takes out a result.
* `turn_tested_nil`, `turn_drowsy`, `turn_asleep`, `turn_woken`, `turn_overslept`, `turn_givenUp`:
  an await whose time is limited finds none.
-/

namespace Offload.Pipeline

variable {κ V E ν : Type} {plan : Plan κ} {t : Tid} {choice : Choice} {s : Pipeline κ V E}

/-- The same pipeline with another finished channel. -/
def looked (s : Pipeline κ V E) (finished : Channel (Finished κ V E)) : Pipeline κ V E :=
  { s with finished := finished }

/-- The finished channel in the hands of thread `t`. -/
def held (t : Tid) (c : Channel (Finished κ V E)) : Channel (Finished κ V E) :=
  { c with owner := some t }

/-- The finished channel without its first result. -/
def drawn (c : Channel (Finished κ V E)) : Channel (Finished κ V E) :=
  { c with value := c.value.tail }

theorem drawn_eq {c : Channel (Finished κ V E)} (hnone : c.value = []) : drawn c = c := by
  obtain ⟨value, owner, poisoned, sleepers⟩ := c
  cases hnone
  rfl

theorem turn_opening {use : Use κ V E} (howned : s.owned = true) :
    turn (ν := ν) plan t choice s (.opening use) =
      some ({ s with borrows := s.borrows + 1 }, [], .stay (.inside use)) :=
  if_pos howned

/-! ### Drains -/

theorem turn_going {left : Nat} :
    turn (ν := ν) plan t choice s (.inside (.draining (.going (left + 1)))) =
      some (s, [], .stay (.inside (.draining (.popping left (.start .never))))) :=
  rfl

theorem turn_drawing {left : Nat} (hfree : s.finished.owner = none) :
    turn (ν := ν) plan t choice s (.inside (.draining (.popping left (.start .never)))) =
      some (looked s (held t s.finished), [],
        .stay (.inside (.draining (.popping left ⟨.never, .acting false⟩)))) := by
  obtain ⟨intake, pending, ⟨value, owner, poisoned, sleepers⟩⟩ := s
  cases hfree
  rfl

theorem free_of_drawing {left : Nat}
    {r : Pipeline κ V E × List (Event V E ν) × Turn κ (Call κ V E) Answer}
    (h : turn plan t choice s (.inside (.draining (.popping left (.start .never)))) = some r) :
    s.finished.owner = none := by
  obtain ⟨intake, pending, ⟨value, owner, poisoned, sleepers⟩⟩ := s
  cases owner with
  | none => rfl
  | some u => cases h

theorem turn_drawn {left : Nat} {again : Bool} :
    turn (ν := ν) plan t choice s (.inside (.draining (.popping left ⟨.never, .acting again⟩))) =
      some (looked s (drawn s.finished),
        s.finished.value.head?.elim [] fun f => [.received f.ticket],
        .stay (.inside (.draining (.popping left
          ⟨.never, .leaving (.ok (some s.finished.value.head?))⟩)))) := by
  obtain ⟨intake, pending, ⟨value, owner, poisoned, sleepers⟩⟩ := s
  cases value <;> rfl

theorem turn_drawn_nil {left : Nat} {again : Bool} (hnone : s.finished.value = []) :
    turn (ν := ν) plan t choice s (.inside (.draining (.popping left ⟨.never, .acting again⟩))) =
      some (s, [],
        .stay (.inside (.draining (.popping left ⟨.never, .leaving (.ok (some none))⟩)))) := by
  obtain ⟨intake, pending, ⟨value, owner, poisoned, sleepers⟩⟩ := s
  cases hnone
  rfl

theorem turn_parted {left : Nat} {found : Option (Finished κ V E)} :
    turn (ν := ν) plan t choice s
      (.inside (.draining (.popping left ⟨.never, .leaving (.ok (some found))⟩))) =
      some (looked s s.finished.release, [],
        .stay (.inside (.draining (found.elim (.checking .arriving) (.delivering left))))) := by
  cases found <;> rfl

theorem turn_checking (hfree : s.finished.owner = none) :
    turn (ν := ν) plan t choice s (.inside (.draining (.checking .arriving))) =
      some (looked s (held t s.finished), [],
        .stay (.inside (.draining (.checking (.acting false))))) := by
  obtain ⟨intake, pending, ⟨value, owner, poisoned, sleepers⟩⟩ := s
  cases hfree
  rfl

theorem free_of_checking {r : Pipeline κ V E × List (Event V E ν) × Turn κ (Call κ V E) Answer}
    (h : turn plan t choice s (.inside (.draining (.checking .arriving))) = some r) :
    s.finished.owner = none := by
  obtain ⟨intake, pending, ⟨value, owner, poisoned, sleepers⟩⟩ := s
  cases owner with
  | none => rfl
  | some u => cases h

theorem turn_checked {again : Bool} :
    turn (ν := ν) plan t choice s (.inside (.draining (.checking (.acting again)))) =
      some (s, [], .stay (.inside (.draining
        (.checking (.leaving (.ok (some s.finished.value.length))))))) :=
  rfl

theorem turn_answering {n : Nat} :
    turn (ν := ν) plan t choice s (.inside (.draining (.checking (.leaving (.ok (some n)))))) =
      some (looked s s.finished.release, [], .stay (.closing (.ok (.drained (n != 0))))) :=
  rfl

/-! ### Awaits -/

section Awaits

variable {wait : Channel.Wait}

/-- How an await goes on when it has come to the finished channel: it tests whether there is a
result, unless it is not ready to wait for one. -/
def arrived : Channel.Wait → Phase (Option (Finished κ V E))
  | .endless | .limited => .testing false
  | .never => .acting false

theorem turn_arriving (hfree : s.finished.owner = none) :
    turn (ν := ν) plan t choice s (.inside (.await (.start wait))) =
      some (looked s (held t s.finished), [],
        .stay (.inside (.await (.popping ⟨wait, arrived wait⟩)))) := by
  obtain ⟨intake, pending, ⟨value, owner, poisoned, sleepers⟩⟩ := s
  cases hfree
  cases wait <;> rfl

theorem free_of_arriving
    {r : Pipeline κ V E × List (Event V E ν) × Turn κ (Call κ V E) Answer}
    (h : turn plan t choice s (.inside (.await (.start wait))) = some r) :
    s.finished.owner = none := by
  obtain ⟨intake, pending, ⟨value, owner, poisoned, sleepers⟩⟩ := s
  cases owner with
  | none => rfl
  | some u => cases h

/-- An await that tests whether there is a result finds that there is one. -/
theorem turn_tested {again : Bool} (hsome : s.finished.value ≠ []) :
    turn (ν := ν) plan t choice s (.inside (.await (.popping ⟨wait, .testing again⟩))) =
      some (s, [], .stay (.inside (.await (.popping ⟨wait, .acting again⟩)))) := by
  obtain ⟨intake, pending, ⟨value, owner, poisoned, sleepers⟩⟩ := s
  cases value with
  | nil => exact absurd rfl hsome
  | cons f later => cases wait <;> rfl

theorem turn_awaited {again : Bool} {f : Finished κ V E} {later : List (Finished κ V E)}
    (hvalue : s.finished.value = f :: later) :
    turn (ν := ν) plan t choice s (.inside (.await (.popping ⟨wait, .acting again⟩))) =
      some (looked s (drawn s.finished), [.received f.ticket],
        .stay (.inside (.await (.popping ⟨wait, .leaving (.ok (some (some f)))⟩)))) := by
  obtain ⟨intake, pending, ⟨value, owner, poisoned, sleepers⟩⟩ := s
  cases hvalue
  cases wait <;> rfl

/-- An await that finds none gives up if its time is over, and falls asleep otherwise. -/
theorem turn_tested_nil {again : Bool} (hnone : s.finished.value = []) :
    turn (ν := ν) plan t choice s (.inside (.await (.popping ⟨.limited, .testing again⟩))) =
      some (s, [], .stay (.inside (.await (.popping ⟨.limited,
        if choice = .expire then .leaving (.ok none) else .drowsy⟩)))) := by
  obtain ⟨intake, pending, ⟨value, owner, poisoned, sleepers⟩⟩ := s
  cases hnone
  cases choice <;> rfl

theorem turn_drowsy :
    turn (ν := ν) plan t choice s (.inside (.await (.popping ⟨wait, .drowsy⟩))) =
      some (looked s (s.finished.sleep t), [],
        .stay (.inside (.await (.popping ⟨wait, .asleep⟩)))) :=
  rfl

/-- An await that sleeps makes a step only if it is stirred or its time runs out. -/
theorem turn_asleep (hmem : t ∈ s.finished.sleepers) :
    turn (ν := ν) plan t choice s (.inside (.await (.popping ⟨.limited, .asleep⟩))) =
      match choice with
      | .go _ => none
      | .stir => some (looked s (s.finished.rouse t), [],
          .stay (.inside (.await (.popping ⟨.limited, .asleep⟩))))
      | .expire => some (looked s (s.finished.rouse t), [],
          .stay (.inside (.await (.popping ⟨.limited, .overslept⟩)))) := by
  simp only [turn, Use.turn, Await.turn, Channel.Pop.turn, Visit.turn, hmem, if_true]
  cases choice <;> rfl

/-- An await that is no longer among the sleepers takes the lock and tests again. -/
theorem turn_woken (hnot : t ∉ s.finished.sleepers) (hfree : s.finished.owner = none)
    (hsound : s.finished.poisoned = false) :
    turn (ν := ν) plan t choice s (.inside (.await (.popping ⟨wait, .asleep⟩))) =
      some (looked s (held t s.finished), [],
        .stay (.inside (.await (.popping ⟨wait, .testing true⟩)))) := by
  obtain ⟨intake, pending, ⟨value, owner, poisoned, sleepers⟩⟩ := s
  cases hfree
  cases hsound
  simp only [turn, Use.turn, Await.turn, Channel.Pop.turn, Visit.turn, hnot, if_false]
  rfl

theorem free_of_woken (hnot : t ∉ s.finished.sleepers)
    {r : Pipeline κ V E × List (Event V E ν) × Turn κ (Call κ V E) Answer}
    (h : turn plan t choice s (.inside (.await (.popping ⟨wait, .asleep⟩))) = some r) :
    s.finished.owner = none := by
  simp only [turn, Use.turn, Await.turn, Channel.Pop.turn, Visit.turn, hnot, if_false] at h
  obtain ⟨intake, pending, ⟨value, owner, poisoned, sleepers⟩⟩ := s
  cases owner with
  | none => rfl
  | some u => cases h

/-- So does one whose time ran out in its sleep. -/
theorem turn_overslept (hfree : s.finished.owner = none) (hsound : s.finished.poisoned = false) :
    turn (ν := ν) plan t choice s (.inside (.await (.popping ⟨wait, .overslept⟩))) =
      some (looked s (held t s.finished), [],
        .stay (.inside (.await (.popping ⟨wait, .testing true⟩)))) := by
  obtain ⟨intake, pending, ⟨value, owner, poisoned, sleepers⟩⟩ := s
  cases hfree
  cases hsound
  rfl

theorem free_of_overslept
    {r : Pipeline κ V E × List (Event V E ν) × Turn κ (Call κ V E) Answer}
    (h : turn plan t choice s (.inside (.await (.popping ⟨wait, .overslept⟩))) = some r) :
    s.finished.owner = none := by
  obtain ⟨intake, pending, ⟨value, owner, poisoned, sleepers⟩⟩ := s
  cases owner with
  | none => rfl
  | some u => cases h

theorem turn_givenUp :
    turn (ν := ν) plan t choice s
      (.inside (.await (.popping ⟨wait, .leaving (.ok none)⟩))) =
      some (looked s s.finished.release, [], .stay (.closing (.ok (.awaited false)))) := by
  cases wait <;> rfl

theorem turn_received {f : Finished κ V E} :
    turn (ν := ν) plan t choice s
      (.inside (.await (.popping ⟨wait, .leaving (.ok (some (some f)))⟩))) =
      some (looked s s.finished.release, [], .stay (.inside (.await (.delivering f)))) := by
  cases wait <;> rfl

end Awaits

end Offload.Pipeline
