import Offload.Channel
import Offload.Proofs.Monitor.Visit
import Offload.Proofs.Scene

/-!
# What the parts of a channel do to its items

A mark **adds** items at the back or **removes** items from the front. Each part of a channel
changes the items exactly as its marks say, in the very step that notes them: a push only
adds, a pop and a clear only remove, a count does neither. Together these are the step lemma
of every account of items, whoever runs the parts.

## Main results

* `Push.items_of_turn`, `Pop.items_of_turn`, `Clear.items_of_turn`, `value_of_sizeTurn`: one
  step of each part.
* `Push.marks_of_turn`, `Pop.marks_of_turn`, `Clear.marks_of_turn`: what one step of each part
  may do to the items.
* `Pop.held_of_turn`, `Pop.held_of_popped`: a pop comes to hold an item in the step that removes
  it, and keeps it until it answers with it.
* `Clear.due_of_turn`: what a clear removes is due to be finalized, front to back.
-/

namespace Offload.Channel

variable {κ α ρ : Type}

/-! ### What marks say -/

/-- The items that a mark adds. -/
def Mark.added : Mark α → List α
  | .appended item => [item]
  | .hooked | .popped _ | .cleared _ | .finalized _ => []

/-- The items that a mark removes, front to back. -/
def Mark.removed : Mark α → List α
  | .popped item => [item]
  | .cleared items => items
  | .appended _ | .hooked | .finalized _ => []

/-- The items that marks add. -/
def added (marks : List (Mark α)) : List α :=
  marks.flatMap Mark.added

/-- The items that marks remove. -/
def removed (marks : List (Mark α)) : List α :=
  marks.flatMap Mark.removed

@[simp] theorem added_nil : added ([] : List (Mark α)) = [] := rfl

@[simp] theorem removed_nil : removed ([] : List (Mark α)) = [] := rfl

theorem added_append (marks marks' : List (Mark α)) :
    added (marks ++ marks') = added marks ++ added marks' := by
  simp [added]

theorem removed_append (marks marks' : List (Mark α)) :
    removed (marks ++ marks') = removed marks ++ removed marks' := by
  simp [removed]

@[simp] theorem added_singleton (mark : Mark α) : added [mark] = mark.added := by
  simp [added]

@[simp] theorem removed_singleton (mark : Mark α) : removed [mark] = mark.removed := by
  simp [removed]

attribute [simp] Mark.added Mark.removed

/-- The items that a mark hands to a clear. -/
def Mark.toClear : Mark α → List α
  | .cleared items => items
  | .appended _ | .hooked | .popped _ | .finalized _ => []

/-- The items that a mark hands to their finalizers. -/
def Mark.toFinalizer : Mark α → List α
  | .finalized item => [item]
  | .appended _ | .hooked | .popped _ | .cleared _ => []

attribute [simp] Mark.toClear Mark.toFinalizer

/-- The items that clears have removed. -/
def cleared (marks : List (Mark α)) : List α :=
  marks.flatMap Mark.toClear

/-- The items whose finalizers have been due. -/
def finalized (marks : List (Mark α)) : List α :=
  marks.flatMap Mark.toFinalizer

theorem cleared_append (marks marks' : List (Mark α)) :
    cleared (marks ++ marks') = cleared marks ++ cleared marks' := by
  simp [cleared]

theorem finalized_append (marks marks' : List (Mark α)) :
    finalized (marks ++ marks') = finalized marks ++ finalized marks' := by
  simp [finalized]

/-! ### One step of each part -/

variable {t : Tid} {choice : Choice} {c c' : Channel α} {marks : List (Mark α)}

/-- **Inversion.** A push adds its item in the step that marks it, and does nothing else to the
items. -/
theorem Push.marks_of_turn {hook : Option κ} {push : Push α} {turn : Turn κ (Push α) Unit}
    (h : push.turn hook t choice c = some (c', marks, turn)) :
    (c'.value = c.value ∧ (marks = [] ∨ marks = [.hooked])) ∨
      ∃ item again, push = .adding item (.acting again) ∧ c'.value = c.value ++ [item] ∧
        marks = [.appended item] ∧ turn = .stay (.adding item (.leaving (.ok (some ())))) := by
  cases push with
  | adding item phase =>
      obtain ⟨⟨c₁, progress⟩, hturn, heq⟩ := Option.map_eq_some_iff.mp h
      cases heq
      rcases Visit.value_of_turn hturn with ⟨hvalue, hanswer, -⟩ | ⟨again, rfl, hvalue, rfl, -⟩
      · exact .inl ⟨hvalue, .inl (by rw [hanswer]; rfl)⟩
      · exact .inr ⟨item, again, rfl, hvalue, rfl, rfl⟩
  | notifying =>
      cases h
      exact .inl ⟨rfl, .inl rfl⟩
  | hooking =>
      cases hook with
      | none =>
          cases h
          exact .inl ⟨rfl, .inl rfl⟩
      | some code =>
          cases h
          exact .inl ⟨rfl, .inr rfl⟩
  | ending outcome =>
      cases outcome <;>
      · cases h
        exact .inl ⟨rfl, .inl rfl⟩

/-- A pop runs its critical section on the front item, however long it is ready to wait. -/
theorem Pop.visit_body (wait : Wait) :
    (Pop.visit wait : Visit (List α) (Option α)).body = takeFront := by
  cases wait <;> rfl

/-- **Inversion.** A pop removes the front item in the step that marks it, holds it from then
on, and does nothing else to the items. -/
theorem Pop.marks_of_turn {pop : Pop α} {turn : Turn κ (Pop α) (Option α)}
    (h : pop.turn t choice c = some (c', marks, turn)) :
    (c'.value = c.value ∧ marks = []) ∨
      ∃ item again, pop.phase = .acting again ∧ c.value = item :: c'.value ∧
        marks = [.popped item] ∧
        turn = .stay { pop with phase := .leaving (.ok (some (some item))) } := by
  obtain ⟨⟨c₁, progress⟩, hturn, heq⟩ := Option.map_eq_some_iff.mp h
  cases heq
  rcases Visit.value_of_turn hturn with ⟨hvalue, hanswer, -⟩ | ⟨again, hphase, hvalue, rfl, hanswer⟩
  · exact .inl ⟨hvalue, by rw [hanswer]; rfl⟩
  · rw [Pop.visit_body] at hvalue hanswer ⊢
    rw [hanswer]
    cases hitems : c.value with
    | nil =>
        rw [hitems] at hvalue
        exact .inl ⟨hvalue, rfl⟩
    | cons item rest =>
        rw [hitems] at hvalue
        exact .inr ⟨item, again, hphase, by rw [hvalue]; rfl, rfl, rfl⟩

/-- **Inversion.** A clear removes all items in the step that marks them, is to finalize them
from then on, and does nothing else to the items. -/
theorem Clear.marks_of_turn {finalizer : α → Option κ} {clear : Clear α}
    {turn : Turn κ (Clear α) Nat}
    (h : clear.turn finalizer t choice c = some (c', marks, turn)) :
    (c'.value = c.value ∧ (marks = [] ∨ ∃ item, marks = [.finalized item])) ∨
      ∃ again, clear = .taking (.acting again) ∧ c'.value = [] ∧ marks = [.cleared c.value] ∧
        turn = .stay (.taking (.leaving (.ok (some c.value)))) := by
  cases clear with
  | taking phase =>
      obtain ⟨⟨c₁, progress⟩, hturn, heq⟩ := Option.map_eq_some_iff.mp h
      cases heq
      rcases Visit.value_of_turn hturn with ⟨hvalue, hanswer, -⟩ | ⟨again, rfl, hvalue, rfl, -⟩
      · exact .inl ⟨hvalue, .inl (by rw [hanswer]; rfl)⟩
      · exact .inr ⟨again, rfl, hvalue, rfl, rfl⟩
  | finalizing count rest fault =>
      cases rest with
      | nil =>
          cases fault <;>
          · cases h
            exact .inl ⟨rfl, .inl rfl⟩
      | cons item rest =>
          cases h
          exact .inl ⟨rfl, .inr ⟨item, rfl⟩⟩
  | broken =>
      cases h
      exact .inl ⟨rfl, .inl rfl⟩

/-- A count changes nothing. -/
theorem value_of_sizeTurn {phase : Phase Nat} {turn : Turn κ (Phase Nat) Nat}
    (h : sizeTurn t choice c phase = some (c', turn)) : c'.value = c.value := by
  obtain ⟨⟨c₁, progress⟩, hturn, heq⟩ := Option.map_eq_some_iff.mp h
  cases heq
  rcases Visit.value_of_turn hturn with ⟨hvalue, -, -⟩ | ⟨again, -, hvalue, -, -⟩
  · exact hvalue
  · exact hvalue

/-- A push adds what it marks. -/
theorem Push.items_of_turn {hook : Option κ} {push : Push α} {turn : Turn κ (Push α) Unit}
    (h : push.turn hook t choice c = some (c', marks, turn)) :
    c'.value = c.value ++ added marks ∧ removed marks = [] := by
  rcases Push.marks_of_turn h with ⟨hvalue, rfl | rfl⟩ | ⟨item, again, -, hvalue, rfl, -⟩
  · simp [hvalue]
  · simp [hvalue]
  · simp [hvalue]

/-- A pop removes what it marks. -/
theorem Pop.items_of_turn {pop : Pop α} {turn : Turn κ (Pop α) (Option α)}
    (h : pop.turn t choice c = some (c', marks, turn)) :
    c.value = removed marks ++ c'.value ∧ added marks = [] := by
  rcases Pop.marks_of_turn h with ⟨hvalue, rfl⟩ | ⟨item, again, -, hvalue, rfl, -⟩
  · simp [hvalue]
  · simp [hvalue]

/-- A clear removes what it marks. -/
theorem Clear.items_of_turn {finalizer : α → Option κ} {clear : Clear α}
    {turn : Turn κ (Clear α) Nat}
    (h : clear.turn finalizer t choice c = some (c', marks, turn)) :
    c.value = removed marks ++ c'.value ∧ added marks = [] := by
  rcases Clear.marks_of_turn h with ⟨hvalue, rfl | ⟨item, rfl⟩⟩ | ⟨again, -, hvalue, rfl, -⟩
  · simp [hvalue]
  · simp [hvalue]
  · simp [hvalue]

/-- A push clears and finalizes nothing. -/
theorem Push.clears_of_turn {hook : Option κ} {push : Push α} {turn : Turn κ (Push α) Unit}
    (h : push.turn hook t choice c = some (c', marks, turn)) :
    cleared marks = [] ∧ finalized marks = [] := by
  obtain ⟨-, rfl | rfl⟩ | ⟨item, again, -, -, rfl, -⟩ := Push.marks_of_turn h <;> exact ⟨rfl, rfl⟩

/-- A pop clears and finalizes nothing. -/
theorem Pop.clears_of_turn {pop : Pop α} {turn : Turn κ (Pop α) (Option α)}
    (h : pop.turn t choice c = some (c', marks, turn)) :
    cleared marks = [] ∧ finalized marks = [] := by
  obtain ⟨-, rfl⟩ | ⟨item, again, -, -, rfl, -⟩ := Pop.marks_of_turn h <;> exact ⟨rfl, rfl⟩

/-! ### Aborts -/

/-- A push never aborts. -/
theorem Push.turn_live {hook : Option κ} {push : Push α}
    {part : Channel α × List (Mark α) × Turn κ (Push α) Unit}
    (h : push.turn hook t choice c = some part) : part.2.2 ≠ .abort := by
  cases push with
  | adding item phase =>
      obtain ⟨⟨c₁, progress⟩, -, rfl⟩ := Option.map_eq_some_iff.mp h
      rcases progress with _ | _ | _ <;> nofun
  | notifying =>
      cases h
      nofun
  | hooking => cases hook <;> cases h <;> nofun
  | ending outcome => cases outcome <;> cases h <;> nofun

/-- A count never aborts. -/
theorem sizeTurn_live {phase : Phase Nat} {part : Channel α × Turn κ (Phase Nat) Nat}
    (h : sizeTurn t choice c phase = some part) : part.2 ≠ .abort := by
  obtain ⟨⟨c₁, progress⟩, -, rfl⟩ := Option.map_eq_some_iff.mp h
  rcases progress with _ | _ | _ <;> nofun

/-- A count runs no code. -/
theorem sizeTurn_ne_run {phase phase' : Phase Nat} {code : κ} :
    sizeTurn t choice c phase ≠ some (c', .run code phase') := by
  intro h
  obtain ⟨⟨c₁, progress⟩, -, heq⟩ := Option.map_eq_some_iff.mp h
  rcases progress with _ | _ | _ <;> cases heq

/-- A push without a hook runs no code. -/
theorem Push.turn_ne_run {push push' : Push α} {code : κ} :
    push.turn none t choice c ≠ some (c', marks, .run code push') := by
  intro h
  cases push with
  | adding item phase =>
      obtain ⟨⟨c₁, progress⟩, -, heq⟩ := Option.map_eq_some_iff.mp h
      rcases progress with _ | _ | _ <;> cases heq
  | notifying | hooking => cases h
  | ending outcome => cases outcome <;> cases h

/-- A pop runs no code, and it never aborts. -/
theorem Pop.turn_plain {pop : Pop α}
    {part : Channel α × List (Mark α) × Turn κ (Pop α) (Option α)}
    (h : pop.turn t choice c = some part) :
    part.2.2 ≠ .abort ∧ ∀ code pop', part.2.2 ≠ .run code pop' := by
  obtain ⟨⟨c₁, progress⟩, -, rfl⟩ := Option.map_eq_some_iff.mp h
  rcases progress with phase | fault | _ | _ | item
  · exact ⟨nofun, nofun⟩
  · exact ⟨nofun, nofun⟩
  · exact ⟨nofun, nofun⟩
  · by_cases hwait : pop.wait = .endless <;> simp [Pop.afterVisit, hwait]
  · exact ⟨nofun, nofun⟩

/-- A clear aborts only when a second finalizer has failed. -/
theorem Clear.broken_of_abort {finalizer : α → Option κ} {clear : Clear α}
    {part : Channel α × List (Mark α) × Turn κ (Clear α) Nat}
    (h : clear.turn finalizer t choice c = some part) (habort : part.2.2 = .abort) :
    clear = .broken := by
  cases clear with
  | broken => rfl
  | taking phase =>
      obtain ⟨⟨c₁, progress⟩, -, rfl⟩ := Option.map_eq_some_iff.mp h
      rcases progress with _ | _ | _ <;> cases habort
  | finalizing count rest fault =>
      cases rest with
      | nil => cases fault <;> cases h <;> cases habort
      | cons item rest =>
          cases h
          cases hcode : finalizer item with
          | none => simp [hcode] at habort
          | some code => simp [hcode] at habort

/-! ### What pushes, pops and clears hold -/

/-- The item that a push is made for, until it has left the visit that adds it. -/
def Push.item? : Push α → Option α
  | .adding item _ => some item
  | .notifying | .hooking | .ending _ => none

/-- The item that a push has yet to add. -/
def Push.ahead : Push α → Option α
  | .adding item phase => if phase.held.isNone then some item else none
  | .notifying | .hooking | .ending _ => none

/-- Whether a push is in a phase in which pushes can be. -/
def Push.IsPlain : Push α → Prop
  | .adding _ phase => phase.IsPlain
  | .notifying | .hooking | .ending _ => True

/-- What a push has ahead is what it adds and what it has ahead then; it stays plain, and goes
on with the same item or none. -/
theorem Push.ahead_of_turn {hook : Option κ} {push : Push α} {turn : Turn κ (Push α) Unit}
    (h : push.turn hook t choice c = some (c', marks, turn)) (hplain : push.IsPlain) :
    push.ahead.toList = added marks ++ (turn.next?.bind Push.ahead).toList ∧
      ∀ push', turn.next? = some push' →
        push'.IsPlain ∧ (push'.item? = push.item? ∨ push'.item? = none) := by
  cases push with
  | adding item phase =>
      obtain ⟨⟨c₁, progress⟩, hturn, heq⟩ := Option.map_eq_some_iff.mp h
      cases heq
      cases progress with
      | on phase' =>
          have hplain' : phase'.IsPlain :=
            Visit.isPlain_of_turn rfl (fun _ => ⟨(), rfl⟩) hturn hplain
          obtain ⟨hheld, hheld'⟩ := Visit.held_of_turn hturn
          constructor
          · cases hanswer : Visit.answer? phase (.on phase') <;>
              simp [ahead, Turn.next?, hheld, hheld', hanswer]
          · rintro push' ⟨⟩
            exact ⟨hplain', .inl rfl⟩
      | ended outcome =>
          obtain rfl := Visit.leaving_of_ended hturn
          rcases outcome with fault | _ | _
          · exact hplain.elim
          · exact hplain.elim
          · refine ⟨rfl, ?_⟩
            rintro push' ⟨⟩
            exact ⟨trivial, .inr rfl⟩
  | notifying =>
      cases h
      refine ⟨rfl, ?_⟩
      rintro push' ⟨⟩
      exact ⟨trivial, .inl rfl⟩
  | hooking =>
      cases hook with
      | none =>
          cases h
          exact ⟨rfl, nofun⟩
      | some code =>
          cases h
          refine ⟨rfl, ?_⟩
          rintro push' ⟨⟩
          exact ⟨trivial, .inl rfl⟩
  | ending outcome =>
      cases outcome <;>
      · cases h
        exact ⟨rfl, nofun⟩

/-- A push that still has an item ahead had it ahead, and has added nothing. -/
theorem Push.ahead_of_next {hook : Option κ} {push push' : Push α} {turn : Turn κ (Push α) Unit}
    {item : α} (h : push.turn hook t choice c = some (c', marks, turn)) (hplain : push.IsPlain)
    (hnext : turn.next? = some push') (hahead : push'.ahead = some item) :
    push.ahead = some item ∧ added marks = [] := by
  have hsum := (push.ahead_of_turn h hplain).1
  rw [hnext, Option.bind_some, hahead, Option.toList_some] at hsum
  cases hpush : push.ahead with
  | none => simp [hpush] at hsum
  | some item' =>
      rw [hpush, Option.toList_some] at hsum
      obtain ⟨hadded, hitem⟩ := List.append_inj' (List.nil_append [item'] |>.trans hsum) rfl
      obtain rfl : item' = item := List.singleton_inj.mp hitem
      exact ⟨rfl, hadded.symm⟩

/-- The fault of the hook that a push is about to pass on. -/
def Push.fault? : Push α → Option Fault
  | .ending (.error fault) => some fault
  | .adding _ _ | .notifying | .hooking | .ending (.ok ()) => none

/-- The fault that a push is about to pass on after a turn, or has passed on. -/
def Push.faultAfter : Turn κ (Push α) Unit → Option Fault
  | .stay push | .run _ push => push.fault?
  | .fail fault => some fault
  | .ret () | .abort => none

/-- A push passes on the fault of the hook, and no other. -/
theorem Push.fault?_of_turn {hook : Option κ} {push : Push α} {turn : Turn κ (Push α) Unit}
    (h : push.turn hook t choice c = some (c', marks, turn)) (hplain : push.IsPlain) :
    push.fault? = faultAfter turn := by
  cases push with
  | adding item phase =>
      obtain ⟨⟨c₁, progress⟩, hturn, heq⟩ := Option.map_eq_some_iff.mp h
      cases heq
      cases progress with
      | on phase' => rfl
      | ended outcome =>
          obtain rfl := Visit.leaving_of_ended hturn
          rcases outcome with fault | _ | _
          · exact hplain.elim
          · exact hplain.elim
          · rfl
  | notifying =>
      cases h
      rfl
  | hooking =>
      cases hook <;>
      · cases h
        rfl
  | ending outcome =>
      cases outcome <;>
      · cases h
        rfl

/-- The item that a pop has removed and is about to answer with. -/
def Pop.held (pop : Pop α) : Option α :=
  pop.phase.held.join

/-- What a pop holds after a turn, or has answered with. -/
def Pop.heldAfter : Turn κ (Pop α) (Option α) → Option α
  | .stay pop => pop.held
  | .ret answer => answer
  | .run _ _ | .fail _ | .abort => none

/-- A step of a pop that marks nothing leaves what the pop holds, or answers with it. -/
theorem Pop.held_of_turn {pop : Pop α} {turn : Turn κ (Pop α) (Option α)}
    (h : pop.turn t choice c = some (c', [], turn)) : pop.held = heldAfter turn := by
  obtain ⟨⟨c₁, progress⟩, hturn, heq⟩ := Option.map_eq_some_iff.mp h
  simp only [Prod.mk.injEq] at heq
  obtain ⟨-, hmarks, rfl⟩ := heq
  cases progress with
  | on phase' =>
      obtain ⟨hheld, hheld'⟩ := Visit.held_of_turn hturn
      have hanswer : (Visit.answer? pop.phase (.on phase')).join = none := by
        cases hjoin : (Visit.answer? pop.phase (.on phase')).join with
        | none => rfl
        | some item =>
            rw [hjoin] at hmarks
            cases hmarks
      rw [held, hheld]
      exact (congrArg Option.join hheld' |>.trans hanswer).symm
  | ended outcome =>
      rw [held, Visit.leaving_of_ended hturn]
      rcases outcome with fault | _ | _ | item
      · rfl
      · rfl
      · by_cases hwait : pop.wait = .endless <;> simp [Pop.afterVisit, hwait, heldAfter, Phase.held,
          held, Pop.start]
      · rfl

/-- A step of a pop that marks an item holds it afterwards, and held nothing before. -/
theorem Pop.held_of_popped {pop : Pop α} {turn : Turn κ (Pop α) (Option α)} {item : α}
    (h : pop.turn t choice c = some (c', [.popped item], turn)) :
    pop.held = none ∧ ∃ pop', turn = .stay pop' ∧ pop'.held = some item := by
  rcases Pop.marks_of_turn h with ⟨-, heq⟩ | ⟨item', again, hphase, -, heq, rfl⟩
  · cases heq
  · cases heq
    exact ⟨by rw [held, hphase]; rfl, _, rfl, rfl⟩

/-- The items that a clear has removed and whose finalizers it has yet to run. -/
def Clear.due : Clear α → List α
  | .taking phase => phase.held.getD []
  | .finalizing _ rest _ => rest
  | .broken => []

/-- What a clear removes is due, and what is due is finalized from the front. -/
theorem Clear.due_of_turn {finalizer : α → Option κ} {clear : Clear α} {turn : Turn κ (Clear α) Nat}
    (h : clear.turn finalizer t choice c = some (c', marks, turn)) :
    clear.due ++ cleared marks = finalized marks ++ turn.next?.elim [] Clear.due := by
  cases clear with
  | taking phase =>
      obtain ⟨⟨c₁, progress⟩, hturn, heq⟩ := Option.map_eq_some_iff.mp h
      cases heq
      cases progress with
      | on phase' =>
          obtain ⟨hheld, hheld'⟩ := Visit.held_of_turn hturn
          cases hanswer : Visit.answer? phase (.on phase') <;>
            simp [due, cleared, finalized, Turn.next?, hheld, hheld', hanswer]
      | ended outcome =>
          obtain rfl := Visit.leaving_of_ended hturn
          cases outcome <;> simp [due, cleared, finalized, Turn.next?, Phase.held, Visit.answer?]
  | finalizing count rest fault =>
      cases rest with
      | nil =>
          cases fault <;>
          · cases h
            rfl
      | cons item rest =>
          cases h
          cases finalizer item <;> simp [due, cleared, finalized, Turn.next?]
  | broken =>
      cases h
      rfl

end Offload.Channel
