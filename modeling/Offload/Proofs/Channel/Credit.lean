import Offload.Proofs.Channel.Lock

/-!
# Credit for items

Whoever is to see to it that an item of a channel is taken has a **credit** of one item: a push
that has added its item and is still to notify somebody, a consumer that has come out of its sleep
and is still to test again, and a consumer that has just tested and is about to take an item. Each
step of a call brings as many items as credits at most, unless no item is left; only the
notification of a push gives its credit away.

## Main results

* `Call.isSound_of_turn`: only consumers wait, and no visit of a channel leaves with a fault.
* `Call.nudged_of_turn`: what one step of a call does to items, sleepers and credit.
-/

namespace Offload.Channel

variable {κ ω α ρ ν : Type} {t : Tid} {choice : Choice} {c c' : Channel α}
  {marks : List (Mark α)}

/-! ### Credit -/

/-- Whether a push has added its item and has yet to notify a sleeper. -/
def Push.owes : Push α → Bool
  | .adding _ phase => phase.held.isSome
  | .notifying => true
  | .hooking | .ending _ => false

/-- Whether a pop is that of a consumer: one that is ready to wait. -/
def Pop.waits (pop : Pop α) : Bool :=
  pop.wait != .never

/-- Whether a consumer has been woken, or its time was over, and it has yet to test again. -/
def Pop.roused (sleepers : List Tid) (t : Tid) (pop : Pop α) : Bool :=
  pop.waits && match pop.phase with
    | .asleep => decide (t ∉ sleepers)
    | .overslept | .testing true => true
    | _ => false

/-- Whether a consumer has slept and tested again, and is about to take an item: between the two
it owns the lock. -/
def Pop.taking (pop : Pop α) : Bool :=
  pop.waits && match pop.phase with
    | .acting true => true
    | _ => false

/-- Whether a call is a push that owes a notification. -/
def Call.owes : Call α → Bool
  | .push p => p.owes
  | .pop _ | .size _ | .clear _ => false

/-- Whether a call of thread `t` is a consumer's, out of its sleep and about to test again. -/
def Call.roused (sleepers : List Tid) (t : Tid) : Call α → Bool
  | .pop p => p.roused sleepers t
  | .push _ | .size _ | .clear _ => false

/-- Whether a call is a consumer's that has slept and is about to take an item. -/
def Call.taking : Call α → Bool
  | .pop p => p.taking
  | .push _ | .size _ | .clear _ => false

/-- Whether a call of thread `t` has credit for an item. -/
def Call.credit (sleepers : List Tid) (t : Tid) (call : Call α) : Bool :=
  call.owes || call.roused sleepers t || call.taking

theorem credit_push (sleepers : List Tid) (t : Tid) (p : Push α) :
    (Call.push p).credit sleepers t = p.owes := by
  simp [Call.credit, Call.owes, Call.roused, Call.taking]

theorem credit_pop (sleepers : List Tid) (t : Tid) (p : Pop α) :
    (Call.pop p).credit sleepers t = (p.roused sleepers t || p.taking) := by
  simp [Call.credit, Call.owes, Call.roused, Call.taking]

/-- Whether a thread's active call has credit for an item. -/
def credited (sleepers : List Tid) (t : Tid) (calls : Calls (Call α)) : Bool :=
  calls.active.any (Call.credit sleepers t)

/-! ### Phases in which calls can be -/

/-- Whether a call is in a phase in which such calls can be: only consumers wait, and nothing
fails. -/
def Call.IsSound : Call α → Prop
  | .push p => p.IsPlain
  | .pop p => (p.wait = .never → p.phase.IsPlain) ∧ p.phase.IsSound
  | .size phase => phase.IsPlain
  | .clear (.taking phase) => phase.IsPlain
  | .clear (.finalizing _ _ _) | .clear .broken => True

variable {call : Call α} {events : List (Event α ν)} {r : Turn κ (Call α) (Answer α)}
  {hook : Option κ} {finalizer : α → Option κ}

/-- A pop waits for an item exactly if it is a consumer's. -/
theorem Pop.await_visit (wait : Wait) : (Pop.visit wait : Visit (List α) (Option α)).await =
    if wait = .never then none else some ready := by
  cases wait <;> rfl

/-- Taking the front item never fails. -/
theorem exists_of_takeFront (items : List α) : ∃ item, (takeFront items).2 = .ok item := by
  cases items with
  | nil => exact ⟨none, rfl⟩
  | cons item rest => exact ⟨some item, rfl⟩

/-- A pop that goes on stays in a phase in which such pops can be. -/
theorem Pop.isSound_of_turn {pop pop' : Pop α} {turn : Turn κ (Pop α) (Option α)}
    (hsound : (Call.pop pop).IsSound) (h : pop.turn t choice c = some (c', marks, turn))
    (hnext : turn.next? = some pop') : (Call.pop pop').IsSound := by
  obtain ⟨⟨c₁, progress⟩, hvisit, heq⟩ := Option.map_eq_some_iff.mp h
  cases heq
  cases progress with
  | on phase' =>
      cases hnext
      refine ⟨fun hnever => ?_, ?_⟩
      · refine Visit.isPlain_of_turn ?_ ?_ hvisit (hsound.1 hnever)
        · rw [Pop.await_visit, if_pos hnever]
        · rw [Pop.visit_body]
          exact exists_of_takeFront
      · refine Visit.isSound_of_turn ?_ ?_ hvisit
        · intro p hp items
          rw [Pop.await_visit] at hp
          split at hp
          · cases hp
          · cases hp
            exact ⟨_, rfl⟩
        · rw [Pop.visit_body]
          exact exists_of_takeFront
  | ended outcome =>
      rcases outcome with fault | _ | _ | item
      · cases hnext
      · cases hnext
      · by_cases hwait : pop.wait = .endless
        · simp only [afterVisit, hwait, if_true] at hnext
          cases hnext
          exact ⟨by rintro ⟨⟩, trivial⟩
        · simp only [afterVisit, hwait, if_false] at hnext
          cases hnext
      · cases hnext

/-- A pop in such a phase does not fail. -/
theorem Pop.ne_fail_of_turn {pop : Pop α} {turn : Turn κ (Pop α) (Option α)}
    (hsound : (Call.pop pop).IsSound) (h : pop.turn t choice c = some (c', marks, turn))
    (fault : Fault) : turn ≠ .fail fault := by
  obtain ⟨⟨c₁, progress⟩, hvisit, heq⟩ := Option.map_eq_some_iff.mp h
  cases heq
  cases progress with
  | on phase => rintro ⟨⟩
  | ended outcome =>
      have hphase := hsound.2
      rw [Visit.leaving_of_ended hvisit] at hphase
      rcases outcome with fault' | _ | _ | item
      · exact hphase.elim
      · rintro ⟨⟩
      · by_cases hwait : pop.wait = .endless <;> simp [afterVisit, hwait]
      · rintro ⟨⟩

/-- A call that goes on stays in a phase in which such calls can be. -/
theorem Call.isSound_of_turn {call' : Call α} (hsound : call.IsSound)
    (h : turn hook finalizer t choice c call = some (c', events, r))
    (hnext : r.next? = some call') : call'.IsSound := by
  cases call with
  | push p =>
      obtain ⟨⟨c₁, marks, part⟩, hturn, heq⟩ := Option.map_eq_some_iff.mp h
      cases heq
      rw [Turn.next?_within, Option.map_eq_some_iff] at hnext
      obtain ⟨p', hp', rfl⟩ := hnext
      exact ((Push.ahead_of_turn hturn hsound).2 p' hp').1
  | pop p =>
      obtain ⟨⟨c₁, marks, part⟩, hturn, heq⟩ := Option.map_eq_some_iff.mp h
      cases heq
      rw [Turn.next?_within, Option.map_eq_some_iff] at hnext
      obtain ⟨p', hp', rfl⟩ := hnext
      exact Pop.isSound_of_turn hsound hturn hp'
  | size phase =>
      obtain ⟨⟨c₁, part⟩, hturn, heq⟩ := Option.map_eq_some_iff.mp h
      cases heq
      rw [Turn.next?_within, Option.map_eq_some_iff] at hnext
      obtain ⟨p', hp', rfl⟩ := hnext
      obtain ⟨⟨c₂, progress⟩, hvisit, heq⟩ := Option.map_eq_some_iff.mp hturn
      cases heq
      rcases progress with phase' | fault | answer <;> cases hp'
      exact Visit.isPlain_of_turn rfl (fun _ => ⟨_, rfl⟩) hvisit hsound
  | clear p =>
      obtain ⟨⟨c₁, marks, part⟩, hturn, heq⟩ := Option.map_eq_some_iff.mp h
      cases heq
      rw [Turn.next?_within, Option.map_eq_some_iff] at hnext
      obtain ⟨p', hp', rfl⟩ := hnext
      cases p with
      | taking phase =>
          obtain ⟨⟨c₂, progress⟩, hvisit, heq⟩ := Option.map_eq_some_iff.mp hturn
          cases heq
          rcases progress with phase' | fault | answer <;> cases hp'
          · exact Visit.isPlain_of_turn rfl (fun _ => ⟨_, rfl⟩) hvisit hsound
          · trivial
      | finalizing count rest fault =>
          cases rest with
          | nil => cases fault <;> cases hturn <;> cases hp'
          | cons item rest =>
              cases hturn
              cases hcode : finalizer item <;> rw [hcode] at hp' <;> cases hp' <;> trivial
      | broken =>
          cases hturn
          cases hp'

/-- Calls begin in a phase in which such calls can be. -/
theorem isSound_call (request : Request α) : request.call.IsSound := by
  cases request with
  | popping wait => exact ⟨fun _ => trivial, trivial⟩
  | pushing _ | sizing | clearing => trivial

/-- Calls go on after code in a phase in which such calls can be. -/
theorem Call.isSound_resume (call : Call α) (result : Except Fault ρ) (h : call.IsSound) :
    (resume call result).IsSound := by
  cases call with
  | push p => cases p <;> exact h
  | pop p | size phase => exact h
  | clear p =>
      cases p with
      | taking phase => cases result <;> exact h
      | finalizing count rest fault => cases result <;> cases fault <;> trivial
      | broken => cases result <;> trivial

/-- Every call of a run is in a phase in which such calls can be. -/
theorem isSound_of_reach {v : Scene (Channel α) (Call α) (Event α ν)}
    (h : Scene.Reach (library (ρ := ρ) hook finalizer) ⟨empty, [], fun _ => ⟨none, []⟩⟩ v) :
    ∀ t, ∀ call ∈ (v.calls t).all, call.IsSound :=
  h.all_calls (by simp [Calls.all]) (fun _ ⟨request, heq⟩ => heq ▸ isSound_call request)
    (fun call result => call.isSound_resume result)
    fun _ _ _ _ _ hturn hcall _ hnext => Call.isSound_of_turn hcall hturn hnext

/-! ### One step of a call -/

/-- What most steps of a call do to items and sleepers: the sleepers stay, nobody's step is that of
a sleeper, and items come only with credit and go with it at most, unless none are left. -/
structure Calm (t : Tid) (c c' : Channel α) (call : Call α) (r : Turn κ (Call α) (Answer α)) :
    Prop where
  awake : ∀ p, call = .pop p → p.phase = .asleep → t ∉ c.sleepers
  sleepers_eq : c'.sleepers = c.sleepers
  poisoned_eq : c'.poisoned = c.poisoned
  owns_of_ne : c'.value ≠ c.value → call.owns = true
  items : c'.value = [] ∨ c'.value.length + (call.credit c.sleepers t).toNat ≤
    c.value.length + (r.holds (Call.credit c.sleepers t)).toNat
  drowsy : ∀ p, r = .stay (.pop p) → p.phase = .drowsy → c'.value = []

/-- What one step of a call of thread `t` may be, as far as items and sleepers are concerned. -/
inductive Nudged (t : Tid) (c c' : Channel α) (call : Call α) (r : Turn κ (Call α) (Answer α)) :
    Prop where
  | calm : Calm t c c' call r → Nudged t c c' call r
  | roused {wait : Wait} (phase : Phase (Option α)) : call = .pop ⟨wait, .asleep⟩ →
      t ∈ c.sleepers → c' = c.rouse t → r = .stay (.pop ⟨wait, phase⟩) →
      phase = .asleep ∨ phase = .overslept → Nudged t c c' call r
  | slept {wait : Wait} : call = .pop ⟨wait, .drowsy⟩ → c' = c.sleep t →
      r = .stay (.pop ⟨wait, .asleep⟩) → Nudged t c c' call r
  | notified (pick : Nat) : call = .push .notifying → c' = c.notifyOne pick →
      r = .stay (.push .hooking) → Nudged t c c' call r

/-- A call of another kind than a pop goes on as one. -/
theorem within_ne_pop {γ β : Type} {wrap : γ → Call α} (hwrap : ∀ x p, wrap x ≠ .pop p)
    (answer : β → Answer α) (turn : Turn κ γ β) (p : Pop α) :
    turn.within wrap (fun b => .ret (answer b)) .fail ≠ .stay (.pop p) := by
  cases turn with
  | stay x => exact fun h => hwrap x p (Turn.stay.inj h)
  | _ => rintro ⟨⟩

/-- The step of a call other than a pop is calm if it leaves the items alone and no credit is
lost in it. -/
theorem Calm.of_kept (hcall : ∀ p, call ≠ .pop p) (hstay : ∀ p, r ≠ .stay (.pop p))
    (hsleepers : c'.sleepers = c.sleepers) (hpoisoned : c'.poisoned = c.poisoned)
    (hvalue : c'.value = c.value)
    (hcredit : (call.credit c.sleepers t).toNat ≤ (r.holds (Call.credit c.sleepers t)).toNat) :
    Calm t c c' call r where
  awake p h := absurd h (hcall p)
  sleepers_eq := hsleepers
  poisoned_eq := hpoisoned
  owns_of_ne h := absurd hvalue h
  items := .inr (hvalue ▸ Nat.add_le_add_left hcredit _)
  drowsy p h := absurd h (hstay p)

/-- A step of a push gets credit with its item, keeps it until it notifies, or has none. -/
theorem Push.nudged_of_turn {push : Push α} {turn : Turn κ (Push α) Unit}
    (hsound : push.IsPlain) (h : push.turn hook t choice c = some (c', marks, turn)) :
    Nudged t c c' (.push push) (turn.within .push (fun _ => .ret .done) .fail) := by
  have hpush : ∀ (x : Push α) p, Call.push x ≠ .pop p := by rintro _ _ ⟨⟩
  have hcall := hpush push
  have hstay := within_ne_pop hpush (fun _ => .done) turn
  cases push with
  | adding item phase =>
      obtain ⟨⟨c₁, progress⟩, hvisit, heq⟩ := Option.map_eq_some_iff.mp h
      rcases Visit.plain_cases hvisit hsound with ⟨rfl, rfl, rfl⟩ | ⟨again, rfl, rfl, rfl⟩ |
        ⟨answer, rfl, rfl, rfl⟩
      · cases heq
        exact .calm (.of_kept hcall hstay rfl rfl rfl (Nat.le_refl _))
      · cases heq
        refine .calm ⟨fun p h => absurd h (hcall p), rfl, rfl, fun _ => rfl, .inr ?_,
          fun p h => absurd h (hstay p)⟩
        simp [append, Turn.within, Turn.holds, credit_push, owes, Phase.held, Except.map]
      · cases heq
        exact .calm (.of_kept hcall hstay rfl rfl rfl (Nat.le_refl _))
  | notifying =>
      cases h
      exact .notified _ rfl rfl rfl
  | hooking =>
      cases hook with
      | none =>
          cases h
          exact .calm (.of_kept hcall hstay rfl rfl rfl (Nat.zero_le _))
      | some code =>
          cases h
          exact .calm (.of_kept hcall hstay rfl rfl rfl (Nat.zero_le _))
  | ending outcome =>
      cases outcome <;>
      · cases h
        exact .calm (.of_kept hcall hstay rfl rfl rfl (Nat.zero_le _))

/-- A step of a clear leaves no items, or leaves them all. -/
theorem Clear.nudged_of_turn {clear : Clear α} {turn : Turn κ (Clear α) Nat}
    (hsound : (Call.clear clear).IsSound)
    (h : clear.turn finalizer t choice c = some (c', marks, turn)) :
    Nudged t c c' (.clear clear) (turn.within .clear (fun n => .ret (.count n)) .fail) := by
  have hclear : ∀ (x : Clear α) p, Call.clear x ≠ .pop p := by rintro _ _ ⟨⟩
  have hcall := hclear clear
  have hstay := within_ne_pop hclear .count turn
  cases clear with
  | taking phase =>
      obtain ⟨⟨c₁, progress⟩, hvisit, heq⟩ := Option.map_eq_some_iff.mp h
      rcases Visit.plain_cases hvisit hsound with ⟨rfl, rfl, rfl⟩ | ⟨again, rfl, rfl, rfl⟩ |
        ⟨answer, rfl, rfl, rfl⟩
      · cases heq
        exact .calm (.of_kept hcall hstay rfl rfl rfl (Nat.le_refl _))
      · cases heq
        exact .calm ⟨fun p h => absurd h (hcall p), rfl, rfl, fun _ => rfl, .inl rfl,
          fun p h => absurd h (hstay p)⟩
      · cases heq
        exact .calm (.of_kept hcall hstay rfl rfl rfl (Nat.le_refl _))
  | finalizing count rest fault =>
      cases rest with
      | nil =>
          cases fault <;>
          · cases h
            exact .calm (.of_kept hcall hstay rfl rfl rfl (Nat.zero_le _))
      | cons item rest =>
          cases h
          exact .calm (.of_kept hcall hstay rfl rfl rfl (Nat.zero_le _))
  | broken =>
      cases h
      exact .calm (.of_kept hcall hstay rfl rfl rfl (Nat.zero_le _))

/-- A step of a count leaves items and sleepers alone. -/
theorem nudged_of_sizeTurn {phase : Phase Nat} {turn : Turn κ (Phase Nat) Nat}
    (hsound : phase.IsPlain) (h : sizeTurn t choice c phase = some (c', turn)) :
    Nudged t c c' (.size phase) (turn.within .size (fun n => .ret (.count n)) .fail) := by
  have hsize : ∀ (x : Phase Nat) (p : Pop α), Call.size x ≠ .pop p := by rintro _ _ ⟨⟩
  have hcall := hsize phase
  have hstay := within_ne_pop hsize .count turn
  obtain ⟨⟨c₁, progress⟩, hvisit, heq⟩ := Option.map_eq_some_iff.mp h
  rcases Visit.plain_cases hvisit hsound with ⟨rfl, rfl, rfl⟩ | ⟨again, rfl, rfl, rfl⟩ |
    ⟨answer, rfl, rfl, rfl⟩ <;>
  · cases heq
    exact .calm (.of_kept hcall hstay rfl rfl rfl (Nat.le_refl _))

/-- A step of a pop takes an item at most, and what a consumer does after its sleep it does with
credit. -/
theorem Pop.nudged_of_turn {pop : Pop α} {turn : Turn κ (Pop α) (Option α)}
    (hsound : (Call.pop pop).IsSound) (hpoison : c.poisoned = false)
    (h : pop.turn t choice c = some (c', marks, turn)) :
    Nudged t c c' (.pop pop) (turn.within .pop (fun item => .ret (.item item)) .fail) := by
  obtain ⟨⟨c₁, progress⟩, hvisit, heq⟩ := Option.map_eq_some_iff.mp h
  obtain ⟨wait, phase⟩ := pop
  dsimp only at hvisit heq
  cases Visit.turned_of_turn hvisit with
  | arrived _ =>
      cases heq
      refine .calm ⟨by rintro _ ⟨⟩ ⟨⟩, rfl, rfl, (absurd rfl ·), .inr ?_, ?_⟩
      · simp [credit_pop, roused, taking]
      · rintro p ⟨⟩ hdrowsy
        by_cases hawait : (Pop.visit wait : Visit (List α) (Option α)).await.isSome = true <;>
          simp [hawait] at hdrowsy
  | @tested p again hp =>
      rw [Pop.await_visit] at hp
      split at hp
      · cases hp
      next hwait =>
      cases hp
      cases heq
      cases hitems : c.value with
      | nil =>
          exact .calm ⟨by rintro _ ⟨⟩ ⟨⟩, rfl, rfl, (absurd rfl ·), .inl hitems,
            fun _ _ _ => hitems⟩
      | cons item rest =>
          refine .calm ⟨by rintro _ ⟨⟩ ⟨⟩, rfl, rfl, (absurd rfl ·), .inr ?_, ?_⟩
          · cases again <;>
              simp [hitems, Turn.within, Turn.holds, ready, Visit.afterTest, credit_pop, roused,
                taking, waits]
          · rintro p ⟨⟩ hdrowsy
            simp [ready, Visit.afterTest] at hdrowsy
  | untested again hnone =>
      rw [Pop.await_visit] at hnone
      split at hnone
      next hwait =>
        cases heq
        refine .calm ⟨by rintro _ ⟨⟩ ⟨⟩, rfl, rfl, (absurd rfl ·), .inr ?_, by rintro _ ⟨⟩ ⟨⟩⟩
        simp [credit_pop, roused, taking, waits, hwait]
      · cases hnone
  | slept =>
      cases heq
      exact .slept rfl rfl rfl
  | stirred hmem =>
      cases heq
      exact .roused _ rfl hmem rfl rfl (.inl rfl)
  | expired hmem _ =>
      cases heq
      exact .roused _ rfl hmem rfl rfl (.inr rfl)
  | woken hmem _ =>
      rw [hpoison] at heq
      cases heq
      refine .calm ⟨fun _ _ _ => hmem, rfl, hpoison.symm, (absurd rfl ·), .inr ?_,
        by rintro _ ⟨⟩ ⟨⟩⟩
      simp [Turn.within, Turn.holds, credit_pop, roused, taking, waits, hmem]
  | wokenLate _ =>
      rw [hpoison] at heq
      cases heq
      refine .calm ⟨by rintro _ ⟨⟩ ⟨⟩, rfl, hpoison.symm, (absurd rfl ·), .inr ?_,
        by rintro _ ⟨⟩ ⟨⟩⟩
      simp [Turn.within, Turn.holds, credit_pop, roused, taking, waits]
  | acted again =>
      rw [Pop.visit_body] at heq
      cases heq
      refine .calm ⟨by rintro _ ⟨⟩ ⟨⟩, rfl, rfl, fun _ => rfl, ?_, by rintro _ ⟨⟩ ⟨⟩⟩
      cases hitems : c.value with
      | nil => exact .inl rfl
      | cons item rest =>
          exact .inr (Nat.le_add_right_of_le (Nat.add_le_add_left (Bool.toNat_le _) rest.length))
  | left answer =>
      cases heq
      refine .calm ⟨by rintro _ ⟨⟩ ⟨⟩, rfl, rfl, (absurd rfl ·), .inr ?_, ?_⟩
      · simp [credit_pop, roused, taking, Monitor.release]
      · rcases answer with _ | _ | item
        · rintro _ ⟨⟩
        · by_cases hwait : wait = .endless
          · rintro p hp hdrowsy
            simp only [afterVisit, hwait, if_true] at hp
            cases hp
            cases hdrowsy
          · rintro p hp
            simp only [afterVisit, hwait, if_false] at hp
            cases hp
        · rintro _ ⟨⟩
  | leftFaulted fault => exact hsound.2.elim

/-- **Inversion.** One step of a call that is in a phase in which such calls can be. -/
theorem Call.nudged_of_turn (hsound : call.IsSound) (hpoison : c.poisoned = false)
    (h : turn hook finalizer t choice c call = some (c', events, r)) : Nudged t c c' call r := by
  cases call with
  | push p =>
      obtain ⟨part, hturn, heq⟩ := Option.map_eq_some_iff.mp h
      cases heq
      exact Push.nudged_of_turn hsound hturn
  | pop p =>
      obtain ⟨part, hturn, heq⟩ := Option.map_eq_some_iff.mp h
      cases heq
      exact Pop.nudged_of_turn hsound hpoison hturn
  | size phase =>
      obtain ⟨part, hturn, heq⟩ := Option.map_eq_some_iff.mp h
      cases heq
      exact nudged_of_sizeTurn hsound hturn
  | clear p =>
      obtain ⟨part, hturn, heq⟩ := Option.map_eq_some_iff.mp h
      cases heq
      exact Clear.nudged_of_turn hsound hturn

end Offload.Channel
