import Mathlib.Algebra.Order.BigOperators.Group.Finset
import Offload.Proofs.Channel.Credit

/-!
# No wake-up is lost

While a consumer sleeps un-notified, every item of a channel is spoken for: there are no more items
than credits. A push gets its credit with its item and hands it over to a sleeper by its
notification; the sleeper keeps it over its test and gives it up for an item. A thread that finds no
item needs no credit, and neither does one that falls asleep, since then there are no items at all.

## Main results

* `credits_update`, `credits_erase`: what a step of one thread, and a notification, do to the
  credits of all threads.
* `wakeful_of_step`: while somebody sleeps there are no more items than credits; every step of
  every thread keeps this.
* `no_lost_wakeup`: the same for every run, with who has credit.
-/

namespace Offload.Channel

variable {κ ω α ρ ν : Type} {t : Tid} {choice : Choice} {c c' : Channel α} {call : Call α}
  {events : List (Event α ν)} {r : Turn κ (Call α) (Answer α)} {hook : Option κ}
  {finalizer : α → Option κ}

/-! ### While somebody sleeps -/

/-- The credits of the first `n` threads. -/
def credits (n : Nat) (sleepers : List Tid) (calls : Tid → Calls (Call α)) : Nat :=
  ∑ t ∈ Finset.range n, (credited sleepers t (calls t)).toNat

/-- What a step of one thread does to the credits. -/
theorem credits_update {n : Nat} (ht : t < n) (sleepers : List Tid) (calls : Tid → Calls (Call α))
    (after : Calls (Call α)) :
    credits n sleepers (Function.update calls t after) + (credited sleepers t (calls t)).toNat =
      credits n sleepers calls + (credited sleepers t after).toNat := by
  have hsum := sum_exchange (f := fun u => (credited sleepers u (calls u)).toNat)
    (g := fun u => (credited sleepers u (Function.update calls t after u)).toNat) ht fun u hu => by
      rw [Function.update_of_ne hu]
  rwa [Function.update_self] at hsum

/-- A consumer that is taken off the condition gets credit. -/
theorem credits_erase {n : Nat} {u : Tid} {sleepers : List Tid} {calls : Tid → Calls (Call α)}
    {wait : Wait} (hnodup : sleepers.Nodup) (hmem : u ∈ sleepers) (hu : u < n)
    (hactive : (calls u).active = some (.pop ⟨wait, .asleep⟩)) (hwait : wait ≠ .never) :
    credits n (sleepers.erase u) calls = credits n sleepers calls + 1 := by
  have hself : (credited sleepers u (calls u)).toNat = 0 ∧
      (credited (sleepers.erase u) u (calls u)).toNat = 1 := by
    have hgone : u ∉ sleepers.erase u := fun h => (hnodup.mem_erase_iff.mp h).1 rfl
    simp [credited, hactive, credit_pop, Pop.roused, Pop.taking, Pop.waits, hmem, hgone, hwait]
  have hothers : ∀ w, w ≠ u → (credited (sleepers.erase u) w (calls w)).toNat =
      (credited sleepers w (calls w)).toNat := by
    intro w hw
    have hiff : w ∈ sleepers.erase u ↔ w ∈ sleepers := by simp [hnodup.mem_erase_iff, hw]
    have hcredit : Call.credit (sleepers.erase u) w = (Call.credit sleepers w : Call α → Bool) := by
      funext call
      cases call <;> simp [Call.credit, Call.roused, Pop.roused, hiff]
    rw [credited, credited, hcredit]
  have hsum := sum_exchange hu hothers
  rwa [hself.1, hself.2] at hsum

/-- Whether a scene of `n` threads loses no wake-up: those who sleep un-notified are consumers, a
consumer that is about to fall asleep has found no item, and while somebody sleeps there are no
more items than credits. -/
structure Wakeful (n : Nat) (v : Scene (Channel α) (Call α) (Event α ν)) : Prop where
  unpoisoned : v.shared.poisoned = false
  nodup : v.shared.sleepers.Nodup
  sleepers : ∀ t ∈ v.shared.sleepers, t < n ∧
    ∃ wait, wait ≠ .never ∧ (v.calls t).active = some (.pop ⟨wait, .asleep⟩)
  drowsy : ∀ t p, (v.calls t).active = some (.pop p) → p.phase = .drowsy → v.shared.value = []
  items : v.shared.sleepers ≠ [] →
    v.shared.value.length ≤ credits n v.shared.sleepers v.calls

variable {n : Nat} {v v' : Scene (Channel α) (Call α) (Event α ν)} {rest : List (Call α)}

/-- A step of one thread keeps the account if what it does to items, sleepers and credits does. -/
theorem Wakeful.of_update (hv : Wakeful n v) (c' : Channel α) (after : Calls (Call α))
    {history : List (Tid × Event α ν)} (hpoison : c'.poisoned = false)
    (hsleepers : c'.sleepers.Nodup)
    (hself : t ∈ c'.sleepers → t < n ∧ ∃ wait, wait ≠ .never ∧
      after.active = some (.pop ⟨wait, .asleep⟩))
    (hothers : ∀ u, u ≠ t → u ∈ c'.sleepers → u ∈ v.shared.sleepers)
    (hdrowsy : ∀ p, after.active = some (.pop p) → p.phase = .drowsy → c'.value = [])
    (hvalue : c'.value ≠ v.shared.value → ∀ u, u ≠ t → ∀ p, (v.calls u).active = some (.pop p) →
      p.phase ≠ .drowsy)
    (hitems : c'.sleepers ≠ [] → c'.value.length ≤
      credits n c'.sleepers (Function.update v.calls t after)) :
    Wakeful n ⟨c', history, Function.update v.calls t after⟩ where
  unpoisoned := hpoison
  nodup := hsleepers
  sleepers := by
    intro u hmem
    by_cases hu : u = t
    · subst hu
      simpa only [Function.update_self] using hself hmem
    · simpa only [Function.update_of_ne hu] using hv.sleepers u (hothers u hu hmem)
  drowsy := by
    intro u p hactive hphase
    by_cases hu : u = t
    · subst hu
      simp only [Function.update_self] at hactive
      exact hdrowsy p hactive hphase
    · simp only [Function.update_of_ne hu] at hactive
      by_cases hsame : c'.value = v.shared.value
      · exact hsame.trans (hv.drowsy u p hactive hphase)
      · exact absurd hphase (hvalue hsame u hu p hactive)
  items := hitems

/-- A thread that was in code, and goes on with a call that owns no lock, keeps the account. -/
theorem Wakeful.of_idle (hv : Wakeful n v) (ht : t < n) (hidle : (v.calls t).active = none)
    (howns : call.owns = false) : Wakeful n (v.withCalls t ⟨some call, rest⟩) := by
  have hawake : t ∉ v.shared.sleepers := by
    intro hmem
    obtain ⟨-, wait, -, hactive⟩ := hv.sleepers t hmem
    rw [hidle] at hactive
    cases hactive
  refine hv.of_update v.shared ⟨some call, rest⟩ hv.unpoisoned hv.nodup
    (fun hmem => absurd hmem hawake) (fun _ _ h => h) ?_ (fun h => absurd rfl h) fun hne => ?_
  · rintro p ⟨⟩ hphase
    rw [Call.owns, Pop.owns, hphase] at howns
    cases howns
  · have hsum := credits_update ht v.shared.sleepers v.calls ⟨some call, rest⟩
    have hnone : (credited v.shared.sleepers t (v.calls t)).toNat = 0 := by simp [credited, hidle]
    have hitems := hv.items hne
    omega

/-- A calm step keeps the account. -/
theorem Wakeful.of_calm (hv : Wakeful n v) (hheld : locks.Held v) (ht : t < n)
    (hcalls : v.calls t = ⟨some call, rest⟩) (hr : r ≠ .abort) (h : Calm t v.shared c' call r)
    (history : List (Tid × Event α ν)) :
    Wakeful n ⟨c', history, Function.update v.calls t (Calls.after call rest r)⟩ := by
  have hawake : t ∉ v.shared.sleepers := by
    intro hmem
    obtain ⟨-, wait, -, hactive⟩ := hv.sleepers t hmem
    rw [hcalls] at hactive
    cases hactive
    exact h.awake _ rfl rfl hmem
  refine hv.of_update c' (Calls.after call rest r) (h.poisoned_eq.trans hv.unpoisoned)
    (h.sleepers_eq ▸ hv.nodup) (fun hmem => absurd (h.sleepers_eq ▸ hmem) hawake)
    (fun _ _ hmem => h.sleepers_eq ▸ hmem) ?_ ?_ fun hne => ?_
  · intro p hactive hphase
    cases r with
    | stay call' =>
        cases hactive
        exact h.drowsy p rfl hphase
    | abort => exact absurd rfl hr
    | run _ _ | ret _ | fail _ => cases hactive
  · -- who is about to fall asleep owns the lock, so nobody else changes the items
    intro hne u hu p hactive hphase
    have howner : v.shared.owner = some t := by
      refine (hheld.owner_iff t ()).mpr ?_
      rw [hcalls]
      exact h.owns_of_ne hne
    have howner' : v.shared.owner = some u := by
      refine (hheld.owner_iff u ()).mpr ?_
      rw [hactive, Option.any_some, show locks.owns (.pop p) () = p.phase.owns from rfl, hphase]
      rfl
    rw [howner] at howner'
    exact hu (Option.some.inj howner').symm
  · rcases h.items with hnil | hle
    · rw [hnil]
      exact Nat.zero_le _
    · rw [h.sleepers_eq] at hne ⊢
      have hsum := credits_update ht v.shared.sleepers v.calls (Calls.after call rest r)
      have hitems := hv.items hne
      have hbefore : credited v.shared.sleepers t (v.calls t) =
          call.credit v.shared.sleepers t := by
        rw [hcalls]
        rfl
      have hafter : credited v.shared.sleepers t (Calls.after call rest r) =
          r.holds (Call.credit v.shared.sleepers t) := by
        cases r with
        | abort => exact absurd rfl hr
        | stay _ | run _ _ | ret _ | fail _ => rfl
      rw [hbefore, hafter] at hsum
      omega

/-- A consumer that leaves the condition on its own gets credit. -/
theorem Wakeful.of_roused (hv : Wakeful n v) {wait : Wait} {phase : Phase (Option α)}
    (hcalls : v.calls t = ⟨some (.pop ⟨wait, .asleep⟩), rest⟩) (hmem : t ∈ v.shared.sleepers)
    (hphase : phase = .asleep ∨ phase = .overslept) (history : List (Tid × Event α ν)) :
    Wakeful n ⟨v.shared.rouse t, history,
      Function.update v.calls t ⟨some (.pop ⟨wait, phase⟩), rest⟩⟩ := by
  obtain ⟨ht, wait', hwait, hactive⟩ := hv.sleepers t hmem
  rw [hcalls] at hactive
  cases hactive
  have hgone : t ∉ v.shared.sleepers.erase t := fun h => (hv.nodup.mem_erase_iff.mp h).1 rfl
  refine hv.of_update (v.shared.rouse t) ⟨some (.pop ⟨wait, phase⟩), rest⟩ hv.unpoisoned
    (hv.nodup.erase t) (fun h => absurd h hgone) (fun u _ hu => List.mem_of_mem_erase hu) ?_
    (fun h => absurd rfl h) fun _ => ?_
  · rintro p ⟨⟩ hdrowsy
    rcases hphase with rfl | rfl <;> cases hdrowsy
  · have herase := credits_erase hv.nodup hmem ht (congrArg Calls.active hcalls) hwait
    have hsum := credits_update ht (v.shared.sleepers.erase t) v.calls
      ⟨some (.pop ⟨wait, phase⟩), rest⟩
    have hbefore : (credited (v.shared.sleepers.erase t) t (v.calls t)).toNat = 1 := by
      simp [credited, hcalls, credit_pop, Pop.roused, Pop.waits, hgone, hwait]
    have hafter : (credited (v.shared.sleepers.erase t) t
        ⟨some (.pop ⟨wait, phase⟩), rest⟩).toNat = 1 := by
      rcases hphase with rfl | rfl <;>
        simp [credited, credit_pop, Pop.roused, Pop.waits, hgone, hwait]
    have hitems := hv.items (List.ne_nil_of_mem hmem)
    have hvalue : (v.shared.rouse t).value = v.shared.value := rfl
    have hsleepers : (v.shared.rouse t).sleepers = v.shared.sleepers.erase t := rfl
    rw [hvalue, hsleepers]
    omega

/-- A consumer that falls asleep has found no item. -/
theorem Wakeful.of_slept (hv : Wakeful n v) (ht : t < n) {wait : Wait} (hwait : wait ≠ .never)
    (hcalls : v.calls t = ⟨some (.pop ⟨wait, .drowsy⟩), rest⟩)
    (history : List (Tid × Event α ν)) :
    Wakeful n ⟨v.shared.sleep t, history,
      Function.update v.calls t ⟨some (.pop ⟨wait, .asleep⟩), rest⟩⟩ := by
  have hnil : v.shared.value = [] := hv.drowsy t _ (by rw [hcalls]) rfl
  have hawake : t ∉ v.shared.sleepers := by
    intro hmem
    obtain ⟨-, wait', -, hactive⟩ := hv.sleepers t hmem
    rw [hcalls] at hactive
    cases hactive
  refine hv.of_update (v.shared.sleep t) ⟨some (.pop ⟨wait, .asleep⟩), rest⟩ hv.unpoisoned ?_
    (fun _ => ⟨ht, wait, hwait, rfl⟩) ?_ ?_ (fun h => absurd rfl h) fun _ => ?_
  · exact List.nodup_append.mpr ⟨hv.nodup, List.nodup_singleton t, by
      rintro u hu w hw rfl
      exact hawake (List.mem_singleton.mp hw ▸ hu)⟩
  · intro u hu hmem
    rcases List.mem_append.mp hmem with hmem | hmem
    · exact hmem
    · exact absurd (List.mem_singleton.mp hmem) hu
  · rintro p ⟨⟩ ⟨⟩
  · rw [show (v.shared.sleep t).value = [] from hnil]
    exact Nat.zero_le _

/-- A push that notifies hands its credit to a sleeper, if there is one. -/
theorem Wakeful.of_notified (hv : Wakeful n v) (ht : t < n) (pick : Nat)
    (hcalls : v.calls t = ⟨some (.push .notifying), rest⟩) (history : List (Tid × Event α ν)) :
    Wakeful n ⟨v.shared.notifyOne pick, history,
      Function.update v.calls t ⟨some (.push .hooking), rest⟩⟩ := by
  have hsublist : (v.shared.notifyOne pick).sleepers.Sublist v.shared.sleepers :=
    List.eraseIdx_sublist _ _
  have hawake : t ∉ v.shared.sleepers := by
    intro hmem
    obtain ⟨-, wait, -, hactive⟩ := hv.sleepers t hmem
    rw [hcalls] at hactive
    cases hactive
  refine hv.of_update (v.shared.notifyOne pick) ⟨some (.push .hooking), rest⟩ hv.unpoisoned
    (hv.nodup.sublist hsublist) (fun hmem => absurd (hsublist.subset hmem) hawake)
    (fun u _ hmem => hsublist.subset hmem) nofun (fun h => absurd rfl h) fun hsome => ?_
  have hne : v.shared.sleepers ≠ [] := by
    intro hnil
    rw [hnil] at hsublist
    exact hsome (List.sublist_nil.mp hsublist)
  obtain ⟨u, hmem, hnotify⟩ := Monitor.exists_of_notifyOne pick hv.nodup hne
  obtain ⟨hu, wait, hwait, hactive⟩ := hv.sleepers u hmem
  have herase := credits_erase hv.nodup hmem hu hactive hwait
  have hsum := credits_update ht (v.shared.sleepers.erase u) v.calls ⟨some (.push .hooking), rest⟩
  have hbefore : (credited (v.shared.sleepers.erase u) t (v.calls t)).toNat = 1 := by
    rw [hcalls]
    rfl
  have hafter : (credited (v.shared.sleepers.erase u) t
      (⟨some (.push .hooking), rest⟩ : Calls (Call α))).toNat = 0 := rfl
  have hitems := hv.items hne
  rw [hnotify, show (v.shared.notifyOne pick).value = v.shared.value from rfl]
  omega

/-- **No wake-up is lost in one step of a call.** -/
theorem Wakeful.of_turn (hv : Wakeful n v) (hheld : locks.Held v) (ht : t < n)
    (hcalls : v.calls t = ⟨some call, rest⟩) (hcall : call.IsSound)
    (hturn : turn hook finalizer t choice v.shared call = some (c', events, r)) (hr : r ≠ .abort)
    (history : List (Tid × Event α ν)) :
    Wakeful n ⟨c', history, Function.update v.calls t (Calls.after call rest r)⟩ := by
  cases Call.nudged_of_turn hcall hv.unpoisoned hturn with
  | calm hcalm => exact hv.of_calm hheld ht hcalls hr hcalm _
  | roused phase heq hmem hc' hr hphase =>
      subst heq hc' hr
      exact hv.of_roused hcalls hmem hphase _
  | @slept wait heq hc' hr =>
      subst heq hc' hr
      exact hv.of_slept ht (fun hnever => hcall.1 hnever) hcalls _
  | notified pick heq hc' hr =>
      subst heq hc' hr
      exact hv.of_notified ht pick hcalls _

/-- **No wake-up is lost in one step**, whoever makes it. -/
theorem wakeful_of_step (ht : t < n) (hheld : locks.Held v)
    (hsound : ∀ t, ∀ call ∈ (v.calls t).all, call.IsSound)
    (h : Scene.Step (library (ρ := ρ) hook finalizer) t v v') (hv : Wakeful n v) :
    Wakeful n v' := by
  cases h with
  | noted _ _ => exact ⟨hv.unpoisoned, hv.nodup, hv.sleepers, hv.drowsy, hv.items⟩
  | called hcode hbegins =>
      obtain ⟨request, rfl⟩ := hbegins
      exact hv.of_idle ht hcode.1 (by cases request <;> rfl)
  | @resumed call rest result hcalls =>
      have hwaiting := hheld.waiting t
      rw [hcalls] at hwaiting
      exact hv.of_idle ht (by rw [hcalls])
        (((locks_fits hook finalizer).resume _ result trivial).2
          (hwaiting call List.mem_cons_self) ())
  | @turned call rest choice c' events r hcalls hturn =>
      have hcall : call.IsSound := hsound t call (by rw [hcalls]; exact List.mem_cons_self)
      by_cases habort : r = .abort
      · subst habort
        obtain rfl := broken_of_abort hturn
        cases hturn
        have hsame : Function.update v.calls t (Calls.after (.clear .broken) rest
            (.abort : Turn κ (Call α) (Answer α))) = v.calls := by
          rw [Calls.after, ← hcalls, Function.update_eq_self]
        rw [hsame]
        exact ⟨hv.unpoisoned, hv.nodup, hv.sleepers, hv.drowsy, hv.items⟩
      · exact hv.of_turn hheld ht hcalls hcall hturn habort _

/-! ### All runs -/

section Runs

variable {next : κ → Move κ ω (Request α) (Answer α) ρ ν} {world : ω} {codes : List κ}
  {s : State κ ω (Channel α) (Call α) (Answer α) (Event α ν)}

/-- While nobody makes a call and there is no item, no wake-up is lost. -/
theorem wakeful_empty (n : Nat) :
    Wakeful n (⟨empty, [], fun _ => ⟨none, []⟩⟩ : Scene (Channel α) (Call α) (Event α ν)) :=
  ⟨rfl, .nil, nofun, nofun, nofun⟩

/-- Every state of a run shows a scene that loses no wake-up. -/
theorem exists_wakeful (h : (machine hook finalizer next).Reach (.ofCodes empty world codes) s) :
    ∃ v, Machine.Shows (library (ρ := ρ) hook finalizer) v s ∧ locks.Held v ∧
      Wakeful s.threads.length v := by
  rw [h.length_threads]
  have hlocks := locks_fits (ρ := ρ) (ν := ν) hook finalizer
  obtain ⟨v, hv, hshows, hkept⟩ := (machine_fits hook finalizer next).exists_shows
    (P := fun v => locks.Held v ∧ Wakeful _ v)
    (Machine.shows_ofCodes (fun _ => rfl) empty world codes)
    ⟨Locks.held_of_nobody (fun _ => rfl) [], wakeful_empty _⟩
    (fun t v v' ht hv hP hstep =>
      ⟨Locks.held_of_step hlocks (fun _ _ _ => trivial) hstep hP.1,
        wakeful_of_step ht hP.1 (isSound_of_reach hv) hstep hP.2⟩) h
  exact ⟨v, hshows, hkept⟩

/-- The same after an abort, except that the thread whose clear has aborted makes no call. -/
theorem exists_wakeful_calls
    (h : (machine hook finalizer next).Reach (.ofCodes empty world codes) s) :
    ∃ v : Scene (Channel α) (Call α) (Event α ν), locks.Held v ∧
      Wakeful s.threads.length v ∧ v.shared = s.shared ∧
      ∀ t, (v.calls t).active = (callsOf (s.stack t)).active ∨
        (s.stack t = [] ∧ (v.calls t).active = some (.clear .broken)) := by
  rcases h.live_or_aborted rfl with hs | ⟨s₁, t, choice, call, rest, events, h₁, hs₁, hstack, hturn,
    hended, hothers⟩
  · obtain ⟨v, hshows, hheld, hwakeful⟩ := exists_wakeful h
    exact ⟨v, hheld, hwakeful, hshows.shared_eq, fun t => .inl (by rw [hshows.calls_eq hs])⟩
  · obtain ⟨v, hshows, hheld, hwakeful⟩ := exists_wakeful h₁
    obtain rfl := broken_of_abort hturn
    obtain ⟨hshared, -⟩ := Prod.mk.inj (Option.some.inj hturn)
    refine ⟨v, hheld, ?_, hshows.shared_eq.trans hshared, fun u => ?_⟩
    · rwa [h.length_threads, ← h₁.length_threads]
    · by_cases hu : u = t
      · subst hu
        exact .inr ⟨hended, by rw [hshows.calls_eq hs₁, hstack, callsOf_call]⟩
      · exact .inl (by rw [hshows.calls_eq hs₁, hothers u hu])

/-- A consumer that is about to take an item owns the lock. -/
theorem Call.owns_of_taking {call : Call α} (h : call.taking = true) : call.owns = true := by
  cases call with
  | pop p =>
      obtain ⟨wait, phase⟩ := p
      cases phase with
      | acting again => rfl
      | arriving | testing _ | drowsy | asleep | overslept | leaving _ =>
          simp [taking, Pop.taking] at h
  | push _ | size _ | clear _ => cases h

/-- The number of threads whose active call is of a kind. -/
def activeCount (s : State κ ω (Channel α) (Call α) (Answer α) (Event α ν))
    (kind : Tid → Call α → Bool) : Nat :=
  ∑ t ∈ Finset.range s.threads.length, ((callsOf (s.stack t)).active.any (kind t)).toNat

/-- Nobody is counted if nobody's active call is of the kind. -/
theorem activeCount_eq_zero {kind : Tid → Call α → Bool}
    (h : ∀ t, (callsOf (s.stack t)).active.any (kind t) = false) : activeCount s kind = 0 :=
  Finset.sum_eq_zero fun t _ => by rw [h t]; rfl

/-- Nobody is counted if no call that is active is of the kind. -/
theorem activeCount_eq_zero_of_calls {kind : Tid → Call α → Bool}
    (h : ∀ t call, (callsOf (s.stack t)).active = some call → kind t call = false) :
    activeCount s kind = 0 := by
  refine activeCount_eq_zero fun t => ?_
  cases hcall : (callsOf (s.stack t)).active with
  | none => rfl
  | some call => exact h t call hcall

/-- **No wake-up is lost.** In every run, at every moment:

* the threads that sleep un-notified are consumers;
* while there is one, the items are at most as many as the pushes that have added an item and not
  yet notified, the consumers out of their sleep that have not yet tested again, and those that
  have just tested and are about to take an item;
* such a one owns the lock from its test until it has taken the item, so there is none when the
  lock is free, and the first two are then enough;
* once every push has notified, and every consumer in progress sleeps un-notified, there is no
  item or nobody sleeps. -/
theorem no_lost_wakeup
    (h : (machine hook finalizer next).Reach (.ofCodes empty world codes) s) :
    (∀ t ∈ s.shared.sleepers, ∃ wait, wait ≠ .never ∧
      (callsOf (s.stack t)).active = some (.pop ⟨wait, .asleep⟩)) ∧
    (s.shared.sleepers ≠ [] → s.shared.value.length ≤
      activeCount s (fun _ => Call.owes) + activeCount s (Call.roused s.shared.sleepers) +
        activeCount s (fun _ => Call.taking)) ∧
    (∀ t, (callsOf (s.stack t)).active.any Call.taking = true → s.shared.owner = some t) ∧
    (s.shared.sleepers ≠ [] → (∀ t, (callsOf (s.stack t)).active.any Call.taking = false) →
      s.shared.value.length ≤
        activeCount s (fun _ => Call.owes) + activeCount s (Call.roused s.shared.sleepers)) ∧
    ((∀ t, (callsOf (s.stack t)).active.any Call.owes = false) →
      (∀ t p, (callsOf (s.stack t)).active = some (.pop p) → p.waits = true →
        p.phase = .asleep ∧ t ∈ s.shared.sleepers) →
      s.shared.value = [] ∨ s.shared.sleepers = []) := by
  obtain ⟨v, hheld, hwakeful, hshared, hactive⟩ := exists_wakeful_calls h
  have hany : ∀ (kind : Call α → Bool) t, kind (.clear .broken) = false →
      (v.calls t).active.any kind = (callsOf (s.stack t)).active.any kind := by
    intro kind t hbroken
    obtain heq | ⟨hended, heq⟩ := hactive t
    · rw [heq]
    · rw [heq, hended, Option.any_some, hbroken, callsOf_nil, Option.any_none]
  have hitems : s.shared.sleepers ≠ [] → s.shared.value.length ≤
      activeCount s (fun _ => Call.owes) + activeCount s (Call.roused s.shared.sleepers) +
        activeCount s (fun _ => Call.taking) := by
    intro hne
    rw [← hshared] at hne ⊢
    refine (hwakeful.items hne).trans ?_
    rw [activeCount, activeCount, activeCount, ← Finset.sum_add_distrib, ← Finset.sum_add_distrib]
    refine Finset.sum_le_sum fun t _ => ?_
    rw [credited, hany _ t rfl]
    cases (callsOf (s.stack t)).active with
    | none => exact Nat.zero_le _
    | some call =>
        simp only [Option.any_some, Call.credit]
        cases call.owes <;> cases call.roused v.shared.sleepers t <;> cases call.taking <;> decide
  have hfew : s.shared.sleepers ≠ [] →
      (∀ t, (callsOf (s.stack t)).active.any Call.taking = false) → s.shared.value.length ≤
        activeCount s (fun _ => Call.owes) + activeCount s (Call.roused s.shared.sleepers) := by
    intro hne hnone
    have hle := hitems hne
    rwa [activeCount_eq_zero hnone, Nat.add_zero] at hle
  refine ⟨fun t hmem => ?_, hitems, fun t htaking => ?_, hfew, fun hpushes hpops => ?_⟩
  · rw [← hshared] at hmem
    obtain ⟨-, wait, hwait, hpop⟩ := hwakeful.sleepers t hmem
    obtain heq | ⟨-, heq⟩ := hactive t
    · exact ⟨wait, hwait, heq ▸ hpop⟩
    · rw [heq] at hpop
      cases hpop
  · rw [← hany _ t rfl] at htaking
    rw [← hshared]
    refine (hheld.owner_iff t ()).mpr ?_
    obtain ⟨call, hcall, htakes⟩ := (Option.any_eq_true _ _).mp htaking
    rw [hcall]
    exact Call.owns_of_taking htakes
  · by_cases hne : s.shared.sleepers = []
    · exact .inr hne
    · refine .inl (List.length_eq_zero_iff.mp (Nat.le_zero.mp ?_))
      have hasleep : ∀ t call, (callsOf (s.stack t)).active = some call →
          call.roused s.shared.sleepers t = false ∧ call.taking = false := by
        intro t call hcall
        cases call with
        | pop p =>
            cases hwaits : p.waits with
            | false => simp [Call.roused, Call.taking, Pop.roused, Pop.taking, hwaits]
            | true =>
                obtain ⟨hphase, hmem⟩ := hpops t p hcall hwaits
                simp [Call.roused, Call.taking, Pop.roused, Pop.taking, hphase, hmem]
        | push _ | size _ | clear _ => exact ⟨rfl, rfl⟩
      have hle := hitems hne
      rwa [activeCount_eq_zero hpushes,
        activeCount_eq_zero_of_calls fun t call hcall => (hasleep t call hcall).1,
        activeCount_eq_zero_of_calls fun t call hcall => (hasleep t call hcall).2] at hle

/-! A run in which two consumers fall asleep and a producer pushes twice: the first push has woken
one consumer, the second has added its item and is still to notify. -/

/-- Pops one item, and waits for it for as long as it takes. -/
def popOne : Script (Request Nat) (Answer Nat) Unit Nat Unit := do
  let _ ← Script.ask (.popping .endless)

/-- Pushes one and two. -/
def pushTwo : Script (Request Nat) (Answer Nat) Unit Nat Unit := do
  let _ ← Script.ask (.pushing 1)
  let _ ← Script.ask (.pushing 2)

/-- The state in which one consumer has been woken, and the other still sleeps. -/
def oneStillAsleep : State (Script (Request Nat) (Answer Nat) Unit Nat Unit) Unit (Channel Nat)
    (Call Nat) (Answer Nat) (Event Nat Nat) :=
  let m := machine none (fun _ => none) (Script.next id)
  m.settle [(2, .go 0)] 9 <| m.settle [(0, .go 0), (1, .go 0)] 40 <|
    .ofCodes empty () [popOne, popOne, pushTwo]

theorem no_lost_wakeup_oneStillAsleep :
    oneStillAsleep.shared.sleepers = [1] ∧ oneStillAsleep.shared.value = [1, 2] ∧
      activeCount oneStillAsleep (fun _ => Call.owes) = 1 ∧
      activeCount oneStillAsleep (Call.roused oneStillAsleep.shared.sleepers) = 1 ∧
      oneStillAsleep.shared.value.length ≤ activeCount oneStillAsleep (fun _ => Call.owes) +
        activeCount oneStillAsleep (Call.roused oneStillAsleep.shared.sleepers) +
        activeCount oneStillAsleep (fun _ => Call.taking) :=
  ⟨rfl, rfl, rfl, rfl, (no_lost_wakeup (Machine.reach_settle [(2, .go 0)] 9
    (Machine.reach_settle [(0, .go 0), (1, .go 0)] 40 .start))).2.1 (List.cons_ne_nil 1 [])⟩

end Runs

end Offload.Channel
