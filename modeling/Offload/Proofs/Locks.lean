import Mathlib.Logic.Relation
import Offload.Proofs.Monitor.Visit
import Offload.Proofs.Scene

/-!
# Locks

A library may have several **locks**, each of which at most one thread owns. The stage of a call
says which locks the call owns, and a call that runs code, or ends, owns none. A thread **waits**
for a lock if it cannot make any step, and could if the lock were free. As every lock has a rank,
and a call that wants one owns only locks of a lower rank, no thread waits for a lock of its own,
and threads never wait for one another in a circle.

## Main results

* `Visit.keeps_of_turn`: a visit keeps to the lock of its monitor.
* `Locks.held_of_step`: the owners of the locks are the threads whose active calls say so; every
  step of every thread keeps this.
* `Locks.Fits.safe`: hence code runs under no lock, and who waits owns locks of a lower rank only.
* `Locks.Safe.acyclic`: hence there is no circle of threads that wait for one another.
-/

namespace Offload

variable {κ ω σ γ α β ρ ε ℓ : Type}

/-! ### One lock -/

/-- Whether a step of thread `t` **keeps to** a lock, whose owner it changes from `o` to `o'`. If
the thread owned the lock exactly if its stage said so (`b`), the same holds afterwards (`b'`), and
for the other threads nothing changes. -/
def Keeps (t : Tid) (o o' : Option Tid) (b b' : Bool) : Prop :=
  (o = some t ↔ b = true) →
    (o' = some t ↔ b' = true) ∧ ∀ u, u ≠ t → (o' = some u ↔ o = some u)

/-- A step that leaves the owner alone, and the stage's right to the lock. -/
theorem Keeps.same (t : Tid) (o : Option Tid) (b : Bool) : Keeps t o o b b :=
  fun h => ⟨h, fun _ _ => Iff.rfl⟩

/-- A step that takes a lock which nobody owns. -/
theorem Keeps.taken (t : Tid) {o : Option Tid} (b : Bool) (h : o = none) :
    Keeps t o (some t) b true := by
  subst h
  refine fun _ => ⟨by simp, fun u hu => ?_⟩
  simp [Ne.symm hu]

/-- A step that leaves a lock which the thread owns. -/
theorem Keeps.left (t : Tid) (o : Option Tid) : Keeps t o none true false := by
  refine fun hown => ⟨by simp, fun u hu => ?_⟩
  simp [hown.mpr rfl, Ne.symm hu]

/-- What goes on after a turn owns, if it goes on without running code. -/
def Turn.holds (owns : γ → Bool) : Turn κ γ α → Bool
  | .stay call => owns call
  | .run _ _ | .ret _ | .fail _ | .abort => false

/-- What goes on owns nothing if whatever goes on then owns nothing. -/
theorem Turn.holds_eq_false {owns : γ → Bool} {r : Turn κ γ α}
    (h : ∀ call, r.next? = some call → owns call = false) : r.holds owns = false := by
  cases r with
  | stay call => exact h call rfl
  | run _ _ | ret _ | fail _ | abort => rfl

/-- When a part goes on, the larger call owns what the part does; when the part ends, nothing. -/
theorem Turn.holds_within {γ' α' : Type} {wrap : γ → γ'} {answered : α → Turn κ γ' α'}
    {failed : Fault → Turn κ γ' α'} {owns : γ → Bool} {owns' : γ' → Bool}
    (hwrap : ∀ x, owns' (wrap x) = owns x) (hanswered : ∀ b, (answered b).holds owns' = false)
    (hfailed : ∀ fault, (failed fault).holds owns' = false) (r : Turn κ γ α) :
    (r.within wrap answered failed).holds owns' = r.holds owns := by
  cases r with
  | stay x => exact hwrap x
  | run _ _ | abort => rfl
  | ret b => exact hanswered b
  | fail fault => exact hfailed fault

/-- A visit that owns the lock can always go on. -/
theorem Visit.isSome_turn {v : Visit α β} {m : Monitor α} {phase : Phase β}
    (h : phase.owns = true) (t : Tid) (choice : Choice) :
    (v.turn t choice m phase).isSome = true := by
  cases phase with
  | testing again => cases hawait : v.await <;> simp [turn, hawait]
  | drowsy | acting _ => rfl
  | leaving outcome => cases outcome <;> rfl
  | arriving | asleep | overslept => cases h

/-- A visit that cannot go on does not own the lock. -/
theorem Visit.owns_of_stuck {δ : Type} {v : Visit α β} {t : Tid} {choice : Choice} {m : Monitor α}
    {phase : Phase β} {f : Monitor α × Progress β → δ}
    (h : (v.turn t choice m phase).map f = none) : phase.owns = false := by
  cases howns : phase.owns with
  | false => rfl
  | true =>
      have hsome := Visit.isSome_turn (v := v) (m := m) howns t choice
      rw [Option.map_eq_none_iff.mp h] at hsome
      cases hsome

/-- **A visit keeps to the lock.** -/
theorem Visit.keeps_of_turn {v : Visit α β} {t : Tid} {choice : Choice} {m m' : Monitor α}
    {phase : Phase β} {progress : Progress β} (h : v.turn t choice m phase = some (m', progress)) :
    Keeps t m.owner m'.owner phase.owns progress.owns := by
  cases turned_of_turn h with
  | arrived hfree =>
      have howns : (Progress.on (if v.await.isSome then .testing false else .acting false :
          Phase β)).owns = true := by
        split <;> rfl
      rw [howns]
      exact .taken t _ hfree
  | woken _ hfree =>
      have howns : (Progress.on (if m.poisoned then .acting true else .testing true :
          Phase β)).owns = true := by
        split <;> rfl
      rw [howns]
      exact .taken t _ hfree
  | wokenLate hfree =>
      have howns : (Progress.on (if m.poisoned then .leaving (.ok none) else .testing true :
          Phase β)).owns = true := by
        split <;> rfl
      rw [howns]
      exact .taken t _ hfree
  | @tested p again _ =>
      have howns : (Progress.on (v.afterTest choice again (p m.value))).owns = true := by
        rw [afterTest.eq_def]
        split
        · rfl
        · rfl
        · split <;> rfl
      rw [howns]
      exact .same t _ _
  | untested _ _ | acted _ => exact .same t _ _
  | slept | left _ | leftFaulted _ => exact .left t _
  | stirred _ | expired _ _ => exact .same t _ _

/-! ### Many locks -/

/-- Whether a step of thread `t` from `s` to `s'` keeps to every lock, and runs code without any:
`x` is the call before, `r` its turn. -/
structure Steady (owner : σ → ℓ → Option Tid) (owns : γ → ℓ → Bool) (t : Tid) (s s' : σ) (x : γ)
    (r : Turn κ γ α) : Prop where
  keeps : ∀ l, Keeps t (owner s l) (owner s' l) (owns x l) (r.holds (owns · l))
  run : ∀ code y, r = .run code y → ∀ l, owns y l = false

/-- What does not go on owns nothing. -/
theorem Turn.owns_of_ends {owns : γ → ℓ → Bool} {r : Turn κ γ α} (h : r.next? = none) :
    ∀ y, r.next? = some y → ∀ l, owns y l = false := by
  intro y hy
  rw [h] at hy
  cases hy

/-- A step that touches no lock, before and after which the call owns none. -/
theorem Steady.of_idle {owner : σ → ℓ → Option Tid} {owns : γ → ℓ → Bool} {t : Tid} {s s' : σ}
    {x : γ} {r : Turn κ γ α} (howner : ∀ l, owner s' l = owner s l) (hx : ∀ l, owns x l = false)
    (hr : ∀ y, r.next? = some y → ∀ l, owns y l = false) : Steady owner owns t s s' x r where
  keeps l := by
    rw [howner l, hx l, Turn.holds_eq_false fun y hy => hr y hy l]
    exact .same t _ _
  run := by
    rintro code y rfl
    exact hr y rfl

/-- A larger call keeps to the locks as its part does, if it owns what its part owns. -/
theorem Steady.within {γ' α' : Type} {owner : σ → ℓ → Option Tid} {owns : γ → ℓ → Bool}
    {owns' : γ' → ℓ → Bool} {t : Tid} {s s' : σ} {x : γ} {r : Turn κ γ α} {wrap : γ → γ'}
    {answered : α → Turn κ γ' α'} {failed : Fault → Turn κ γ' α'}
    (h : Steady owner owns t s s' x r) (hwrap : ∀ y l, owns' (wrap y) l = owns y l)
    (hanswered : ∀ b y, (answered b).next? = some y → ∀ l, owns' y l = false)
    (hfailed : ∀ fault y, (failed fault).next? = some y → ∀ l, owns' y l = false) :
    Steady owner owns' t s s' (wrap x) (r.within wrap answered failed) where
  keeps l := by
    have hholds : (r.within wrap answered failed).holds (owns' · l) = r.holds (owns · l) :=
      Turn.holds_within (fun y => hwrap y l)
        (fun b => Turn.holds_eq_false fun y hy => hanswered b y hy l)
        (fun fault => Turn.holds_eq_false fun y hy => hfailed fault y hy l) r
    rw [hwrap, hholds]
    exact h.keeps l
  run := by
    intro code y hrun l
    cases r with
    | run _ x' =>
        cases hrun
        rw [hwrap]
        exact h.run _ _ rfl l
    | ret b => exact hanswered b y (by rw [show answered b = _ from hrun]; rfl) l
    | fail fault => exact hfailed fault y (by rw [show failed fault = _ from hrun]; rfl) l
    | stay _ | abort => cases hrun

/-- A part that knows a single lock keeps to all of them, if it keeps to its own and the larger call
owns no other. -/
theorem Steady.of_part {γ' α' : Type} {owner : σ → ℓ → Option Tid} {owns : γ → Bool}
    {owns' : γ' → ℓ → Bool} {t : Tid} {s s' : σ} {x : γ} {r : Turn κ γ α}
    {answered : α → Turn κ γ' α'} {failed : Fault → Turn κ γ' α'} (wrap : γ → γ') (l₀ : ℓ)
    (hkeeps : Keeps t (owner s l₀) (owner s' l₀) (owns x) (r.holds owns))
    (hrun : ∀ code y, r = .run code y → owns y = false)
    (hothers : ∀ l, l ≠ l₀ → owner s' l = owner s l) (hwrap : ∀ y, owns' (wrap y) l₀ = owns y)
    (hwraps : ∀ y l, l ≠ l₀ → owns' (wrap y) l = false)
    (hanswered : ∀ b y, (answered b).next? = some y → ∀ l, owns' y l = false)
    (hfailed : ∀ fault y, (failed fault).next? = some y → ∀ l, owns' y l = false) :
    Steady owner owns' t s s' (wrap x) (r.within wrap answered failed) := by
  have hpart : Steady owner (fun y l => owns' (wrap y) l) t s s' x r := by
    refine ⟨fun l => ?_, fun code y heq l => ?_⟩
    · by_cases hl : l = l₀
      · subst hl
        simpa only [hwrap] using hkeeps
      · simp only [hwraps _ l hl, hothers l hl, Turn.holds_eq_false fun _ _ => rfl]
        exact .same t _ _
    · by_cases hl : l = l₀
      · subst hl
        exact (hwrap y).trans (hrun code y heq)
      · exact hwraps y l hl
  exact hpart.within (fun _ _ => rfl) hanswered hfailed

/-! ### The locks of a library -/

/-- The locks of a library: who owns each, the state in which one of them is free, whether a call
at its stage owns one, which one a call at its stage wants next, their ranks, and which calls there
can be. -/
structure Locks (ℓ σ γ : Type) where
  owner : σ → ℓ → Option Tid
  free : σ → ℓ → σ
  owns : γ → ℓ → Bool
  wants : γ → Option ℓ
  rank : ℓ → Nat
  sound : γ → Prop

namespace Locks

variable {L : Locks ℓ σ γ} {m : Machine κ ω σ γ α ρ ε} {lib : Library κ σ γ α ρ ε}
  {s s₀ : State κ ω σ γ α ε} {v v' v₀ : Scene σ γ ε} {t u : Tid} {l : ℓ}

/-- Whether the calls of a library keep to its locks: they begin without any, run code without any,
and only the want of a lock keeps a call from going on that could if the lock were free. -/
structure Fits (L : Locks ℓ σ γ) (lib : Library κ σ γ α ρ ε) : Prop where
  begins : ∀ call, lib.begins call → L.sound call ∧ ∀ l, L.owns call l = false
  resume : ∀ call result, L.sound call → L.sound (lib.resume call result) ∧
    ((∀ l, L.owns call l = false) → ∀ l, L.owns (lib.resume call result) l = false)
  keeps : ∀ t choice s call s' events r, L.sound call →
    lib.turn t choice s call = some (s', events, r) →
    Steady L.owner L.owns t s s' call r ∧ ∀ call', r.next? = some call' → L.sound call'
  abort : ∀ t choice s call s' events, L.sound call →
    lib.turn t choice s call = some (s', events, .abort) → s' = s
  wants : ∀ t choice s call l, lib.turn t choice s call = none →
    (lib.turn t choice (L.free s l) call).isSome = true → L.wants call = some l
  order : ∀ call l l', L.wants call = some l → L.owns call l' = true → L.rank l' < L.rank l

/-- Every call of a run is one that there can be. -/
theorem Fits.sound_of_reach (hL : L.Fits lib) (h : Scene.Reach lib v₀ v)
    (hstart : ∀ t, ∀ call ∈ (v₀.calls t).all, L.sound call) :
    ∀ t, ∀ call ∈ (v.calls t).all, L.sound call :=
  h.all_calls hstart (fun call hbegins => (hL.begins call hbegins).1)
    (fun call result hsound => (hL.resume call result hsound).1)
    fun _ _ _ _ _ hturn hsound => (hL.keeps _ _ _ _ _ _ _ hsound hturn).2

/-- Whether the owners of the locks are the threads whose active calls say so, and calls that wait
for code own none. -/
structure Held (L : Locks ℓ σ γ) (v : Scene σ γ ε) : Prop where
  owner_iff : ∀ t l, L.owner v.shared l = some t ↔ (v.calls t).active.any (L.owns · l) = true
  waiting : ∀ t, ∀ call ∈ (v.calls t).waiting, ∀ l, L.owns call l = false

/-- While nobody makes a call, all locks are free. -/
theorem held_of_nobody {shared : σ} (hfree : ∀ l, L.owner shared l = none)
    (history : List (Tid × ε)) : L.Held ⟨shared, history, fun _ => ⟨none, []⟩⟩ :=
  ⟨fun _ l => by simp [hfree l], fun _ _ hcall => absurd hcall List.not_mem_nil⟩

/-- A call that begins or goes on after code, and owns no lock. -/
theorem Held.of_idle {call : γ} {rest : List γ} (hv : L.Held v)
    (hactive : (v.calls t).active = none) (hcall : ∀ l, L.owns call l = false)
    (hrest : ∀ c ∈ rest, ∀ l, L.owns c l = false) :
    L.Held (v.withCalls t ⟨some call, rest⟩) := by
  refine ⟨fun u l => ?_, fun u c hc => ?_⟩
  · rw [Scene.withCalls_shared, hv.owner_iff u l, Scene.withCalls_calls]
    by_cases hu : u = t
    · subst hu
      rw [hactive, Function.update_self]
      simp [hcall l]
    · rw [Function.update_of_ne hu]
  · rw [Scene.withCalls_calls] at hc
    by_cases hu : u = t
    · subst hu
      rw [Function.update_self] at hc
      exact hrest c hc
    · rw [Function.update_of_ne hu] at hc
      exact hv.waiting u c hc

/-- **Owners, one step.** -/
theorem held_of_step (hL : L.Fits lib) (hsound : ∀ t, ∀ call ∈ (v.calls t).all, L.sound call)
    (h : Scene.Step lib t v v') (hv : L.Held v) : L.Held v' := by
  cases h with
  | noted _ _ => exact ⟨hv.owner_iff, hv.waiting⟩
  | called hcode hbegins =>
      exact hv.of_idle hcode.1 (hL.begins _ hbegins).2 (hv.waiting t)
  | @resumed call rest result hcalls =>
      have hwaiting := hv.waiting t
      have hcall := hsound t call (by rw [hcalls]; exact List.mem_cons_self)
      rw [hcalls] at hwaiting
      exact hv.of_idle (by rw [hcalls])
        ((hL.resume _ _ hcall).2 (hwaiting call List.mem_cons_self))
        fun c hc => hwaiting c (List.mem_cons_of_mem _ hc)
  | @turned call rest choice s' events r hcalls hturn =>
      have hcall := hsound t call (by rw [hcalls]; exact List.mem_cons_self)
      by_cases habort : r = .abort
      · subst habort
        obtain rfl := hL.abort _ _ _ _ _ _ hcall hturn
        rw [Calls.after, ← hcalls, Function.update_eq_self]
        exact ⟨hv.owner_iff, hv.waiting⟩
      · obtain ⟨hsteady, -⟩ := hL.keeps _ _ _ _ _ _ _ hcall hturn
        have hwaiting := hv.waiting t
        rw [hcalls] at hwaiting
        have hkeeps : ∀ l, _ := fun l => hsteady.keeps l <| by
          rw [hv.owner_iff t l, hcalls, Option.any_some]
        refine ⟨fun u l => ?_, fun u c hc => ?_⟩
        · by_cases hu : u = t
          · subst hu
            rw [(hkeeps l).1]
            cases r with
            | abort => exact absurd rfl habort
            | stay _ | run _ _ | ret _ | fail _ => simp [Calls.after, Turn.holds]
          · simp only [Function.update_of_ne hu, ← hv.owner_iff u l]
            exact (hkeeps l).2 u hu
        · by_cases hu : u = t
          · subst hu
            simp only [Function.update_self] at hc
            cases r with
            | run code call' =>
                rcases List.mem_cons.mp hc with rfl | hc
                · exact hsteady.run _ _ rfl
                · exact hwaiting c hc
            | stay _ | ret _ | fail _ | abort => exact hwaiting c hc
          · simp only [Function.update_of_ne hu] at hc
            exact hv.waiting u c hc

/-! ### Waiting -/

/-- The same state, except that lock `l` is free. -/
def freed (L : Locks ℓ σ γ) (s : State κ ω σ γ α ε) (l : ℓ) : State κ ω σ γ α ε :=
  { s with shared := L.free s.shared l }

/-- Whether thread `t` waits for lock `l`: it cannot make any step, and could if the lock were
free. -/
def Waits (L : Locks ℓ σ γ) (m : Machine κ ω σ γ α ρ ε) (s : State κ ω σ γ α ε) (t : Tid)
    (l : ℓ) : Prop :=
  (∀ choice, m.step t choice s = none) ∧
    ∃ choice, (m.step t choice (L.freed s l)).isSome = true

/-- Whether thread `t` waits for a lock that thread `u` owns. -/
def WaitsOn (L : Locks ℓ σ γ) (m : Machine κ ω σ γ α ρ ε) (s : State κ ω σ γ α ε)
    (t u : Tid) : Prop :=
  ∃ l, L.Waits m s t l ∧ L.owner s.shared l = some u

/-- What holds of the locks in every state of a run: a thread that is in code owns none, and a
thread that waits for one owns only locks of a lower rank. -/
structure Safe (L : Locks ℓ σ γ) (m : Machine κ ω σ γ α ρ ε) (s : State κ ω σ γ α ε) : Prop where
  code : ∀ t position rest, s.stack t = .code position :: rest → ∀ l, L.owner s.shared l ≠ some t
  rank : ∀ t l l', L.Waits m s t l → L.owner s.shared l' = some t → L.rank l' < L.rank l

/-- A thread waits for a lock only in a call that wants it. -/
theorem exists_of_waits (hfits : m.Fits lib) (hL : L.Fits lib) (h : L.Waits m s t l) :
    s.aborted = false ∧ ∃ call rest, s.stack t = .call call :: rest ∧ L.wants call = some l := by
  obtain ⟨hstuck, choice, hmoves⟩ := h
  have hlive : s.aborted = false := by
    cases haborted : s.aborted with
    | false => rfl
    | true => simp [Machine.step, freed, haborted] at hmoves
  have hstuck := hstuck choice
  rw [← Option.isNone_iff_eq_none, ← Option.not_isSome, Bool.not_eq_true'] at hstuck
  refine ⟨hlive, ?_⟩
  by_cases hcall : ∃ call rest, s.stack t = .call call :: rest
  · obtain ⟨call, rest, hstack⟩ := hcall
    refine ⟨call, rest, hstack, hL.wants t choice s.shared call l ?_ ?_⟩
    · rw [Machine.isSome_step_call hlive hstack, hfits.turn_eq] at hstuck
      simpa using hstuck
    · rwa [Machine.isSome_step_call (s := L.freed s l) hlive hstack, hfits.turn_eq] at hmoves
  · have hsame : (m.step t choice (L.freed s l)).isSome = (m.step t choice s).isSome :=
      have hstack : (L.freed s l).stack t = s.stack t := rfl
      m.isSome_step_code hstack rfl rfl (fun call rest h => hcall ⟨call, rest, h⟩) choice
    rw [hmoves, hstuck] at hsame
    cases hsame

/-- Whether a run starts with calls that there can be, and with the locks as their stages say. -/
structure Starts (L : Locks ℓ σ γ) (lib : Library κ σ γ α ρ ε) (v₀ : Scene σ γ ε)
    (s₀ : State κ ω σ γ α ε) : Prop where
  shows : Machine.Shows lib v₀ s₀
  live : s₀.aborted = false
  sound : ∀ t, ∀ call ∈ (v₀.calls t).all, L.sound call
  held : L.Held v₀

/-- In every state of a run the owners of the locks are the threads whose calls say so. -/
theorem Fits.owner_iff (hL : L.Fits lib) (hfits : m.Fits lib) (hs₀ : L.Starts lib v₀ s₀)
    (h : m.Reach s₀ s) (hlive : s.aborted = false) (t : Tid) (l : ℓ) :
    L.owner s.shared l = some t ↔ (callsOf (s.stack t)).active.any (L.owns · l) = true := by
  obtain ⟨v, hv, hshows⟩ := hfits.reach_shows hs₀.shows h
  have hheld : L.Held v := hv.invariant hs₀.held fun _ _ _ hv hP hstep =>
    held_of_step hL (hL.sound_of_reach hv hs₀.sound) hstep hP
  rw [← hshows.shared_eq, ← hshows.calls_eq hlive]
  exact hheld.owner_iff t l

/-- Every state of a run is safe. -/
theorem Fits.safe (hL : L.Fits lib) (hfits : m.Fits lib) (hs₀ : L.Starts lib v₀ s₀)
    (h : m.Reach s₀ s) : L.Safe m s := by
  have hlocks : ∀ {s : State κ ω σ γ α ε}, m.Reach s₀ s → s.aborted = false → ∀ t l,
      L.owner s.shared l = some t ↔ (callsOf (s.stack t)).active.any (L.owns · l) = true :=
    hL.owner_iff hfits hs₀
  refine ⟨fun t position rest hstack l howner => ?_, fun t l l' hwaits howner => ?_⟩
  · rcases h.live_or_aborted hs₀.live with hlive | ⟨s₁, u, choice, call, rest', events, h₁, hlive₁,
        hstack₁, hturn, hended, hothers⟩
    · rw [hlocks h hlive, hstack, callsOf_code] at howner
      cases howner
    · -- the thread that aborted has ended, and to the others nothing has happened
      have ht : t ≠ u := by
        rintro rfl
        rw [hended] at hstack
        cases hstack
      rw [hfits.turn_eq] at hturn
      have hsound : L.sound call := by
        obtain ⟨v, hv, hshows⟩ := hfits.reach_shows hs₀.shows h₁
        refine hL.sound_of_reach hv hs₀.sound u call ?_
        rw [hshows.calls_eq hlive₁, hstack₁]
        exact List.mem_cons_self
      rw [hL.abort _ _ _ _ _ _ hsound hturn, hlocks h₁ hlive₁, ← hothers t ht, hstack,
        callsOf_code] at howner
      cases howner
  · obtain ⟨hlive, call, rest, hstack, hwants⟩ := exists_of_waits hfits hL hwaits
    rw [hlocks h hlive, hstack, callsOf_call, Option.any_some] at howner
    exact hL.order call l l' hwants howner

/-- No thread waits for a lock that it owns. -/
theorem Safe.owner_ne (h : L.Safe m s) (hwaits : L.Waits m s t l) :
    L.owner s.shared l ≠ some t :=
  fun howner => Nat.lt_irrefl _ (h.rank t l l hwaits howner)

/-- Along a chain of threads that wait for one another the locks rise in rank. -/
theorem Safe.rank_lt_of_transGen (h : L.Safe m s) (hchain : Relation.TransGen (L.WaitsOn m s) t u) :
    ∃ l l', L.Waits m s t l ∧ L.owner s.shared l' = some u ∧ L.rank l ≤ L.rank l' := by
  induction hchain with
  | single hone =>
      obtain ⟨l, hwaits, howner⟩ := hone
      exact ⟨l, l, hwaits, howner, Nat.le_refl _⟩
  | @tail b c _ hnext ih =>
      obtain ⟨l, l', hwaits, howner, hle⟩ := ih
      obtain ⟨l'', hwaits', howner'⟩ := hnext
      have hlt := h.rank b l'' l' hwaits' howner
      exact ⟨l, l'', hwaits, howner', Nat.le_trans hle (Nat.le_of_lt hlt)⟩

/-- **No circle.** Threads never wait for one another in a circle. -/
theorem Safe.acyclic (h : L.Safe m s) (t : Tid) : ¬ Relation.TransGen (L.WaitsOn m s) t t := by
  intro hcircle
  obtain ⟨l, l', hwaits, howner, hle⟩ := h.rank_lt_of_transGen hcircle
  exact Nat.lt_irrefl _ (Nat.lt_of_lt_of_le (h.rank t l l' hwaits howner) hle)

end Locks

end Offload
