import Offload.Proofs.Scene

/-!
# Libraries within machines

A machine may hold more than one library: its shared state then has a part for each of them, and its
calls, answers and events are those of all of them. An **inset** says where one library stands in
such a machine. A state of the machine is seen as a scene of the library by looking at nothing else
(`Inset.scene`), and every step of the machine is then a step of the library or changes nothing that
is seen. So an invariant that was proved on the scenes of a library holds wherever it is set in.

## Main results

* `Inset.Fits.step_scene`: what one step of the machine is to the library.
* `Inset.Fits.reach_scene`: every reachable state is seen as a reachable scene.
-/

namespace Offload

variable {κ ω σ γ α ρ ε σ' γ' α' ε' : Type}

/-- Where the state, the calls, the answers and the events of a library stand in a machine. -/
structure Inset (σ γ α ε σ' γ' α' ε' : Type) where
  part : σ' → σ
  put : σ' → σ → σ'
  wrap : γ → γ'
  /-- The call of the library that a call of the machine is, if it is one. -/
  pick : γ' → Option γ
  answer : α → α'
  tell : ε → ε'
  /-- The event of the library that an event of the machine is, if it is one. -/
  hear : ε' → Option ε

namespace Inset

variable (i : Inset σ γ α ε σ' γ' α' ε')

/-- The calls of the library among the calls of a thread. -/
def calls (c : Calls γ') : Calls γ :=
  ⟨c.active.bind i.pick, c.waiting.filterMap i.pick⟩

/-- The events of the library in a history. -/
def heard (history : List (Tid × ε')) : List (Tid × ε) :=
  history.filterMap fun entry => (i.hear entry.2).map (Prod.mk entry.1)

/-- What is seen of the library in a state of the machine. -/
def scene (s : State κ ω σ' γ' α' ε') : Scene σ γ ε where
  shared := i.part s.shared
  history := i.heard s.history
  calls t := i.calls (callsOf (s.stack t))

/-- Whether the outermost layer of a thread, if it has any, is a call of the library. -/
def Based (frames : Stack κ γ' α') : Prop :=
  ∀ frame ∈ frames.getLast?, ∃ call, frame = .call (i.wrap call)

/-- Whether a library stands so in a machine. -/
structure Fits (m : Machine κ ω σ' γ' α' ρ ε') (lib : Library κ σ γ α ρ ε) : Prop where
  part_put : ∀ s x, i.part (i.put s x) = x
  pick_iff : ∀ call' call, i.pick call' = some call ↔ call' = i.wrap call
  hear_tell : ∀ event, i.hear (i.tell event) = some event
  turn_wrap : ∀ t choice s call, m.turn t choice s (i.wrap call) =
    (lib.turn t choice (i.part s) call).map fun r => (i.put s r.1, r.2.1.map i.tell,
      r.2.2.within i.wrap (fun a => .ret (i.answer a)) .fail)
  /-- Other calls leave the library alone. -/
  turn_aside : ∀ t choice s call s' events r, i.pick call = none →
    m.turn t choice s call = some (s', events, r) → i.part s' = i.part s ∧
      (∀ event ∈ events, i.hear event = none) ∧ ∀ call', r.next? = some call' → i.pick call' = none
  resume_eq : ∀ call result, i.pick (m.resume call result) =
    (i.pick call).map fun c => lib.resume c result
  begins : ∀ position call' k call, m.next position = .call call' k → i.pick call' = some call →
    lib.begins call
  notes : ∀ position event' rest event, m.next position = .note event' rest →
    i.hear event' = some event → lib.notes event

/-- Whether the layers of all threads are as a machine builds them, with a call of the library at
the bottom where the library has threads that are started with one. -/
structure Laid (lib : Library κ σ γ α ρ ε) (s : State κ ω σ' γ' α' ε') : Prop where
  nested : ∀ t, ∃ rooted, Nested rooted (s.stack t)
  based : ∀ t, lib.rooted t = true → i.Based (s.stack t)

variable {i} {m : Machine κ ω σ' γ' α' ρ ε'} {lib : Library κ σ γ α ρ ε}

/-! ### What is heard -/

theorem heard_append (history history' : List (Tid × ε')) :
    i.heard (history ++ history') = i.heard history ++ i.heard history' := by
  simp [heard]

theorem heard_of_none {t : Tid} {events : List ε'} (h : ∀ event ∈ events, i.hear event = none) :
    i.heard (events.map (Prod.mk t)) = [] := by
  rw [heard, List.filterMap_eq_nil_iff]
  intro entry hentry
  obtain ⟨event, hevent, rfl⟩ := List.mem_map.mp hentry
  rw [h event hevent]
  rfl

theorem Fits.heard_tell (hfits : i.Fits m lib) (t : Tid) (events : List ε) :
    i.heard ((events.map i.tell).map (Prod.mk t)) = events.map (Prod.mk t) := by
  induction events with
  | nil => rfl
  | cons event events ih =>
      rw [List.map_cons, List.map_cons, List.map_cons, ← ih, heard, List.filterMap_cons,
        hfits.hear_tell]
      rfl

/-! ### Layers -/

theorem based_cons {frame : Frame κ γ' α'} {rest : Stack κ γ' α'} :
    i.Based (frame :: rest) ↔ ∃ call, rest.getLast?.getD frame = .call (i.wrap call) := by
  simp [Based, List.getLast?_cons]

/-- The layers above the outermost do not matter. -/
theorem Based.above {rest : Stack κ γ' α'} (h : i.Based rest) (hne : rest ≠ [])
    (frames : Stack κ γ' α') : i.Based (frames ++ rest) := by
  intro frame hframe
  rw [List.getLast?_append, List.getLast?_eq_some_getLast hne, Option.some_or] at hframe
  exact h frame (by rw [List.getLast?_eq_some_getLast hne]; exact hframe)

theorem Based.tail {frame : Frame κ γ' α'} {rest : Stack κ γ' α'} (h : i.Based (frame :: rest)) :
    i.Based rest := by
  cases rest with
  | nil => exact fun _ h => nomatch h
  | cons frame' rest' =>
      intro last hlast
      exact h last (by rwa [List.getLast?_cons_cons])

/-- Below what is no call there is something. -/
theorem Based.below_ne_nil {frame : Frame κ γ' α'} {rest : Stack κ γ' α'}
    (h : i.Based (frame :: rest)) (hframe : frame.call? = none) : rest ≠ [] := by
  rintro rfl
  obtain ⟨call, rfl⟩ := h frame rfl
  cases hframe

/-- In place of the topmost call, layers may stand that end with a call of the library if this was
one. -/
theorem Based.replace {call' : γ'} {rest : Stack κ γ' α'} (h : i.Based (.call call' :: rest))
    (frames : Stack κ γ' α')
    (hframes : ∀ call, call' = i.wrap call → i.Based frames) : i.Based (frames ++ rest) := by
  by_cases hne : rest = []
  · subst hne
    obtain ⟨call, heq⟩ := h _ rfl
    rw [List.append_nil]
    exact hframes call (Frame.call.inj heq)
  · exact h.tail.above hne frames

/-- A rooted thread in code has a call of the library that waits. -/
theorem Based.waiting_ne_nil (hfits : i.Fits m lib) {position : κ} {rest : Stack κ γ' α'}
    (h : i.Based (.code position :: rest)) :
    (i.calls (callsOf (.code position :: rest))).waiting ≠ [] := by
  have hne := h.below_ne_nil rfl
  obtain ⟨call, hlast⟩ := h.tail _ (List.getLast?_eq_some_getLast hne)
  have hmem : .call (i.wrap call) ∈ rest := hlast ▸ List.getLast_mem hne
  exact List.ne_nil_of_mem (List.mem_filterMap.mpr
    ⟨i.wrap call, List.mem_filterMap.mpr ⟨_, List.mem_cons_of_mem _ hmem, rfl⟩,
      (hfits.pick_iff _ _).mpr rfl⟩)

theorem scene_calls (s : State κ ω σ' γ' α' ε') (t : Tid) :
    (i.scene s).calls t = i.calls (callsOf (s.stack t)) := rfl

/-- A thread in code is in code to the library. -/
theorem Laid.inCode (hfits : i.Fits m lib) {s : State κ ω σ' γ' α' ε'} (hs : i.Laid lib s)
    {t : Tid} {position : κ} {rest : Stack κ γ' α'} (hstack : s.stack t = .code position :: rest) :
    (i.scene s).InCode lib t := by
  refine ⟨?_, fun hroot => ?_⟩
  · rw [scene_calls, hstack]
    rfl
  · have hbased := hs.based t hroot
    rw [hstack] at hbased
    rw [scene_calls, hstack]
    exact hbased.waiting_ne_nil hfits

/-! ### One step -/

/-- Thread `t` goes on with other layers. -/
theorem Laid.withStack {s s' : State κ ω σ' γ' α' ε'} {t : Tid} {frames : Stack κ γ' α'}
    (hs : i.Laid lib s) (hne : s.stack t ≠ []) (hnested : ∃ rooted, Nested rooted frames)
    (hbased : i.Based (s.stack t) → i.Based frames)
    (hstack : ∀ u, s'.stack u = (s.withStack t frames).stack u) : i.Laid lib s' := by
  constructor
  · intro u
    rw [hstack]
    by_cases hu : u = t
    · subst hu
      rwa [State.stack_withStack_self _ hne]
    · rw [State.stack_withStack_ne _ hu]
      exact hs.nested u
  · intro u hroot
    rw [hstack]
    by_cases hu : u = t
    · subst hu
      rw [State.stack_withStack_self _ hne]
      exact hbased (hs.based u hroot)
    · rw [State.stack_withStack_ne _ hu]
      exact hs.based u hroot

/-- What is seen when thread `t` goes on with other layers. -/
theorem scene_withStack {s s' : State κ ω σ' γ' α' ε'} {t : Tid} {frames : Stack κ γ' α'}
    (hne : s.stack t ≠ []) (hstack : ∀ u, s'.stack u = (s.withStack t frames).stack u) :
    i.scene s' = ⟨i.part s'.shared, i.heard s'.history,
      Function.update (i.scene s).calls t (i.calls (callsOf frames))⟩ := by
  rw [scene, Scene.mk.injEq, Function.eq_update_iff]
  refine ⟨rfl, rfl, ?_, fun u hu => ?_⟩
  · rw [hstack, State.stack_withStack_self _ hne]
  · rw [hstack, State.stack_withStack_ne _ hu]
    rfl

/-- Nothing is seen of a step after which the thread makes the same calls of the library. -/
theorem scene_eq {s s' : State κ ω σ' γ' α' ε'} {t : Tid} {frames : Stack κ γ' α'}
    (hne : s.stack t ≠ []) (hstack : ∀ u, s'.stack u = (s.withStack t frames).stack u)
    (hpart : i.part s'.shared = i.part s.shared) (hheard : i.heard s'.history = i.heard s.history)
    (hcalls : i.calls (callsOf frames) = i.calls (callsOf (s.stack t))) :
    i.scene s' = i.scene s := by
  rw [scene_withStack hne hstack, hpart, hheard, hcalls,
    show i.calls (callsOf (s.stack t)) = (i.scene s).calls t from rfl, Function.update_eq_self]
  rfl

/-- A turn of a call of the library leaves the calls that the library's own turn leaves. -/
theorem Fits.calls_after (hfits : i.Fits m lib) (call : γ) (rest : List γ') (r : Turn κ γ α) :
    i.calls (Calls.after (i.wrap call) rest (r.within i.wrap (fun a => .ret (i.answer a)) .fail)) =
      Calls.after call (rest.filterMap i.pick) r := by
  have hpick : ∀ c, i.pick (i.wrap c) = some c := fun c => (hfits.pick_iff _ _).mpr rfl
  cases r with
  | stay call' => simp [Turn.within, Calls.after, calls, hpick]
  | run code call' => simp [Turn.within, Calls.after, calls, hpick]
  | ret answer | fail fault => rfl
  | abort => simp [Turn.within, Calls.after, calls, hpick]

/-- A turn of another call leaves the calls of the library as they are. -/
theorem calls_after_aside {call' : γ'} {rest : List γ'} {r : Turn κ γ' α'}
    (hcall : i.pick call' = none) (hnext : ∀ call'', r.next? = some call'' → i.pick call'' = none) :
    i.calls (Calls.after call' rest r) = i.calls ⟨some call', rest⟩ := by
  cases r with
  | stay call'' => simp [Calls.after, calls, hcall, hnext call'' rfl]
  | run code call'' => simp [Calls.after, calls, hcall, hnext call'' rfl]
  | ret _ | fail _ => simp [Calls.after, calls, hcall]
  | abort => rfl

/-- The layers after a turn end with a call of the library if the layers before did. -/
theorem Fits.based_afterTurn (hfits : i.Fits m lib) {t : Tid} {choice : Choice} {s s' : σ'}
    {events : List ε'} {call' : γ'} {rest : Stack κ γ' α'} {r : Turn κ γ' α'} {rooted : Bool}
    (hnest : Nested rooted (.call call' :: rest)) (h : i.Based (.call call' :: rest))
    (hturn : m.turn t choice s call' = some (s', events, r)) :
    i.Based (Machine.afterTurn rest r) := by
  -- a call of the library goes on as one
  have hnext : ∀ call, call' = i.wrap call → ∀ call'', r.next? = some call'' →
      ∃ c, call'' = i.wrap c := by
    rintro call rfl call'' hcall''
    rw [hfits.turn_wrap] at hturn
    obtain ⟨r₀, -, heq⟩ := Option.map_eq_some_iff.mp hturn
    cases heq
    rw [Turn.next?_within] at hcall''
    obtain ⟨c, -, rfl⟩ := Option.map_eq_some_iff.mp hcall''
    exact ⟨c, rfl⟩
  have hfinish : ∀ answer, i.Based (Machine.finishCall answer rest) := by
    intro answer
    cases hnest with
    | call => exact h.tail
    | asked _ k hcode =>
        exact h.tail.tail.above (h.tail.below_ne_nil rfl) [_]
  cases r with
  | stay call'' =>
      refine h.replace [.call call''] fun call hcall => ?_
      obtain ⟨c, rfl⟩ := hnext call hcall call'' rfl
      exact based_cons.mpr ⟨c, rfl⟩
  | run code call'' =>
      refine h.replace [.code code, .call call''] fun call hcall => ?_
      obtain ⟨c, rfl⟩ := hnext call hcall call'' rfl
      exact based_cons.mpr ⟨c, rfl⟩
  | ret answer => exact hfinish (.ok answer)
  | fail fault => exact hfinish (.error fault)
  | abort => exact fun _ h => nomatch h

/-- Whether a step of thread `t` from `s` to `s'` is a step of the library or is not seen. -/
def Seen (i : Inset σ γ α ε σ' γ' α' ε') (lib : Library κ σ γ α ρ ε) (t : Tid)
    (s s' : State κ ω σ' γ' α' ε') : Prop :=
  i.scene s' = i.scene s ∨ Scene.Step lib t (i.scene s) (i.scene s')

section Steps

variable {s : State κ ω σ' γ' α' ε'} {t : Tid} {position : κ} {rest : Stack κ γ' α'} {call' : γ'}

/-- Code that a call has run ends. -/
theorem Fits.seen_ended (hfits : i.Fits m lib) (result : Except Fault ρ)
    (hstack : s.stack t = .code position :: .call call' :: rest) :
    i.Seen lib t s (s.withStack t (m.finishCode result (.call call' :: rest))) := by
  have hne : s.stack t ≠ [] := by simp [hstack]
  have hwaits : (i.scene s).calls t = i.calls ⟨none, call' :: rest.filterMap Frame.call?⟩ := by
    rw [scene_calls, hstack]
    rfl
  have hgoes : callsOf (m.finishCode result (.call call' :: rest)) =
      ⟨some (m.resume call' result), rest.filterMap Frame.call?⟩ := rfl
  have hresume := hfits.resume_eq call' result
  cases hpick : i.pick call' with
  | none =>
      refine .inl (scene_eq hne (fun _ => rfl) rfl rfl ?_)
      rw [hgoes, ← scene_calls, hwaits]
      simp [calls, hresume, hpick]
  | some call =>
      refine .inr ?_
      rw [scene_withStack hne fun _ => rfl, hgoes]
      have hcalls : i.calls ⟨some (m.resume call' result), rest.filterMap Frame.call?⟩ =
          ⟨some (lib.resume call result), (rest.filterMap Frame.call?).filterMap i.pick⟩ := by
        simp [calls, hresume, hpick]
      rw [hcalls]
      refine .resumed result ?_
      rw [hwaits]
      simp [calls, hpick]

/-- Code notes an event. -/
theorem Fits.seen_noted (hfits : i.Fits m lib) (hs : i.Laid lib s) {position' : κ} {event' : ε'}
    (hstack : s.stack t = .code position :: rest)
    (hnext : m.next position = .note event' position') :
    i.Seen lib t s ((s.withStack t (.code position' :: rest)).noting t [event']) := by
  have hne : s.stack t ≠ [] := by simp [hstack]
  have hheard : i.heard ((s.withStack t (.code position' :: rest)).noting t [event']).history =
      i.heard s.history ++ i.heard [(t, event')] := by
    rw [State.history_noting, heard_append]
    rfl
  have hcalls : i.calls (callsOf (.code position' :: rest)) = i.calls (callsOf (s.stack t)) := by
    rw [hstack]
    rfl
  cases hhear : i.hear event' with
  | none =>
      refine .inl (scene_eq hne (fun _ => rfl) rfl ?_ hcalls)
      rw [hheard, show i.heard [(t, event')] = [] by simp [heard, hhear], List.append_nil]
  | some event =>
      refine .inr ?_
      have hscene : i.scene ((s.withStack t (.code position' :: rest)).noting t [event']) = _ :=
        scene_withStack hne fun _ => rfl
      rw [hscene, hheard, hcalls, ← scene_calls, Function.update_eq_self,
        show i.heard [(t, event')] = [(t, event)] by simp [heard, hhear]]
      exact .noted (hs.inCode hfits hstack) (hfits.notes _ _ _ event hnext hhear)

/-- Code makes a call. -/
theorem Fits.seen_called (hfits : i.Fits m lib) (hs : i.Laid lib s) {k : Except Fault α' → κ}
    (hstack : s.stack t = .code position :: rest) (hnext : m.next position = .call call' k) :
    i.Seen lib t s (s.withStack t (.call call' :: .wait k :: rest)) := by
  have hne : s.stack t ≠ [] := by simp [hstack]
  have hgoes : callsOf (.call call' :: .wait k :: rest) =
      ⟨some call', rest.filterMap Frame.call?⟩ := rfl
  have hcode : (i.scene s).calls t = i.calls ⟨none, rest.filterMap Frame.call?⟩ := by
    rw [scene_calls, hstack]
    rfl
  cases hpick : i.pick call' with
  | none =>
      refine .inl (scene_eq hne (fun _ => rfl) rfl rfl ?_)
      rw [hgoes, ← scene_calls, hcode]
      simp [calls, hpick]
  | some call =>
      refine .inr ?_
      have hcalls : i.calls ⟨some call', rest.filterMap Frame.call?⟩ =
          ⟨some call, ((i.scene s).calls t).waiting⟩ := by
        rw [hcode]
        simp [calls, hpick]
      rw [scene_withStack hne fun _ => rfl, hgoes, hcalls]
      exact .called (hs.inCode hfits hstack) (hfits.begins _ _ _ call hnext hpick)

/-- The topmost call makes a turn. -/
theorem Fits.seen_turned (hfits : i.Fits m lib) {choice : Choice} {s' : State κ ω σ' γ' α' ε'}
    {shared : σ'} {events : List ε'} {r : Turn κ γ' α'} {rooted : Bool}
    (hnest : Nested rooted (.call call' :: rest)) (hstack : s.stack t = .call call' :: rest)
    (hturn : m.turn t choice s.shared call' = some (shared, events, r)) (hr : r ≠ .abort)
    (hshared : s'.shared = shared) (hhistory : s'.history = s.history ++ events.map (Prod.mk t))
    (hstack' : ∀ u, s'.stack u = (s.withStack t (Machine.afterTurn rest r)).stack u) :
    i.Seen lib t s s' := by
  have hne : s.stack t ≠ [] := by simp [hstack]
  have hcalls : (i.scene s).calls t = i.calls ⟨some call', rest.filterMap Frame.call?⟩ := by
    rw [scene_calls, hstack]
    rfl
  have hgoes := Machine.callsOf_afterTurn hnest hr
  subst hshared
  cases hpick : i.pick call' with
  | none =>
      obtain ⟨hpart, hheard, hnext⟩ := hfits.turn_aside t choice _ _ _ _ _ hpick hturn
      refine .inl (scene_eq hne hstack' hpart ?_ ?_)
      · rw [hhistory, heard_append, heard_of_none hheard, List.append_nil]
      · rw [hgoes, ← scene_calls, hcalls, calls_after_aside hpick hnext]
  | some call =>
      obtain rfl := (hfits.pick_iff _ _).mp hpick
      rw [hfits.turn_wrap] at hturn
      obtain ⟨⟨x, es, r₀⟩, hlib, heq⟩ := Option.map_eq_some_iff.mp hturn
      obtain ⟨hshared, rfl, rfl⟩ : i.put s.shared x = s'.shared ∧ es.map i.tell = events ∧
          r₀.within i.wrap (fun a => .ret (i.answer a)) .fail = r := by
        simpa using heq
      refine .inr ?_
      rw [scene_withStack hne hstack', hgoes, hfits.calls_after, hhistory, heard_append,
        hfits.heard_tell, ← hshared, hfits.part_put]
      refine .turned ?_ hlib
      rw [hcalls]
      simp [calls, hpick]

/-- **One step.** Layers stay as a machine builds them, and a step is a step of the library or is
not seen. -/
theorem Fits.step_scene (hfits : i.Fits m lib) {s' : State κ ω σ' γ' α' ε'} {choice : Choice}
    (hs : i.Laid lib s) (hstep : m.step t choice s = some s') :
    i.Laid lib s' ∧ (s'.aborted = false → i.Seen lib t s s') := by
  obtain ⟨rooted, hnest⟩ := hs.nested t
  have hne : s.stack t ≠ [] := by
    intro hnil
    rw [Machine.step_eq_none fun _ => hnil] at hstep
    cases hstep
  cases (Machine.stepped_of_step hstep).2 with
  | @ended position rest result hstack =>
      rw [hstack] at hnest
      have hnested := hnest.finishCode (m := m) result
      rcases hnest.below_code with rfl | ⟨call', rest', rfl⟩
      · refine ⟨hs.withStack hne ⟨_, hnested⟩ (fun h => ?_) fun _ => rfl,
          fun _ => .inl (scene_eq hne (fun _ => rfl) rfl rfl (by rw [hstack]; rfl))⟩
        rw [hstack] at h
        exact h.tail
      · refine ⟨hs.withStack hne ⟨_, hnested⟩ (fun h => ?_) fun _ => rfl,
          fun _ => hfits.seen_ended result hstack⟩
        rw [hstack] at h
        refine h.tail.replace [.call (m.resume call' result)] fun call hcall => ?_
        have hpick := hfits.resume_eq call' result
        rw [(hfits.pick_iff call' call).mpr hcall, Option.map_some, hfits.pick_iff] at hpick
        exact based_cons.mpr ⟨_, congrArg Frame.call hpick⟩
  | @noted position position' rest event' hstack hnext =>
      rw [hstack] at hnest
      refine ⟨hs.withStack hne ⟨_, hnest.withPosition position'⟩ (fun h => ?_) fun _ => rfl,
        fun _ => hfits.seen_noted hs hstack hnext⟩
      rw [hstack] at h
      exact h.tail.above (h.below_ne_nil rfl) [_]
  | @acted position position' rest world hstack =>
      rw [hstack] at hnest
      refine ⟨hs.withStack hne ⟨_, hnest.withPosition position'⟩ (fun h => ?_) fun _ => rfl,
        fun _ => .inl (scene_eq hne (fun _ => rfl) rfl rfl (by rw [hstack]; rfl))⟩
      rw [hstack] at h
      exact h.tail.above (h.below_ne_nil rfl) [_]
  | @called position rest call' k hstack hnext =>
      rw [hstack] at hnest
      refine ⟨hs.withStack hne ⟨_, .asked call' k hnest⟩ (fun h => ?_) fun _ => rfl,
        fun _ => hfits.seen_called hs hstack hnext⟩
      rw [hstack] at h
      exact h.tail.above (h.below_ne_nil rfl) [_, _]
  | @turned call' rest shared events r aborted hstack hturn haborted =>
      rw [hstack] at hnest
      refine ⟨hs.withStack hne ⟨_, hnest.afterTurn r⟩ (fun h => ?_) fun _ => rfl, fun hlive => ?_⟩
      · rw [hstack] at h
        exact hfits.based_afterTurn hnest h hturn
      · refine hfits.seen_turned hnest hstack hturn (fun habort => ?_) rfl
          (State.history_noting _ t events) fun _ => rfl
        rw [haborted.mpr habort] at hlive
        cases hlive

end Steps

/-- **All runs.** Every reachable state that is not aborted is seen as a reachable scene. -/
theorem Fits.reach_scene (hfits : i.Fits m lib) {s₀ s : State κ ω σ' γ' α' ε'}
    (hs₀ : i.Laid lib s₀) (h : m.Reach s₀ s) :
    i.Laid lib s ∧ (s.aborted = false → Scene.Reach lib (i.scene s₀) (i.scene s)) := by
  induction h with
  | start => exact ⟨hs₀, fun _ => .start⟩
  | step t choice _ hstep ih =>
      obtain ⟨hlaid, hreach⟩ := ih
      obtain ⟨hlaid', hseen⟩ := hfits.step_scene hlaid hstep
      refine ⟨hlaid', fun hlive => ?_⟩
      have hbefore := hreach (Machine.stepped_of_step hstep).1
      rcases hseen hlive with hsame | hscene
      · rwa [hsame]
      · exact hbefore.step t hscene

/-! ### Two libraries in one machine -/

section Apart

variable {τ δ β η : Type} {j : Inset τ δ β η σ' γ' α' ε'}
  {s s' : State κ ω σ' γ' α' ε'} {t : Tid} {choice : Choice} {rest : Stack κ γ' α'} {call : γ}

/-- Whether what is done where library `j` stands is out of the sight of library `i`. -/
structure Apart (i : Inset σ γ α ε σ' γ' α' ε') (j : Inset τ δ β η σ' γ' α' ε') : Prop where
  part_put : ∀ s x, i.part (j.put s x) = i.part s
  pick_wrap : ∀ call, i.pick (j.wrap call) = none
  hear_tell : ∀ event, i.hear (j.tell event) = none

/-- What is noted for library `j` is not heard. -/
theorem Apart.heard (hapart : i.Apart j) {events : List η}
    (h : s'.history = s.history ++ (events.map j.tell).map (Prod.mk t)) :
    (i.scene s').history = (i.scene s).history := by
  have hnone : ∀ event ∈ events.map j.tell, i.hear event = none := by
    intro event hevent
    obtain ⟨event, -, rfl⟩ := List.mem_map.mp hevent
    exact hapart.hear_tell event
  refine (congrArg i.heard h).trans ?_
  rw [heard_append, heard_of_none hnone]
  exact List.append_nil _

/-- A turn of a call of library `j` leaves library `i` alone. -/
theorem Apart.aside (hapart : i.Apart j) (other : Library κ τ δ β ρ η) (call : δ) {s s' : σ'}
    {events : List ε'} {r : Turn κ γ' α'}
    (h : (other.turn t choice (j.part s) call).map (fun r =>
      (j.put s r.1, r.2.1.map j.tell, r.2.2.within j.wrap (fun a => .ret (j.answer a)) .fail)) =
        some (s', events, r)) :
    i.part s' = i.part s ∧ (∀ event ∈ events, i.hear event = none) ∧
      ∀ call', r.next? = some call' → i.pick call' = none := by
  obtain ⟨⟨x, events₀, r₀⟩, -, heq⟩ := Option.map_eq_some_iff.mp h
  cases heq
  refine ⟨hapart.part_put s x, fun event hevent => ?_, fun call' hnext => ?_⟩
  · obtain ⟨event₀, -, rfl⟩ := List.mem_map.mp hevent
    exact hapart.hear_tell event₀
  · rw [Turn.next?_within] at hnext
    obtain ⟨call₀, -, rfl⟩ := Option.map_eq_some_iff.mp hnext
    exact hapart.pick_wrap call₀

/-- A turn of a call of the library is a turn of the library's own. -/
theorem Fits.turn_of_wrap (hfits : i.Fits m lib) {s s' : σ'} {events' : List ε'}
    {r' : Turn κ γ' α'} (h : m.turn t choice s (i.wrap call) = some (s', events', r')) :
    ∃ x events r, lib.turn t choice (i.part s) call = some (x, events, r) ∧ s' = i.put s x ∧
      events' = events.map i.tell ∧
      r' = r.within i.wrap (fun a => .ret (i.answer a)) .fail := by
  rw [hfits.turn_wrap] at h
  obtain ⟨⟨x, events, r⟩, hturn, heq⟩ := Option.map_eq_some_iff.mp h
  cases heq
  exact ⟨x, events, r, hturn, rfl, rfl, rfl⟩

/-- A step of a thread that makes a call of the library. -/
theorem Fits.turn_of_step (hfits : i.Fits m lib)
    (hstack : s.stack t = .call (i.wrap call) :: rest) (h : m.step t choice s = some s') :
    ∃ x events r, lib.turn t choice (i.part s.shared) call = some (x, events, r) ∧
      s'.shared = i.put s.shared x ∧
      s'.history = s.history ++ (events.map i.tell).map (Prod.mk t) ∧
      (i.scene s').history = (i.scene s).history ++ events.map (Prod.mk t) ∧
      s'.stack t =
        Machine.afterTurn rest (r.within i.wrap (fun a => .ret (i.answer a)) .fail) ∧
      (r ≠ .abort → s'.aborted = false) := by
  obtain ⟨shared, events', r', hturn, hshared, hhistory, hstack'⟩ :=
    Machine.turn_of_step hstack h
  obtain ⟨x, events, r, hlib, rfl, rfl, rfl⟩ := hfits.turn_of_wrap hturn
  refine ⟨x, events, r, hlib, hshared, hhistory, ?_, hstack', fun hr => ?_⟩
  · refine (congrArg i.heard hhistory).trans ?_
    rw [heard_append, hfits.heard_tell]
    rfl
  · refine Machine.live_of_turn hstack h fun shared' events' habort => ?_
    obtain ⟨_, _, r', hlib', -, -, habort⟩ := hfits.turn_of_wrap habort
    rw [hlib] at hlib'
    cases hlib'
    cases r <;> first | exact hr rfl | cases habort

end Apart

end Inset

end Offload
