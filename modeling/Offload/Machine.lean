import Offload.Thread

/-!
# The interleaving machine

Threads run **code** that calls a library. The library owns a shared state and is given by
its **calls**: each call is a small automaton whose steps are atomic. Code is any type of
positions together with the next move of each position, so a program may branch on every
answer it gets and may run forever.

One step of the machine lets one thread make one atomic step under one choice of the
scheduler. A state is **reachable** when some sequence of such steps leads to it, so a
statement about reachable states is a statement about every interleaving.

## Main definitions

* `Move`: what a position of the code does next.
* `Turn`: what one step of a library call leads to; a call may run code and go on after it.
* `Machine`: the moves of the code and the steps of the calls.
* `Machine.step`: one atomic step of one thread.
* `Machine.Reach`: the states that some interleaving reaches.
* `Machine.settle`: the schedule that always steps the first thread of a list that can go on.
-/

namespace Offload

variable {κ ω σ δ γ α ρ ν ε : Type}

/-- What code at one position does next. Code `κ` acts on an outside world `ω`, makes calls
`γ` that answer with `α`, ends with a result `ρ` and notes events `ε`. -/
inductive Move (κ ω γ α ρ ε : Type) where
  /-- The code ends with a result. -/
  | ret (result : ρ)
  /-- The code ends in a fault. -/
  | fail (fault : Fault)
  /-- The code notes an event and goes on. -/
  | note (event : ε) (rest : κ)
  /-- The code acts on the outside world in one step, or has to wait when the act gives nothing. -/
  | act (f : Tid → Choice → ω → Option (ω × κ))
  /-- The code calls the library and goes on with the answer, or with the fault that came back. -/
  | call (call : γ) (rest : Except Fault α → κ)

/-- The same move where a request stands for a call, and a note for an event of the log. -/
def Move.map (ask : δ → γ) (tell : ν → ε) : Move κ ω δ α ρ ν → Move κ ω γ α ρ ε
  | .ret result => .ret result
  | .fail fault => .fail fault
  | .note event rest => .note (tell event) rest
  | .act f => .act f
  | .call request rest => .call (ask request) rest

/-- What one step of a library call leads to. -/
inductive Turn (κ γ α : Type) where
  /-- The call goes on. -/
  | stay (call : γ)
  /-- The call runs code, and goes on as `call` when the code has ended. -/
  | run (code : κ) (call : γ)
  /-- The call answers. -/
  | ret (answer : α)
  /-- The call passes a fault on to its caller. -/
  | fail (fault : Fault)
  /-- A second fault struck while a first one was being cleaned up: everything stops. -/
  | abort

/-- The turn of a call that is part of a larger one: `wrap` makes the larger call, and the
answer or fault of the part decides what the larger call does next. -/
def Turn.within {γ' α' : Type} (wrap : γ → γ') (answered : α → Turn κ γ' α')
    (failed : Fault → Turn κ γ' α') : Turn κ γ α → Turn κ γ' α'
  | .stay call => .stay (wrap call)
  | .run code call => .run code (wrap call)
  | .ret answer => answered answer
  | .fail fault => failed fault
  | .abort => .abort

/-- One layer of what a thread is doing. -/
inductive Frame (κ γ α : Type) where
  /-- Code at a position. -/
  | code (position : κ)
  /-- A library call in progress. -/
  | call (call : γ)
  /-- Code that waits for the answer of the call above it. -/
  | wait (rest : Except Fault α → κ)

/-- The layers of one thread, innermost first; a thread that has ended has none. -/
abbrev Stack (κ γ α : Type) := List (Frame κ γ α)

/-- A machine: the moves of its code, the steps of its library calls, and how a call takes
the end of the code that it ran. -/
structure Machine (κ ω σ γ α ρ ε : Type) where
  next : κ → Move κ ω γ α ρ ε
  turn : Tid → Choice → σ → γ → Option (σ × List ε × Turn κ γ α)
  resume : γ → Except Fault ρ → γ

/-- A state of the machine: the library's shared state, the outside world, the threads, and
the **log** of everything that was noted, newest first. -/
structure State (κ ω σ γ α ε : Type) where
  shared : σ
  world : ω
  threads : List (Stack κ γ α)
  log : List (Tid × ε) := []
  aborted : Bool := false

namespace State

/-- What thread `t` is doing. -/
def stack (s : State κ ω σ γ α ε) (t : Tid) : Stack κ γ α :=
  s.threads[t]?.getD []

/-- Thread `t` goes on with the given layers. -/
def withStack (s : State κ ω σ γ α ε) (t : Tid) (frames : Stack κ γ α) : State κ ω σ γ α ε :=
  { s with threads := s.threads.set t frames }

/-- A new thread begins with the given layers. -/
def spawn (s : State κ ω σ γ α ε) (frames : Stack κ γ α) : State κ ω σ γ α ε :=
  { s with threads := s.threads ++ [frames] }

/-- Thread `t` notes events, the first of them first. -/
def noting (s : State κ ω σ γ α ε) (t : Tid) (events : List ε) : State κ ω σ γ α ε :=
  { s with log := events.foldl (fun log e => (t, e) :: log) s.log }

/-- The events of the log in the order in which they happened. -/
def history (s : State κ ω σ γ α ε) : List (Tid × ε) :=
  s.log.reverse

end State

namespace Machine

/-- The layers that remain when the topmost code has ended: the call that ran it goes on. -/
def finishCode (m : Machine κ ω σ γ α ρ ε) (result : Except Fault ρ) :
    Stack κ γ α → Stack κ γ α
  | .call call :: rest => .call (m.resume call result) :: rest
  | rest => rest

/-- The layers that remain when the topmost call has answered: the code that made it goes on. -/
def finishCall (answer : Except Fault α) : Stack κ γ α → Stack κ γ α
  | .wait k :: rest => .code (k answer) :: rest
  | rest => rest

/-- The layers after one turn of the topmost call; an abort leaves nothing. -/
def afterTurn (rest : Stack κ γ α) : Turn κ γ α → Stack κ γ α
  | .stay call => .call call :: rest
  | .run code call => .code code :: .call call :: rest
  | .ret answer => finishCall (.ok answer) rest
  | .fail fault => finishCall (.error fault) rest
  | .abort => []

/-- One atomic step of thread `t` under the scheduler's choice, if the thread can make one. -/
def stepThread (m : Machine κ ω σ γ α ρ ε) (t : Tid) (choice : Choice)
    (s : State κ ω σ γ α ε) : Option (State κ ω σ γ α ε) :=
  match s.stack t with
  | [] => none
  | .wait _ :: _ => none
  | .code position :: rest =>
    match m.next position with
    | .ret result => some (s.withStack t (m.finishCode (.ok result) rest))
    | .fail fault => some (s.withStack t (m.finishCode (.error fault) rest))
    | .note event rest' => some ((s.withStack t (.code rest' :: rest)).noting t [event])
    | .act f =>
      (f t choice s.world).map fun (world, rest') =>
        { s.withStack t (.code rest' :: rest) with world := world }
    | .call call k => some (s.withStack t (.call call :: .wait k :: rest))
  | .call call :: rest =>
    (m.turn t choice s.shared call).map fun (shared, events, turn) =>
      let s' := (s.withStack t (afterTurn rest turn)).noting t events
      { s' with
        shared := shared
        aborted := match turn with
          | .abort => true
          | _ => s.aborted }

/-- One step of the machine. After an abort no thread moves any more. -/
def step (m : Machine κ ω σ γ α ρ ε) (t : Tid) (choice : Choice)
    (s : State κ ω σ γ α ε) : Option (State κ ω σ γ α ε) :=
  if s.aborted then none else m.stepThread t choice s

/-- The states that some interleaving reaches from `s₀`. -/
inductive Reach (m : Machine κ ω σ γ α ρ ε) (s₀ : State κ ω σ γ α ε) :
    State κ ω σ γ α ε → Prop where
  | start : Reach m s₀ s₀
  | step {s s' : State κ ω σ γ α ε} (t : Tid) (choice : Choice) :
      Reach m s₀ s → m.step t choice s = some s' → Reach m s₀ s'

/-! ### Schedules -/

/-- The first entry of a list whose thread can step under its choice, and the state after
that step. -/
def firstStep (m : Machine κ ω σ γ α ρ ε) (s : State κ ω σ γ α ε) :
    List (Tid × Choice) → Option (State κ ω σ γ α ε)
  | [] => none
  | (t, choice) :: order => (m.step t choice s).or (m.firstStep s order)

/-- Runs the machine, each step by the first entry of `order` that can step, until none of
them can; `fuel` bounds the number of steps. -/
def settle (m : Machine κ ω σ γ α ρ ε) (order : List (Tid × Choice)) :
    Nat → State κ ω σ γ α ε → State κ ω σ γ α ε
  | 0, s => s
  | fuel + 1, s =>
    match m.firstStep s order with
    | none => s
    | some s' => m.settle order fuel s'

/-- The number of steps after which a schedule gives up. -/
def patience : Nat := 1000000000000

/-- Threads with the given layers run, each step by the first of them that can go on, until
none of them can. -/
def runAll (m : Machine κ ω σ γ α ρ ε) (shared : σ) (world : ω) (threads : List (Stack κ γ α)) :
    State κ ω σ γ α ε :=
  m.settle ((List.range threads.length).map fun t => (t, .go 0)) patience
    { shared := shared, world := world, threads := threads }

/-- A step of the first entry that can step is a step of the machine. -/
theorem reach_of_firstStep {m : Machine κ ω σ γ α ρ ε} {s₀ s s' : State κ ω σ γ α ε}
    {order : List (Tid × Choice)} (hs : m.Reach s₀ s) (h : m.firstStep s order = some s') :
    m.Reach s₀ s' := by
  induction order with
  | nil => simp [firstStep] at h
  | cons entry order ih =>
    obtain ⟨t, choice⟩ := entry
    cases ht : m.step t choice s with
    | none => exact ih (by simpa [firstStep, ht] using h)
    | some s₁ =>
      obtain rfl : s₁ = s' := by simpa [firstStep, ht] using h
      exact .step t choice hs ht

/-- A settled state is reachable: settling is one of the interleavings. -/
theorem reach_settle {m : Machine κ ω σ γ α ρ ε} {s₀ s : State κ ω σ γ α ε}
    (order : List (Tid × Choice)) (fuel : Nat) (hs : m.Reach s₀ s) :
    m.Reach s₀ (m.settle order fuel s) := by
  induction fuel generalizing s with
  | zero => exact hs
  | succ fuel ih =>
    rw [settle]
    split
    · exact hs
    · next s' h => exact ih (reach_of_firstStep hs h)

end Machine

end Offload
