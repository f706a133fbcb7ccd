import Offload.Machine

/-!
# Scripts

A **script** is finite code given as a tree: it notes events, changes the outside world,
makes requests of a library and branches on the answers. Scripts compose as a monad, and a
fault ends a script unless the request that met it was an **attempt**.

`Script.next` turns scripts into code of the interleaving machine, given the call that each
request stands for.
-/

namespace Offload

variable {δ α ω ε ρ τ κ γ : Type}

/-- Finite code that makes requests `δ`, receives answers `α`, changes a world `ω`, notes
events `ε` and ends with a result `ρ`. -/
inductive Script (δ α ω ε ρ : Type) where
  | ret (result : ρ)
  | fail (fault : Fault)
  | note (event : ε) (rest : Script δ α ω ε ρ)
  /-- Changes the world in one step, or waits for as long as the change gives nothing. -/
  | change (f : ω → Option ω) (rest : ω → Script δ α ω ε ρ)
  | request (d : δ) (rest : Except Fault α → Script δ α ω ε ρ)
  /-- Learns which thread performs the script. -/
  | self (rest : Tid → Script δ α ω ε ρ)

namespace Script

/-- The script that goes on with `g` where `s` ends with a result. -/
def bind (s : Script δ α ω ε ρ) (g : ρ → Script δ α ω ε τ) : Script δ α ω ε τ :=
  match s with
  | .ret result => g result
  | .fail fault => .fail fault
  | .note event rest => .note event (rest.bind g)
  | .change f rest => .change f fun w => (rest w).bind g
  | .request d rest => .request d fun a => (rest a).bind g
  | .self rest => .self fun t => (rest t).bind g

instance : Monad (Script δ α ω ε) where
  pure := ret
  bind := bind

/-- Notes one event. -/
def emit (event : ε) : Script δ α ω ε Unit :=
  .note event (.ret ())

/-- Changes the world at once and gives what it has become. -/
def update (f : ω → ω) : Script δ α ω ε ω :=
  .change (fun w => some (f w)) .ret

/-- Waits until the world satisfies `p`. -/
def waitFor (p : ω → Bool) : Script δ α ω ε Unit :=
  .change (fun w => if p w then some w else none) fun _ => .ret ()

/-- Makes a request; a fault that comes back ends the script. -/
def ask (d : δ) : Script δ α ω ε α :=
  .request d fun
    | .ok a => .ret a
    | .error fault => .fail fault

/-- Makes a request and gives the fault that may come back as a value. -/
def attempt (d : δ) : Script δ α ω ε (Except Fault α) :=
  .request d .ret

/-- Performs a list of scripts one after the other. -/
def all : List (Script δ α ω ε Unit) → Script δ α ω ε Unit
  | [] => .ret ()
  | s :: rest => s.bind fun _ => all rest

/-- The next move of a script, when each request stands for a call. -/
def next (call : δ → γ) : Script δ α ω ε ρ → Move (Script δ α ω ε ρ) ω γ α ρ ε
  | .ret result => .ret result
  | .fail fault => .fail fault
  | .note event rest => .note event rest
  | .change f rest => .act fun _ _ w => (f w).map fun w' => (w', rest w')
  | .request d rest => .call (call d) rest
  | .self rest => .act fun t _ w => some (w, rest t)

end Script

end Offload
