import Offload.Pipeline

/-!
# Delivery

Results are delivered by whoever asks for them, on the thread that asks. A **drain**
delivers up to a number of results that are there already, and tells whether any are left.
An **await** delivers one result and waits for it, for ever or for a limited time. Either
takes a result out of the finished channel, calls the callback that fits it, outside every
lock, and passes on the fault of a callback.

## Main definitions

* `Pipeline.Drain`, `Pipeline.Await`: the two ways to ask, and how far they have come.
* `Pipeline.Drain.turn`, `Pipeline.Await.turn`: one atomic step of each.
-/

namespace Offload.Pipeline

variable {κ V E ν : Type}

/-- Delivers a finished task: the call goes on as `after`, once the callback has ended if
there is one. -/
def deliver {γ τ : Type} (s : Pipeline κ V E) (f : Finished κ V E) (after : γ) :
    Pipeline κ V E × List (Event V E ν) × Turn κ γ τ :=
  (s, [deliveryEvent f],
    match f.callback? with
    | none => .stay after
    | some code => .run code after)

/-! ### Drains -/

/-- How far a drain has come. -/
inductive Drain (κ V E : Type) where
  /-- Up to `left` more results are to be delivered. -/
  | going (left : Nat)
  /-- A result is being taken out, after which up to `left` more may follow. -/
  | popping (left : Nat) (pop : Channel.Pop (Finished κ V E))
  | delivering (left : Nat) (result : Finished κ V E)
  /-- It is being looked at whether any results are left. -/
  | checking (phase : Phase Nat)
  /-- A callback has failed. -/
  | failing (fault : Fault)

/-- One atomic step of a drain by thread `t`. -/
def Drain.turn (t : Tid) (choice : Choice) (s : Pipeline κ V E) :
    Drain κ V E →
      Option (Pipeline κ V E × List (Event V E ν) × Turn κ (Drain κ V E) Bool)
  | .going 0 => some (s, [], .stay (.checking .arriving))
  | .going (left + 1) => some (s, [], .stay (.popping left (.start .never)))
  | .popping left p =>
    (p.turn t choice s.finished).map
      (s.onFinished (.popping left)
        (fun
          | some result => .stay (.delivering left result)
          | none => .stay (.checking .arriving))
        .fail)
  | .delivering left result => some (s.deliver result (.going left))
  | .checking phase =>
    (Channel.sizeTurn t choice s.finished phase).map fun (finished, turn) =>
      s.onFinished .checking (fun n => .ret (n != 0)) .fail (finished, [], turn)
  | .failing fault => some (s, [], .fail fault)

/-- A drain goes on when a callback has ended. -/
def Drain.resume {ρ : Type} : Except Fault ρ → Drain κ V E → Drain κ V E
  | .error fault, _ => .failing fault
  | .ok _, drain => drain

/-! ### Awaits -/

/-- How far an await has come. -/
inductive Await (κ V E : Type) where
  | popping (pop : Channel.Pop (Finished κ V E))
  | delivering (result : Finished κ V E)
  /-- The result has been delivered, perhaps with a fault. -/
  | ending (outcome : Except Fault Unit)

/-- An await at its beginning. -/
def Await.start (wait : Channel.Wait) : Await κ V E :=
  .popping (.start wait)

/-- One atomic step of an await by thread `t`. -/
def Await.turn (t : Tid) (choice : Choice) (s : Pipeline κ V E) :
    Await κ V E →
      Option (Pipeline κ V E × List (Event V E ν) × Turn κ (Await κ V E) Bool)
  | .popping p =>
    (p.turn t choice s.finished).map
      (s.onFinished .popping
        (fun
          | some result => .stay (.delivering result)
          | none => .ret false)
        .fail)
  | .delivering result => some (s.deliver result (.ending (.ok ())))
  | .ending (.ok ()) => some (s, [], .ret true)
  | .ending (.error fault) => some (s, [], .fail fault)

/-- An await goes on when the callback has ended. -/
def Await.resume {ρ : Type} : Except Fault ρ → Await κ V E → Await κ V E
  | .error fault, _ => .ending (.error fault)
  | .ok _, await => await

end Offload.Pipeline
