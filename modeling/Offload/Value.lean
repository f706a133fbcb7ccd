import Offload.Monitor
import Offload.Text.Outline
import Offload.Text.Quoted

/-!
# Values

The values that scripted sessions keep in monitors and queues and that jobs hand over:
64-bit integers, texts, and lists of integers. An **edit** is a critical section on a value,
and a **check** a predicate. An edit that does not fit the value does nothing.
-/

namespace Offload

/-- A value of a scripted session. -/
inductive Value where
  | int (n : Int64)
  | text (s : String)
  | list (ns : List Int64)
  deriving DecidableEq, Repr

namespace Value

/-- The value that a container holds when none is given. -/
def default : Value := .int 0

instance : Inhabited Value := ⟨default⟩

/-- How a value is shown. -/
def outline : Value → Text.Outline
  | .int n => .atom (toString n.toInt)
  | .text s => .atom (Text.quoted s)
  | .list ns => .items (ns.map fun n => .atom (toString n.toInt))

/-- The bytes of a text or the items of a list; an integer has no length. -/
def length? : Value → Option Nat
  | .int _ => none
  | .text s => some s.utf8ByteSize
  | .list ns => some ns.length

end Value

/-- What an edit answers. -/
inductive Reply where
  | nothing
  | value (v : Value)
  | size (n : Nat)
  deriving DecidableEq, Repr

/-- What a scripted critical section does to a value. -/
inductive Edit where
  | get
  | length
  | fail (message : String)
  /-- Replaces the value. -/
  | assign (v : Value)
  /-- Replaces the value and answers with the old one. -/
  | replace (v : Value)
  /-- Adds to an integer, modulo 2⁶⁴, and answers with the sum. -/
  | add (n : Int64)
  /-- Appends to a text and answers with the whole. -/
  | append (s : String)
  /-- Appends to a list and answers with its length. -/
  | push (n : Int64)
  /-- Removes the last item of a list and answers with it. -/
  | pop
  /-- Replaces the value and then fails. -/
  | replaceFail (v : Value) (message : String)
  /-- Does nothing. -/
  | none
  deriving DecidableEq, Repr

namespace Edit

/-- The critical section of an edit. -/
def run : Edit → Critical Value Reply
  | .get, v => (v, .ok (.value v))
  | .length, v => (v, .ok (v.length?.elim .nothing .size))
  | .fail message, v => (v, .error (.text message))
  | .assign new, _ => (new, .ok .nothing)
  | .replace new, v => (new, .ok (.value v))
  | .add n, .int k => (.int (k + n), .ok (.value (.int (k + n))))
  | .append t, .text s => (.text (s ++ t), .ok (.value (.text (s ++ t))))
  | .push n, .list ns => (.list (ns ++ [n]), .ok (.size (ns.length + 1)))
  | .pop, .list ns =>
    (.list ns.dropLast, .ok (ns.getLast?.elim .nothing fun n => .value (.int n)))
  | .replaceFail new message, _ => (new, .error (.text message))
  | _, v => (v, .ok .nothing)

/-- The edit as it acts where only reading is allowed. -/
def readOnly : Edit → Edit
  | .get => .get
  | .length => .length
  | .fail message => .fail message
  | _ => .none

end Edit

/-- A predicate on a value. -/
inductive Check where
  | always (b : Bool)
  | eq (v : Value)
  | ne (v : Value)
  /-- The value is an integer that is at least `n`. -/
  | atLeast (n : Int64)
  /-- The value has a length, and it is at least `n`. -/
  | lengthAtLeast (n : Int)
  | fail (message : String)
  deriving DecidableEq, Repr

/-- Whether a value passes the check. -/
def Check.run : Check → Value → Except Fault Bool
  | .always b, _ => .ok b
  | .eq w, v => .ok (v == w)
  | .ne w, v => .ok (v != w)
  | .atLeast n, .int k => .ok (n ≤ k)
  | .atLeast _, _ => .ok false
  | .lengthAtLeast n, v => .ok (v.length?.any fun k => n ≤ (k : Int))
  | .fail message, _ => .error (.text message)

end Offload
