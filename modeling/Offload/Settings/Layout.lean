import Offload.Settings
import Offload.Toml.Document

/-!
# Settings in a TOML document

The settings stand in a document's table `runner`: a text `thread_name` and an unsigned
integer `max_updates` of 64 bits, either of which may be missing. Other keys are ignored. In
place of the table an array may give the two by position, and a date or time counts as a
table without known keys.

The keys of a table are looked at in their order, and the first mismatch is reported. Even a
value that is ignored must not be a number out of all bounds.

Which text describes which table is left to a reader, which is a parameter.

## Main definitions

* `Settings.Mismatch`, `Settings.LayoutFault`: how a document fails to give settings.
* `Settings.ofTable`, `Settings.ofText`: the settings in a table and in a document.
-/

namespace Offload.Settings

open Toml (Table Value)

/-- What was found where something else was expected. -/
inductive Seen where
  | boolean (b : Bool)
  | integer (n : Int)
  | real (r : Toml.Real)
  | text (s : String)
  | sequence
  | map
  deriving DecidableEq

/-- What may be expected. -/
inductive Expected where
  | text
  | size
  | settings
  deriving DecidableEq, Repr

/-- How a value fails to fit. -/
inductive Mismatch where
  | type (seen : Seen) (expected : Expected)
  /-- An integer below zero where a size is expected. -/
  | negative (n : Int)
  /-- An integer out of all bounds, or digits that make none. -/
  | integerOverflow
  | realOverflow
  deriving DecidableEq

/-- The least integer of 64 bits. -/
def minInt64 : Int := -9223372036854775808

/-- The largest unsigned integer of 64 bits. -/
def maxUInt64 : Int := 18446744073709551615

/-- The least integer of 128 bits. -/
def minInt128 : Int := -170141183460469231731687303715884105728

/-- The largest integer of 128 bits. -/
def maxInt128 : Int := 170141183460469231731687303715884105727

/-- The largest unsigned integer of 128 bits. -/
def maxUInt128 : Int := 340282366920938463463374607431768211455

/-- A number with a point as text. -/
def realText : Toml.Real → String
  | .finite d => (Decimal.ofFloat d.toFloat).positional
  | .infinite negative => if negative then "-inf" else "inf"
  | .notANumber => "NaN"

/-- How what was found is described. -/
def Seen.describe : Seen → String
  | .boolean b => "boolean `" ++ (if b then "true" else "false") ++ "`"
  | .integer n =>
    "integer `" ++ toString n ++ "`" ++
      if minInt64 ≤ n ∧ n ≤ maxUInt64 then ""
      else if minInt128 ≤ n ∧ n ≤ maxInt128 then " as i128"
      else " as u128"
  | .real r => "floating point `" ++ realText r ++ "`"
  | .text s => "string " ++ Text.quoted s
  | .sequence => "sequence"
  | .map => "map"

/-- How what was expected is described. -/
def Expected.describe : Expected → String
  | .text => "a string"
  | .size => "usize"
  | .settings => "struct RunnerConfig"

/-- The text of a mismatch. -/
def Mismatch.message : Mismatch → String
  | .type seen expected => "invalid type: " ++ seen.describe ++ ", expected " ++ expected.describe
  | .negative n =>
    "invalid value: " ++ (Seen.integer n).describe ++ ", expected " ++ Expected.size.describe
  | .integerOverflow => "integer number overflowed"
  | .realOverflow => "floating-point number overflowed"

/-- How a text fails to give settings. -/
inductive LayoutFault where
  /-- It is not a TOML document. -/
  | syntactic
  | mismatch (m : Mismatch)
  deriving DecidableEq

/-- The text of a fault. -/
def LayoutFault.message : LayoutFault → String
  | .syntactic => "TOML parse error: not a document"
  | .mismatch m => "TOML parse error: " ++ m.message

/-! ### Values -/

/-- What a value shows of itself, unless it is a number out of all bounds. -/
def seen : Value → Except Mismatch Seen
  | .boolean b => .ok (.boolean b)
  | .integer (some n) =>
    if minInt128 ≤ n ∧ n ≤ maxUInt128 then .ok (.integer n) else .error .integerOverflow
  | .integer none => .error .integerOverflow
  | .real (.finite d) =>
    if d.toFloat.isInf then .error .realOverflow else .ok (.real (.finite d))
  | .real r => .ok (.real r)
  | .text s => .ok (.text s)
  | .moment _ => .ok .map
  | .array _ _ => .ok .sequence
  | .table _ => .ok .map

/-- The first mismatch in the order of the keys. -/
def firstMismatch (checks : List (String × Option Mismatch)) : Option Mismatch :=
  (checks.mergeSort fun a b => a.1 ≤ b.1).findSome? Prod.snd

mutual

/-- The first number out of all bounds within a value. -/
def overflow? : Value → Option Mismatch
  | .array _ items => overflowOfItems? items
  | .table (.mk _ entries) => firstMismatch (overflowsOfEntries entries)
  | v =>
    match seen v with
    | .ok _ => none
    | .error m => some m

/-- The first number out of all bounds within items. -/
def overflowOfItems? : List Value → Option Mismatch
  | [] => none
  | v :: rest => (overflow? v).or (overflowOfItems? rest)

/-- The first number out of all bounds within the value of each key. -/
def overflowsOfEntries : List (String × Value) → List (String × Option Mismatch)
  | [] => []
  | (key, v) :: rest => (key, overflow? v) :: overflowsOfEntries rest

end

/-- The check that an ignored value goes through. -/
def ignored (v : Value) : Except Mismatch Unit :=
  match overflow? v with
  | none => .ok ()
  | some m => .error m

/-- A text. -/
def asText (v : Value) : Except Mismatch String := do
  match ← seen v with
  | .text s => .ok s
  | other => .error (.type other .text)

/-- An unsigned integer of 64 bits. -/
def asSize (v : Value) : Except Mismatch UInt64 := do
  match ← seen v with
  | .integer n =>
    if 0 ≤ n ∧ n ≤ maxUInt64 then .ok (UInt64.ofNat n.toNat)
    else if minInt64 ≤ n ∧ n < 0 then .error (.negative n)
    else .error (.type (.integer n) .size)
  | other => .error (.type other .size)

/-! ### Settings -/

/-- The settings with one entry of their table taken in. -/
def withEntry (s : Settings) : String × Value → Except Mismatch Settings
  | ("thread_name", v) => do .ok { s with threadName := ← asText v }
  | ("max_updates", v) => do .ok { s with maxUpdates := ← asSize v }
  | (_, v) => do
    ignored v
    .ok s

/-- The settings that a value gives. -/
def ofValue : Value → Except Mismatch Settings
  | .table t => t.sorted.foldlM withEntry default
  | .array _ [] => .ok default
  | .array _ [name] => do .ok { default with threadName := ← asText name }
  | .array _ (name :: size :: _) => do
    .ok { threadName := ← asText name, maxUpdates := ← asSize size }
  | .moment _ => .ok default
  | v => do .error (.type (← seen v) .settings)

/-- The settings with one entry of the document taken in. -/
def withSection (s : Settings) : String × Value → Except Mismatch Settings
  | ("runner", v) => ofValue v
  | (_, v) => do
    ignored v
    .ok s

/-- The settings in the table of a document. -/
def ofTable (t : Table) : Except Mismatch Settings :=
  t.sorted.foldlM withSection default

/-- The settings in the text of a document. -/
def ofText (text : String) (read : Toml.DocumentReader := Toml.read) : Except LayoutFault Settings :=
  match read text with
  | none => .error .syntactic
  | some t =>
    match ofTable t with
    | .ok s => .ok s
    | .error m => .error (.mismatch m)

end Offload.Settings
