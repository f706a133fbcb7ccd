import Offload.Decimal

/-!
# Values of a TOML document

A document is a table, and a table maps keys to values, each key once. How a table came
about decides what may still be added to it, so each table carries its **origin**; likewise
an array that grows by headers is told from one that was written out.
-/

namespace Offload.Toml

/-- How a table came about. -/
inductive Origin where
  /-- It is the document, or a header names it. -/
  | named
  /-- It stands on the way to a table that a header names. -/
  | passed
  /-- It stands on the way to a value with a dotted key. -/
  | dotted
  /-- It was written out between braces, and nothing may be added. -/
  | inline
  deriving DecidableEq, Repr

/-- A number with a point or an exponent, or one of the words for what is no number. -/
inductive Real where
  | finite (d : Decimal)
  | infinite (negative : Bool)
  | notANumber
  deriving DecidableEq, Repr

mutual

/-- A value of a document. -/
inductive Value where
  | boolean (b : Bool)
  /-- An integer, if its digits make a number. -/
  | integer (n : Option Int)
  | real (r : Real)
  | text (s : String)
  /-- A date, a time or both, as written. -/
  | moment (written : String)
  /-- An array; `growing` says whether headers made it. -/
  | array (growing : Bool) (items : List Value)
  | table (t : Table)

/-- Keys and their values, in the order in which they came. -/
inductive Table where
  | mk (origin : Origin) (entries : List (String × Value))

end

namespace Table

/-- How a table came about. -/
def origin : Table → Origin
  | .mk origin _ => origin

/-- The keys of a table with their values. -/
def entries : Table → List (String × Value)
  | .mk _ entries => entries

/-- A table without keys. -/
def empty (origin : Origin) : Table :=
  .mk origin []

/-- The same keys with another origin. -/
def become (origin : Origin) (t : Table) : Table :=
  .mk origin t.entries

/-- The value of a key. -/
def find? (t : Table) (key : String) : Option Value :=
  t.entries.lookup key

/-- The table in which a key has a value, at its old place or else at the end. -/
def put (t : Table) (key : String) (v : Value) : Table :=
  .mk t.origin <|
    if (t.find? key).isSome then
      t.entries.map fun (k, w) => if k = key then (k, v) else (k, w)
    else t.entries ++ [(key, v)]

/-- The entries in the order of their keys. -/
def sorted (t : Table) : List (String × Value) :=
  t.entries.mergeSort fun a b => a.1 ≤ b.1

end Table

end Offload.Toml
