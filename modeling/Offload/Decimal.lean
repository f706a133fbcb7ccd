/-!
# Decimal numbers

A **decimal** is an integer times a power of ten, with a sign of its own so that zero may be
negative. It is read as the nearest floating-point number of 64 bits. Such a number is
written with the fewest digits that still lie nearer to it than to any other, in positional
notation.

## Main definitions

* `Decimal.toFloat`: the nearest floating-point number.
* `Decimal.shortest`: the decimal with the fewest digits that reads back as m · 2^q.
* `Decimal.ofFloat`, `Decimal.positional`: the text of a floating-point number.
-/

namespace Offload

/-- The number `coefficient` · 10 ^ `exponent`, with a sign. -/
structure Decimal where
  negative : Bool
  coefficient : Nat
  exponent : Int
  deriving DecidableEq, Repr

namespace Decimal

/-- The digits of a number. -/
def digits (n : Nat) : List Char :=
  Nat.toDigits 10 n

/-- The magnitude of the nearest floating-point number. No finite number but zero has its
first digit beyond the four hundredth place on either side of the point. -/
def magnitude (d : Decimal) : Float :=
  let lead := d.exponent + ((digits d.coefficient).length : Int)
  if d.coefficient = 0 ∨ lead < -400 then 0
  else if 400 < lead then 1 / 0
  else Float.ofScientific d.coefficient (d.exponent < 0) d.exponent.natAbs

/-- The nearest floating-point number. -/
def toFloat (d : Decimal) : Float :=
  if d.negative then -d.magnitude else d.magnitude

/-- The lower bound of what reads back as `m` · 2^`q`, that number itself, and the upper
bound, counted in units of 2^(`q` - 2). Next to a power of two the numbers below lie at half
the distance of those above. -/
def interval (m : Nat) (finerBelow : Bool) : Nat × Nat × Nat :=
  (4 * m - (if finerBelow then 1 else 2), 4 * m, 4 * m + 2)

/-- The multiple of 10^`k` nearest to `m` · 2^`q` among those that read back as it, as the
factor of 10^`k`; of two equally near the greater. The bounds of the interval read back when
`m` is even. -/
def onGrid? (m : Nat) (q : Int) (finerBelow : Bool) (k : Int) : Option Nat :=
  let (low, value, high) := interval m finerBelow
  let two := q - 2
  let scale := Nat.pow 2 two.toNat * Nat.pow 10 (-k).toNat
  let unit := Nat.pow 10 k.toNat * Nat.pow 2 (-two).toNat
  let inside c :=
    if m % 2 = 0 then low * scale ≤ c * unit ∧ c * unit ≤ high * scale
    else low * scale < c * unit ∧ c * unit < high * scale
  let below := value * scale / unit
  let above := below + 1
  let belowIsNearer := value * scale - below * unit < above * unit - value * scale
  if inside below ∧ 0 < below ∧ (belowIsNearer ∨ ¬ inside above) then some below
  else if inside above then some above
  else none

/-- The decimal with the fewest digits that reads back as `m` · 2^`q`: the nearest one on
the coarsest grid of powers of ten that has one. -/
def shortest (negative : Bool) (m : Nat) (q : Int) (finerBelow : Bool) : Decimal :=
  let found := (List.range 660).findSome? fun (i : Nat) =>
    let k : Int := 310 - (i : Int)
    (onGrid? m q finerBelow k).map fun c => (c, k)
  match found with
  | some (c, k) => { negative := negative, coefficient := c, exponent := k }
  | none => { negative := negative, coefficient := 0, exponent := 0 }

/-- The decimal with the fewest digits that reads back as a finite floating-point number. -/
def ofFloat (x : Float) : Decimal :=
  let bits := x.toBits.toNat
  let negative := Nat.pow 2 63 ≤ bits
  let hidden := Nat.pow 2 52
  let exponent := bits / hidden % Nat.pow 2 11
  let fraction := bits % hidden
  if exponent = 0 then
    if fraction = 0 then { negative := negative, coefficient := 0, exponent := 0 }
    else shortest negative fraction (-1074) false
  else
    shortest negative (hidden + fraction) ((exponent : Int) - 1075)
      (decide (fraction = 0 ∧ 1 < exponent))

/-- The decimal in positional notation, with at least one digit on either side of the
point. -/
def positional (d : Decimal) : String :=
  let ds := digits d.coefficient
  let zeros n := List.replicate n '0'
  let (whole, part) :=
    if 0 ≤ d.exponent then (ds ++ zeros d.exponent.toNat, [])
    else
      let places := d.exponent.natAbs
      let padded := zeros (places + 1 - ds.length) ++ ds
      (padded.take (padded.length - places), padded.drop (padded.length - places))
  String.ofList
    ((if d.negative then ['-'] else []) ++ whole ++ ['.'] ++ if part.isEmpty then ['0'] else part)

end Decimal

end Offload
