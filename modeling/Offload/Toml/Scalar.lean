import Offload.Toml.Value
import Offload.Toml.Quoted

/-!
# Words of a TOML document

A **word** is a value that is neither quoted nor bracketed: a truth value, an integer, a
number with a point or an exponent, a date or a time. In a number single underscores may
stand between digits. A decimal number has no needless zero at its start.

What follows the first digits of a word tells its kind. After an underscore, where no point
and no mark of an exponent comes, the word is an integer whatever else it holds, so that an
integer may turn out to have no number.

## Main definitions

* `Toml.integer?`, `Toml.real?`, `Toml.moment?`: the kinds of words.
* `Toml.word?`: the value of a word.
-/

namespace Offload.Toml

/-- A decimal digit. -/
def isDigit (c : Char) : Bool :=
  '0' ≤ c && c ≤ '9'

/-- Whether a character is a digit in a base up to 16. -/
def isDigitIn (base : Nat) (c : Char) : Bool :=
  (hexDigit? c).any (· < base)

/-- The number that digits stand for in a base. -/
def inBase (base : Nat) (cs : List Char) : Nat :=
  cs.foldl (fun n c => base * n + (hexDigit? c).getD 0) 0

/-- Whether there is a minus sign at the start, and what is left after a sign. -/
def sign : List Char → Bool × List Char
  | '+' :: rest => (false, rest)
  | '-' :: rest => (true, rest)
  | rest => (false, rest)

/-- The number with a sign. -/
def signed (negative : Bool) (n : Nat) : Int :=
  if negative then -(n : Int) else n

/-! ### Underscores -/

/-- A text without its underscores, each of which has to stand before a digit and after one;
`after` says whether an underscore may come first. -/
def joinedAfter (digit : Char → Bool) (after : Bool) : List Char → Option (List Char)
  | [] => some []
  | '_' :: c :: rest =>
    if after && digit c then (joinedAfter digit true rest).map (c :: ·) else none
  | c :: rest =>
    if c = '_' then none else (joinedAfter digit (digit c) rest).map (c :: ·)

/-- A word without its underscores, which have to stand between digits. The first character,
a digit or a sign, counts as a digit. -/
def joined (digit : Char → Bool) : List Char → Option (List Char)
  | [] => some []
  | c :: rest => if c = '_' then none else (joinedAfter digit true rest).map (c :: ·)

/-! ### Integers -/

/-- The number of an integer, if there are digits of its base and nothing else. -/
def number? (base : Nat) (digits : List Char) : Option Nat :=
  if !digits.isEmpty && digits.all (isDigitIn base) then some (inBase base digits) else none

/-- An integer in base 16, 8 or 2, after the mark of its base. Without digits it has no
number. -/
def integerIn? (base : Nat) (cs : List Char) : Option (Option Int) :=
  if cs.all fun c => isDigitIn base c || c == '_' then
    (joined (isDigitIn base) cs).map fun ds => (number? base ds).map Int.ofNat
  else none

/-- Whether a character is a point or starts an exponent. -/
def isRealMark (c : Char) : Bool :=
  c == '.' || c == 'e' || c == 'E'

/-- Whether a word without its sign is written as a decimal integer: digits alone, or digits
up to an underscore and no mark of another number after it. -/
def isDecimal (cs : List Char) : Bool :=
  match cs, cs.dropWhile isDigit with
  | [], _ => false
  | ['0'], _ => true
  | '0' :: _, _ => false
  | _, [] => true
  | _, '_' :: rest => !rest.any isRealMark
  | _, _ => false

/-- A decimal integer with or without a sign. -/
def decimal? (cs : List Char) : Option (Option Int) :=
  if isDecimal (sign cs).2 then
    (joined (isDigitIn 16) cs).map fun ds =>
      (number? 10 (sign ds).2).map (signed (sign ds).1)
  else none

/-- An integer in base 10, or in base 16, 8 or 2 without a sign. -/
def integer? : List Char → Option (Option Int)
  | '0' :: 'x' :: rest => integerIn? 16 rest
  | '0' :: 'o' :: rest => integerIn? 8 rest
  | '0' :: 'b' :: rest => integerIn? 2 rest
  | cs => decimal? cs

/-! ### Numbers with a point or an exponent -/

/-- Whether a number has a zero at its start and further digits before its point. -/
def hasNeedlessZero : List Char → Bool
  | '0' :: rest => (rest.takeWhile fun c => isDigit c || c == '_').any isDigit
  | _ => false

/-- An exponent with its mark, or none at all. -/
def exponent? : List Char → Option Int
  | [] => some 0
  | _ :: rest =>
    let (negative, digits) := sign rest
    (number? 10 digits).map (signed negative)

/-- A number with a point, an exponent, or both, without a sign or underscores. -/
def fractional? (negative : Bool) (cs : List Char) : Option Decimal := do
  let (mantissa, exponent) := cs.span fun c => c != 'e' && c != 'E'
  let (whole, part) := mantissa.span (· != '.')
  let part := part.drop 1
  if mantissa.contains '.' && part.isEmpty || whole.isEmpty then none
  else if !mantissa.contains '.' && exponent.isEmpty then none
  else
    some
      { negative := negative
        coefficient := ← number? 10 (whole ++ part)
        exponent := (← exponent? exponent) - part.length }

/-- A number with a point or an exponent, or a word for infinity or for no number. -/
def real? (cs : List Char) : Option Real :=
  let (negative, rest) := sign cs
  if rest = ['i', 'n', 'f'] then some (.infinite negative)
  else if rest = ['n', 'a', 'n'] then some .notANumber
  else if hasNeedlessZero rest then none
  else do
    let (negative, rest) := sign (← joined isDigit cs)
    (fractional? negative rest).map .finite

/-! ### Dates and times -/

/-- A number of two digits. -/
def twoDigits? (a b : Char) : Option Nat :=
  if isDigit a ∧ isDigit b then some (inBase 10 [a, b]) else none

/-- Whether a year has a day more than most. -/
def isLeap (year : Nat) : Bool :=
  year % 4 = 0 && (year % 100 != 0 || year % 400 = 0)

/-- The number of days of a month. -/
def daysIn (year month : Nat) : Nat :=
  if month = 2 then if isLeap year then 29 else 28
  else if month = 4 ∨ month = 6 ∨ month = 9 ∨ month = 11 then 30
  else 31

/-- What is left after a date. -/
def afterDate? : List Char → Option (List Char)
  | a :: b :: c :: d :: '-' :: e :: f :: '-' :: g :: h :: rest => do
    let century ← twoDigits? a b
    let yearIn ← twoDigits? c d
    let month ← twoDigits? e f
    let day ← twoDigits? g h
    if 1 ≤ month ∧ month ≤ 12 ∧ 1 ≤ day ∧ day ≤ daysIn (100 * century + yearIn) month then some rest
    else none
  | _ => none

/-- What is left after the fraction of a second, if there is one. -/
def afterFraction? : List Char → Option (List Char)
  | '.' :: rest => if (rest.takeWhile isDigit).isEmpty then none else some (rest.dropWhile isDigit)
  | rest => some rest

/-- What is left after hours and minutes, up to the given hour and minute. -/
def afterMinutes? : List Char → Option (List Char)
  | a :: b :: ':' :: c :: d :: rest => do
    let hour ← twoDigits? a b
    let minute ← twoDigits? c d
    if hour ≤ 23 ∧ minute ≤ 59 then some rest else none
  | _ => none

/-- What is left after a time; seconds may be missing, and a minute may have sixty-one. -/
def afterTime? (cs : List Char) : Option (List Char) := do
  match ← afterMinutes? cs with
  | ':' :: a :: b :: rest =>
    let second ← twoDigits? a b
    if second ≤ 60 then afterFraction? rest else none
  | rest => some rest

/-- Whether a text is the distance from world time, or empty. -/
def isOffset : List Char → Bool
  | [] => true
  | ['Z'] | ['z'] => true
  | '+' :: rest => afterMinutes? rest == some []
  | '-' :: rest => afterMinutes? rest == some []
  | _ => false

/-- Whether a text is the time after a date, with the mark between them, or empty. -/
def isTimeOfDate : List Char → Bool
  | [] => true
  | c :: rest =>
    (c == 'T' || c == 't' || c == ' ') && (afterTime? rest).any isOffset

/-- Whether a text is a date, a time, or both. -/
def isMoment (cs : List Char) : Bool :=
  match afterDate? cs with
  | some rest => isTimeOfDate rest
  | none => afterTime? cs == some []

/-- A date, a time, or both. -/
def moment? (cs : List Char) : Option String :=
  if isMoment cs then some (String.ofList cs) else none

/-! ### Words -/

/-- A truth value. -/
def boolean? (cs : List Char) : Option Bool :=
  if cs = ['t', 'r', 'u', 'e'] then some true
  else if cs = ['f', 'a', 'l', 's', 'e'] then some false
  else none

/-- The value of a word. -/
def word? (cs : List Char) : Option Value :=
  (boolean? cs).map .boolean <|> (integer? cs).map .integer <|> (real? cs).map .real
    <|> (moment? cs).map .moment

/-- Whether a character ends a word. -/
def endsWord (c : Char) : Bool :=
  isBlank c || ['\n', '\r', ',', '=', '[', ']', '\x7b', '\x7d', '#'].contains c

/-- A word and what is left after it. After a date a single space may stand before the
time. -/
def splitWord (s : List Char) : List Char × List Char :=
  let (word, rest) := s.span fun c => !endsWord c
  match rest with
  | ' ' :: c :: more =>
    if afterDate? word == some [] && isDigit c then
      let (time, rest) := (c :: more).span fun c => !endsWord c
      (word ++ ' ' :: time, rest)
    else (word, rest)
  | _ => (word, rest)

end Offload.Toml
