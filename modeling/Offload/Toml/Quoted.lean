import Offload.Toml.Blank

/-!
# Quoted text in a TOML document

Text stands between double quotes, where a backslash starts an escape, or between single
quotes, where it does not. Text between three quotes may span lines: a newline right after
the opening quotes does not count, up to two quotes may stand before the closing ones, and
in the first kind a backslash at the end of a line takes all blanks and newlines after it
away.

Each reader starts after the opening quotes and gives the text and what is left after the
closing ones.
-/

namespace Offload.Toml

/-- Puts characters in front of what a reader gave. -/
def prepend (cs : List Char) :
    Option (List Char × List Char) → Option (List Char × List Char) :=
  Option.map fun (text, rest) => (cs ++ text, rest)

/-- The value of a hexadecimal digit. -/
def hexDigit? (c : Char) : Option Nat :=
  if '0' ≤ c ∧ c ≤ '9' then some (c.toNat - '0'.toNat)
  else if 'a' ≤ c ∧ c ≤ 'f' then some (c.toNat - 'a'.toNat + 10)
  else if 'A' ≤ c ∧ c ≤ 'F' then some (c.toNat - 'A'.toNat + 10)
  else none

/-- The number that hexadecimal digits stand for. -/
def hexValue? (cs : List Char) : Option Nat :=
  cs.foldlM (fun n c => (hexDigit? c).map (16 * n + ·)) 0

/-- The character at a code point, if there is one. -/
def codePoint? (n : Nat) : Option Char :=
  if h : n.isValidChar then some (Char.ofNatAux n h) else none

/-- The character that hexadecimal digits stand for. -/
def hexChar? (cs : List Char) : Option Char :=
  (hexValue? cs).bind codePoint?

/-- The character that a letter after a backslash stands for. -/
def escaped? : Char → Option Char
  | 'b' => some '\x08'
  | 't' => some '\t'
  | 'n' => some '\n'
  | 'f' => some '\x0c'
  | 'r' => some '\r'
  | 'e' => some '\x1b'
  | '"' => some '"'
  | '\\' => some '\\'
  | _ => none

/-- Text between double quotes on one line. -/
def doubleQuoted : List Char → Option (List Char × List Char)
  | [] => none
  | '"' :: rest => some ([], rest)
  | '\\' :: 'x' :: a :: b :: rest => do
    prepend [← hexChar? [a, b]] (doubleQuoted rest)
  | '\\' :: 'u' :: a :: b :: c :: d :: rest => do
    prepend [← hexChar? [a, b, c, d]] (doubleQuoted rest)
  | '\\' :: 'U' :: a :: b :: c :: d :: e :: f :: g :: h :: rest => do
    prepend [← hexChar? [a, b, c, d, e, f, g, h]] (doubleQuoted rest)
  | '\\' :: c :: rest => do
    prepend [← escaped? c] (doubleQuoted rest)
  | c :: rest => if isControl c ∨ c = '\\' then none else prepend [c] (doubleQuoted rest)

/-- Text between single quotes on one line. -/
def singleQuoted : List Char → Option (List Char × List Char)
  | [] => none
  | '\'' :: rest => some ([], rest)
  | c :: rest => if isControl c then none else prepend [c] (singleQuoted rest)

/-- What text over several lines is reading. -/
inductive Margin where
  /-- Text. -/
  | inside
  /-- The blanks after a backslash, up to the end of its line. -/
  | trailing
  /-- The blanks and newlines after that line. -/
  | leading
  deriving DecidableEq, Repr

/-- Text between three double quotes, after the first newline. -/
def doubleQuotedLines (margin : Margin) : List Char → Option (List Char × List Char)
  | [] => none
  | '\n' :: rest =>
    match margin with
    | .inside => prepend ['\n'] (doubleQuotedLines .inside rest)
    | .trailing | .leading => doubleQuotedLines .leading rest
  | '\r' :: '\n' :: rest =>
    match margin with
    | .inside => prepend ['\r', '\n'] (doubleQuotedLines .inside rest)
    | .trailing | .leading => doubleQuotedLines .leading rest
  | c :: rest =>
    if isBlank c ∧ margin ≠ .inside then doubleQuotedLines margin rest
    else if margin = .trailing then none
    else
      match c, rest with
      | '"', '"' :: '"' :: '"' :: '"' :: rest => some (['"', '"'], rest)
      | '"', '"' :: '"' :: '"' :: rest => some (['"'], rest)
      | '"', '"' :: '"' :: rest => some ([], rest)
      | '\\', 'x' :: a :: b :: rest => do
        prepend [← hexChar? [a, b]] (doubleQuotedLines .inside rest)
      | '\\', 'u' :: a :: b :: c :: d :: rest => do
        prepend [← hexChar? [a, b, c, d]] (doubleQuotedLines .inside rest)
      | '\\', 'U' :: a :: b :: c :: d :: e :: f :: g :: h :: rest => do
        prepend [← hexChar? [a, b, c, d, e, f, g, h]] (doubleQuotedLines .inside rest)
      | '\\', '\n' :: rest => doubleQuotedLines .leading rest
      | '\\', '\r' :: '\n' :: rest => doubleQuotedLines .leading rest
      | '\\', d :: rest =>
        if isBlank d then doubleQuotedLines .trailing rest
        else do prepend [← escaped? d] (doubleQuotedLines .inside rest)
      | c, rest =>
        if isControl c ∨ c = '\\' then none else prepend [c] (doubleQuotedLines .inside rest)

/-- Text between three single quotes, after the first newline. -/
def singleQuotedLines : List Char → Option (List Char × List Char)
  | [] => none
  | '\'' :: '\'' :: '\'' :: '\'' :: '\'' :: rest => some (['\'', '\''], rest)
  | '\'' :: '\'' :: '\'' :: '\'' :: rest => some (['\''], rest)
  | '\'' :: '\'' :: '\'' :: rest => some ([], rest)
  | '\n' :: rest => prepend ['\n'] (singleQuotedLines rest)
  | '\r' :: '\n' :: rest => prepend ['\r', '\n'] (singleQuotedLines rest)
  | c :: rest => if isControl c then none else prepend [c] (singleQuotedLines rest)

/-- What is left without a newline at the start. -/
def withoutNewline (s : List Char) : List Char :=
  (newline? s).getD s

/-- Quoted text on one line, with its quotes. -/
def lineText? : List Char → Option (List Char × List Char)
  | '"' :: rest => doubleQuoted rest
  | '\'' :: rest => singleQuoted rest
  | _ => none

/-- Quoted text of any kind, with its quotes. -/
def anyText? : List Char → Option (List Char × List Char)
  | '"' :: '"' :: '"' :: rest => doubleQuotedLines .inside (withoutNewline rest)
  | '\'' :: '\'' :: '\'' :: rest => singleQuotedLines (withoutNewline rest)
  | s => lineText? s

end Offload.Toml
