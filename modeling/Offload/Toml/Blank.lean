/-!
# Blanks, newlines and comments

What may stand between the parts of a TOML document. A newline is a line feed, alone or
after a carriage return, and a carriage return stands nowhere else. A comment runs from a
number sign to the end of its line and holds no control characters but tabs.
-/

namespace Offload.Toml

/-- A space or a tab. -/
def isBlank (c : Char) : Bool :=
  c == ' ' || c == '\t'

/-- A control character other than a tab. -/
def isControl (c : Char) : Bool :=
  c.toNat < 32 && c != '\t' || c.toNat == 127

/-- What is left after spaces and tabs. -/
def skipBlanks (s : List Char) : List Char :=
  s.dropWhile isBlank

/-- What is left after a newline. -/
def newline? : List Char → Option (List Char)
  | '\n' :: rest => some rest
  | '\r' :: '\n' :: rest => some rest
  | _ => none

/-- What is left after blanks, newlines and comments; `comment` says whether a comment is
open at the start. -/
def skipTrivia (comment : Bool) : List Char → Option (List Char)
  | [] => some []
  | '\n' :: rest => skipTrivia false rest
  | '\r' :: '\n' :: rest => skipTrivia false rest
  | c :: rest =>
    if comment then if isControl c then none else skipTrivia true rest
    else if isBlank c then skipTrivia false rest
    else if c = '#' then skipTrivia true rest
    else some (c :: rest)

/-- What is left after the text of a comment, without the newline. -/
def skipComment : List Char → Option (List Char)
  | [] => some []
  | '\n' :: rest => some ('\n' :: rest)
  | '\r' :: '\n' :: rest => some ('\r' :: '\n' :: rest)
  | c :: rest => if isControl c then none else skipComment rest

/-- What is left after the end of a line: blanks, perhaps a comment, and a newline or the
end of the document. -/
def endLine (s : List Char) : Option (List Char) := do
  let s ← match skipBlanks s with
    | '#' :: rest => skipComment rest
    | rest => some rest
  if s.isEmpty then some [] else newline? s

end Offload.Toml
