import Offload.Toml.Scalar
import Offload.Toml.Table

/-!
# Reading a TOML document

A document is a list of lines: pairs of a key and a value, headers of tables, and headers of
elements of arrays. Brackets and braces nest up to a fixed depth, and a key has at most as
many parts.

## Main definitions

* `Toml.key?`: a key, as the list of its parts.
* `Toml.value?`: a value.
* `Toml.DocumentReader`, `Toml.read`: the table that a document describes, if it is one.
-/

namespace Offload.Toml

/-- How deep brackets and braces may nest, and how many parts a key may have. -/
def depthLimit : Nat := 80

/-! ### Keys -/

/-- Whether a character may stand in a key without quotes. -/
def isBare (c : Char) : Bool :=
  c.isAlphanum || c == '-' || c == '_'

/-- One part of a key. -/
def keyPart? (s : List Char) : Option (String × List Char) :=
  match s with
  | '"' :: _ | '\'' :: _ => (lineText? s).map fun (text, rest) => (String.ofList text, rest)
  | _ =>
    let (part, rest) := s.span isBare
    if part.isEmpty then none else some (String.ofList part, rest)

/-- The parts of a key, of which there are at most as many as the first number says, and
what is left after the key and the blanks behind it. -/
def keyParts? : Nat → List Char → Option (List String × List Char)
  | 0, _ => none
  | more + 1, s => do
    let (part, rest) ← keyPart? (skipBlanks s)
    match skipBlanks rest with
    | '.' :: rest =>
      let (parts, rest) ← keyParts? more rest
      some (part :: parts, rest)
    | rest => some ([part], rest)

/-- A key, and what is left after it and the blanks behind it. -/
def key? (s : List Char) : Option (List String × List Char) :=
  keyParts? depthLimit s

/-! ### Values -/

/-- What reads something at the start of a text and gives what is left. -/
abbrev Reader (τ : Type) := List Char → Option (τ × List Char)

/-- The items of a list after its opening bracket, up to the closing one. Commas stand
between the items, and one may stand after the last. The first number bounds the items. -/
def listed {τ : Type} (item : Reader τ) (close : Char) : Nat → Reader (List τ)
  | 0, _ => none
  | more + 1, s => do
    match ← skipTrivia false s with
    | [] => none
    | c :: rest =>
      if c = close then some ([], rest)
      else
        let (first, rest) ← item (c :: rest)
        match ← skipTrivia false rest with
        | ',' :: rest =>
          let (others, rest) ← listed item close more rest
          some (first :: others, rest)
        | c :: rest => if c = close then some ([first], rest) else none
        | [] => none

/-- A key and its value, with an equals sign between them; `gap` takes away what may stand
on either side of the sign. -/
def pair? (gap : List Char → Option (List Char)) (value : Reader Value) :
    Reader (List String × Value) :=
  fun s => do
    let (path, rest) ← key? s
    match ← gap rest with
    | '=' :: rest =>
      let (v, rest) ← value (← gap rest)
      some ((path, v), rest)
    | _ => none

/-- A value in which brackets and braces nest no deeper than the first number says. -/
def value? : Nat → Reader Value
  | depth, s =>
    match s with
    | '"' :: _ | '\'' :: _ => (anyText? s).map fun (text, rest) => (.text (String.ofList text), rest)
    | '[' :: rest =>
      match depth with
      | 0 => none
      | depth + 1 =>
        (listed (value? depth) ']' (rest.length + 1) rest).map fun (items, rest) =>
          (.array false items, rest)
    | '{' :: rest =>
      match depth with
      | 0 => none
      | depth + 1 => do
        let (pairs, rest) ← listed (pair? (skipTrivia false) (value? depth)) '}' (rest.length + 1) rest
        some (.table (← Table.ofPairs pairs), rest)
    | _ =>
      let (word, rest) := splitWord s
      (word? word).map fun v => (v, rest)

/-! ### Documents -/

/-- A line of a document. -/
inductive Statement where
  | pair (path : List String) (v : Value)
  | header (path : List String)
  | element (path : List String)

/-- A line that is not blank, up to its end. -/
def statement? : Reader Statement
  | '[' :: '[' :: s => do
    match ← key? s with
    | (path, ']' :: ']' :: rest) => some (.element path, rest)
    | _ => none
  | '[' :: s => do
    match ← key? s with
    | (path, ']' :: rest) => some (.header path, rest)
    | _ => none
  | s => do
    let ((path, v), rest) ← pair? (some ∘ skipBlanks) (value? depthLimit) s
    some (.pair path v, rest)

/-- The lines of a document; the number bounds how many there are. -/
def statements? : Nat → List Char → Option (List Statement)
  | 0, _ => none
  | more + 1, s => do
    match ← skipTrivia false s with
    | [] => some []
    | s =>
      let (first, rest) ← statement? s
      let others ← statements? more (← endLine rest)
      some (first :: others)

/-- A document that is being built: its table, and the path to which pairs are added. -/
structure Draft where
  root : Table := .empty .named
  path : List String := []

/-- The draft after a statement. -/
def Draft.add (d : Draft) : Statement → Option Draft
  | .pair path v =>
    (Table.within false (Table.addPair path v) d.path d.root).map fun root => { d with root := root }
  | .header path => (Table.openTable path d.root).map fun root => { root := root, path := path }
  | .element path => (Table.addElement path d.root).map fun root => { root := root, path := path }

/-- Anything that reads documents: it gives the table that a text describes, or nothing if the text
is no document. -/
abbrev DocumentReader := String → Option Table

/-- The table that a document describes, if it is one. A mark of byte order may stand at the
start. -/
def read : DocumentReader := fun text => do
  let s := match text.toList with
    | '\ufeff' :: rest => rest
    | s => s
  let d ← (← statements? (s.length + 1) s).foldlM Draft.add {}
  some d.root

end Offload.Toml
