/-!
# Outlines

An **outline** is a value as it is shown to people: an atom, a list of items, or a record
with a name and named fields, of which some may be left out. It is shown on one line, or
spread over several lines with one item a line, each level indented by four blanks and each
item followed by a comma. An empty list stays on its line. Fields that are left out show as
two dots.
-/

namespace Offload.Text

/-- A value as it is shown to people. -/
inductive Outline where
  | atom (text : String)
  | items (all : List Outline)
  /-- A record; `partly` says that it has more fields than are shown. -/
  | record (name : String) (fields : List (String × Outline)) (partly : Bool)

namespace Outline

/-- A truth value as an atom. -/
def bool (b : Bool) : Outline :=
  .atom (if b then "true" else "false")

/-- A number as an atom. -/
def nat (n : Nat) : Outline :=
  .atom (toString n)

mutual

/-- The outline on one line. -/
def inline : Outline → String
  | .atom text => text
  | .items all => "[" ++ ", ".intercalate (inlineItems all) ++ "]"
  | .record name fields partly =>
    name ++ " \x7b " ++ ", ".intercalate (inlineFields fields ++ if partly then [".."] else [])
      ++ " \x7d"

/-- Each item on one line. -/
def inlineItems : List Outline → List String
  | [] => []
  | item :: rest => item.inline :: inlineItems rest

/-- Each field on one line, after its label. -/
def inlineFields : List (String × Outline) → List String
  | [] => []
  | (label, value) :: rest => (label ++ ": " ++ value.inline) :: inlineFields rest

end

/-- The blanks at the start of a line at a level. -/
def margin (level : Nat) : String :=
  String.ofList (List.replicate (4 * level) ' ')

mutual

/-- The outline spread over lines, of which all but the first start at `level`. -/
def spread (level : Nat) : Outline → String
  | .atom text => text
  | .items [] => "[]"
  | .items all => "[\n" ++ spreadItems (level + 1) all ++ margin level ++ "]"
  | .record name fields partly =>
    name ++ " \x7b\n" ++ spreadFields (level + 1) fields
      ++ (if partly then margin (level + 1) ++ "..\n" else "") ++ margin level ++ "\x7d"

/-- Each item on lines of its own. -/
def spreadItems (level : Nat) : List Outline → String
  | [] => ""
  | item :: rest => margin level ++ item.spread level ++ ",\n" ++ spreadItems level rest

/-- Each field on lines of its own, after its label. -/
def spreadFields (level : Nat) : List (String × Outline) → String
  | [] => ""
  | (label, value) :: rest =>
    margin level ++ label ++ ": " ++ value.spread level ++ ",\n" ++ spreadFields level rest

end

/-- The outline on one line, or spread over several. -/
def shown (spreadOut : Bool) (o : Outline) : String :=
  if spreadOut then o.spread 0 else o.inline

end Outline

end Offload.Text
