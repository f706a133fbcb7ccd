import Offload.Toml.Value

/-!
# Building tables

A document is built by statements that add to its table. Each statement finds its table by
a path of keys, and tables that are missing on the way are made. A table between braces
admits no additions, a key has one value, and each table has one header at most.

## Main definitions

* `Toml.Table.within`: a change to the table at the end of a path.
* `Toml.Table.addPair`, `Toml.Table.openTable`, `Toml.Table.addElement`: the statements.
-/

namespace Offload.Toml.Table

/-- Changes the table at the end of a path. On the way a missing table is made, and an array
that grows by headers stands for its last table. A path of a dotted key does not lead
through a table that has a header, and no path leads into a table between braces. -/
def within (dotted : Bool) (f : Table → Option Table) : List String → Table → Option Table
  | [], t => f t
  | key :: path, t =>
    match t.find? key with
    | none =>
      (within dotted f path (.empty (if dotted then .dotted else .passed))).map fun sub =>
        t.put key (.table sub)
    | some (.table sub) =>
      if sub.origin = .inline ∨ (dotted ∧ sub.origin = .named) then none
      else (within dotted f path sub).map fun sub' => t.put key (.table sub')
    | some (.array true items) =>
      match items.getLast? with
      | some (.table sub) =>
        (within dotted f path sub).map fun sub' =>
          t.put key (.array true (items.dropLast ++ [.table sub']))
      | _ => none
    | some _ => none

/-- Adds a key that has no value yet. A key of several parts does not add to a table that
has a header. -/
def addKey (severalParts : Bool) (key : String) (v : Value) (t : Table) : Option Table :=
  if severalParts ∧ t.origin = .named then none
  else if (t.find? key).isNone then some (t.put key v)
  else none

/-- Adds a value under a path of keys. -/
def addPair (path : List String) (v : Value) (t : Table) : Option Table :=
  match path.getLast? with
  | none => none
  | some key =>
    let parents := path.dropLast
    within true (addKey (!parents.isEmpty) key v) parents t

/-- Adds a table by its header, or gives a header to a table that another header made. -/
def openKey (key : String) (t : Table) : Option Table :=
  match t.find? key with
  | none => some (t.put key (.table (.empty .named)))
  | some (.table sub) =>
    if sub.origin = .passed then some (t.put key (.table (sub.become .named))) else none
  | some _ => none

/-- Adds a table under a path of keys by its header. -/
def openTable (path : List String) (t : Table) : Option Table :=
  match path.getLast? with
  | none => none
  | some key => within false (openKey key) path.dropLast t

/-- Adds a table to the end of an array that grows by headers. -/
def growKey (key : String) (t : Table) : Option Table :=
  match t.find? key with
  | none => some (t.put key (.array true [.table (.empty .named)]))
  | some (.array true items) =>
    some (t.put key (.array true (items ++ [.table (.empty .named)])))
  | some _ => none

/-- Adds a table to the end of the array under a path of keys. -/
def addElement (path : List String) (t : Table) : Option Table :=
  match path.getLast? with
  | none => none
  | some key => within false (growKey key) path.dropLast t

/-- The table between braces with the given pairs. -/
def ofPairs (pairs : List (List String × Value)) : Option Table :=
  (pairs.foldlM (fun t (path, v) => addPair path v t) (.empty .named)).map (become .inline)

end Offload.Toml.Table
