import Offload.Settings.Load

/-!
# Trees of files

A tree of files and directories, and what stands at a path that starts in its root. A path
is walked part by part: every part but the last has to be a directory, a single dot stays,
two dots go up, and a slash at the end asks for a directory. Nothing is known outside the
root except that it is a directory. What stands at the end of a path that is too long does not
show.
-/

namespace Offload

/-- A file or a directory. -/
inductive FileTree where
  | file (content : ByteArray)
  | directory (entries : List (String × FileTree))

namespace FileTree

/-- A directory without entries. -/
def empty : FileTree :=
  .directory []

/-- The entries of a directory. -/
def entries : FileTree → List (String × FileTree)
  | .file _ => []
  | .directory entries => entries

/-- The entries with one of them replaced, or added at the end. -/
def putEntry (name : String) (t : FileTree) :
    List (String × FileTree) → List (String × FileTree)
  | [] => [(name, t)]
  | (other, u) :: rest =>
    if other = name then (name, t) :: rest else (other, u) :: putEntry name t rest

/-- The tree with another tree put at a list of names; missing directories are made. -/
def put (t : FileTree) : List String → FileTree → FileTree
  | [], root =>
    match t, root with
    | .directory [], .directory _ => root
    | _, _ => t
  | name :: names, root =>
    let child := (root.entries.lookup name).getD empty
    .directory (putEntry name (put t names child) root.entries)

/-- The parts of a path between its slashes. -/
def parts (path : String) : List String :=
  (path.splitOn "/").filter (!·.isEmpty)

/-- What stands at the end of a walk through the given parts, from `here` below `above`. -/
def walk (above : List FileTree) (here : FileTree) : List String → Option FileTree
  | [] => some here
  | part :: rest =>
    match here with
    | .file _ => none
    | .directory entries =>
      if part = "." then walk above here rest
      else if part = ".." then
        match above with
        | [] => walk [] empty rest
        | parent :: above => walk above parent rest
      else
        match entries.lookup part with
        | none => none
        | some child => walk (here :: above) child rest

/-- The number of bytes of the longest path. -/
def longestPath : Nat := 4095

/-- The reason why nothing is found out about a path that is too long. -/
def nameTooLong : String := "File name too long (os error 36)"

/-- What stands at a path. -/
def lookUp (root : FileTree) : Settings.LookUp := fun path =>
  let start := if path.startsWith "/" then empty else root
  match if path.isEmpty then none else walk [] start (parts path) with
  | none => .nothing
  | some found =>
    if longestPath < path.utf8ByteSize then .hidden nameTooLong
    else
      match found with
      | .directory _ => .unreadable Settings.isDirectory
      | .file content => if path.endsWith "/" then .nothing else .file content

end FileTree

end Offload
