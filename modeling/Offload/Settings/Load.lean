import Offload.Settings.Layout

/-!
# Loading settings

Settings are loaded from the file at a path. The path is the value of a variable of the
environment unless that is empty, and otherwise a fixed place under the home directory. Where
nothing shows there are no settings; where something shows that gives none, that is a
fault, which carries the path.

Whether something shows at a path and what is read there are two questions to the file system.
The first is about the metadata, and its answer is no as well where something exists whose
metadata cannot be read, as in a directory that must not be searched.

What stands at a path is asked of a function, so the same rules hold for any file system.

## Main definitions

* `Settings.Standing`, `Settings.LookUp`: what stands at a path.
* `Settings.Standing.shows`, `Settings.Standing.text`: the two questions.
* `Settings.loadFrom`: the settings at a path.
* `Settings.configPath`, `Settings.load`: the path and the settings of an environment.
-/

namespace Offload.Settings

/-- What stands at a path. -/
inductive Standing where
  | nothing
  /-- Something whose metadata cannot be read, for the given reason. -/
  | hidden (reason : String)
  /-- Something that shows, and cannot be read for the given reason. -/
  | unreadable (reason : String)
  | file (content : ByteArray)

/-- What stands at each path. -/
abbrev LookUp := String → Standing

/-- Why there are no settings where something exists. -/
inductive LoadFault where
  | unreadable (path reason : String)
  | malformed (path : String) (fault : LayoutFault)
  deriving DecidableEq

namespace LoadFault

/-- The path at which settings were looked for. -/
def path : LoadFault → String
  | .unreadable path _ => path
  | .malformed path _ => path

/-- The text of what lies behind a fault. -/
def cause : LoadFault → String
  | .unreadable _ reason => reason
  | .malformed _ fault => fault.message

/-- The text of a fault, with what lies behind it written as given. -/
def messageWith (cause : String) : LoadFault → String
  | .unreadable path _ => "failed to read config at " ++ path ++ ": " ++ cause
  | .malformed path _ => "failed to parse config at " ++ path ++ ": " ++ cause

/-- The text of a fault. -/
def message (f : LoadFault) : String :=
  f.messageWith f.cause

end LoadFault

/-- The reason why a directory cannot be read. -/
def isDirectory : String := "Is a directory (os error 21)"

/-- The reason why bytes that are no text cannot be read. -/
def notText : String := "stream did not contain valid UTF-8"

/-- The reason why nothing can be read where nothing stands. -/
def noSuchFile : String := "No such file or directory (os error 2)"

namespace Standing

/-- Whether the metadata of what stands there can be read. -/
def shows : Standing → Bool
  | .nothing | .hidden _ => false
  | .unreadable _ | .file _ => true

/-- The text that stands there, or the reason why none can be read. -/
def text : Standing → Except String String
  | .nothing => .error noSuchFile
  | .hidden reason | .unreadable reason => .error reason
  | .file content =>
    match String.fromUTF8? content with
    | none => .error notText
    | some text => .ok text

end Standing

/-- The settings at a path, if anything shows there. -/
def loadFrom (lookUp : LookUp) (path : String) (read : Toml.DocumentReader := Toml.read) :
    Except LoadFault (Option Settings) :=
  if (lookUp path).shows then
    match (lookUp path).text with
    | .error reason => .error (.unreadable path reason)
    | .ok text =>
      match ofText text read with
      | .ok s => .ok (some s)
      | .error fault => .error (.malformed path fault)
  else .ok none

/-- The part of an environment that says where settings are. -/
structure Environment where
  /-- The value of the variable `HANDOFF_CONFIG`, if it is set. -/
  config : Option String
  home : Option String
  deriving DecidableEq, Repr

/-- A path below a directory, with one slash between the two unless the directory has no name. -/
def below (directory path : String) : String :=
  if directory = "" ∨ directory.toList.getLast? = some '/' then directory ++ path
  else directory ++ "/" ++ path

/-- The path of the settings, if the environment gives one. -/
def configPath (env : Environment) : Option String :=
  match env.config.filter (!·.isEmpty) with
  | some path => some path
  | none => env.home.map fun home => below home ".handoff/config.toml"

/-- The settings of an environment, if there is a path and anything shows there. -/
def load (lookUp : LookUp) (env : Environment) (read : Toml.DocumentReader := Toml.read) :
    Except LoadFault (Option Settings) :=
  match configPath env with
  | none => .ok none
  | some path => loadFrom lookUp path read

end Offload.Settings
