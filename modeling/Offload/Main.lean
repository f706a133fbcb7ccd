import Offload.Demo.Command

/-!
# The command line

The outer layer of the command: it reads the arguments, the environment and the file system,
and prints.
-/

open Offload

/-- What stands at a path of the real file system. A path that cannot be resolved leads to nothing,
or to something that does not show. -/
def standingAt (path : String) : IO Settings.Standing := do
  match ← (IO.FS.realPath path).toBaseIO with
  | .error (.noFileOrDirectory ..) | .error (.noSuchThing ..) | .error (.inappropriateType ..) =>
    return .nothing
  | .error e => return .hidden (toString e)
  | .ok _ =>
    match ← (IO.FS.readBinFile path).toBaseIO with
    | .ok content => return .file content
    | .error (.inappropriateType ..) => return .unreadable Settings.isDirectory
    | .error e => return .unreadable (toString e)

/-- Runs the command. -/
def main (arguments : List String) : IO UInt32 := do
  let env : Settings.Environment :=
    { config := ← IO.getEnv "HANDOFF_CONFIG", home := ← IO.getEnv "HOME" }
  let standing ← match Settings.configPath env with
    | some path => standingAt path
    | none => pure .nothing
  let start ← IO.monoMsNow
  match Demo.command arguments (fun _ => standing) env with
  | .ok summary =>
    let elapsed := toString ((← IO.monoMsNow) - start) ++ "ms"
    (Demo.reportLines Site.text elapsed summary).forM fun line => IO.println line
    return 0
  | .error complaint =>
    IO.eprint complaint.text
    return 1
