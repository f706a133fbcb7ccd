import Offload.Demo.Command
import Offload.Proofs.Demo.Outcome
import Offload.Proofs.Settings.Fitting

/-!
# What the command starts on

The command comes to a machine in three steps that may each fail: the count of its arguments, the
settings of its environment, and a pipeline with these settings. Only after all three does a thread
take its first step. So settings that show are never replaced by default ones: either they are
those that the machine runs with, or no machine runs. But settings whose metadata cannot be read are
taken for none, and the machine runs with default ones.

## Main definitions

* `Starting`: what the command starts a machine with.
* `starting`: the steps before a machine runs.
* `summed`: what comes of the machine.
* `setting?`: the value that a document has for a setting under its key.
* `Heeded`: the settings that show are those that count.

## Main results

* `settings_heeded`: whatever the arguments, the environment and the files are, the settings that
  show are those that count.
* `hidden_unheeded`: settings that exist and do not show are replaced by default ones.
-/

namespace Offload.Demo

open Settings (LookUp Environment LoadFault Fits Gives configPath load)

variable {arguments : List String} {lookUp : LookUp} {env : Environment} {read : Toml.DocumentReader}
variable {count : Nat} {settings s : Settings} {t : Toml.Table}

/-! ### The steps before a machine runs -/

/-- What the command starts a machine with. -/
structure Starting where
  count : Nat
  settings : Settings
  pipeline : Pipeline Position Nat TaskError

/-- The steps before a machine runs. -/
def starting (arguments : List String) (lookUp : LookUp) (env : Environment)
    (read : Toml.DocumentReader) : Except Complaint Starting := do
  let count ← countOf arguments
  let settings ← settingsOf lookUp env read
  let pipeline ← (Pipeline.new (plan settings)).mapError
    (complainOfFailure "Failed to start task runner")
  .ok { count, settings, pipeline }

/-- What comes of the machine that the command starts. -/
def summed (x : Starting) : Except Complaint Summary :=
  let last := (machine x.count x.settings).runAll { pipeline := x.pipeline } () (threads x.count)
  match ending? last.history with
  | some .done => .ok last.shared.summary.value
  | some (.refused failure) => .error (complainOfRefusal failure)
  | some (.unclean failure) =>
    .error (complainOfFailure "Task runner did not shut down cleanly" failure)
  | none => .error { message := "Task runner did not finish" }

theorem summaryOf_eq_bind (count : Nat) (settings : Settings) : summaryOf count settings =
    ((Pipeline.new (plan settings)).mapError (complainOfFailure "Failed to start task runner") >>=
      fun pipeline => summed { count, settings, pipeline }) := by
  rw [summaryOf, run]
  cases Pipeline.new (V := Nat) (E := TaskError) (plan settings) with
  | error failure => rfl
  | ok pipeline =>
      change _ = summed { count, settings, pipeline }
      rw [summed]
      dsimp only [bind, Except.bind]
      rcases ending? _ with _ | (_ | _ | _) <;> rfl

/-- **No machine runs** before its count, its settings and its pipeline are there. -/
theorem command_eq_bind (arguments : List String) (lookUp : LookUp) (env : Environment)
    (read : Toml.DocumentReader) :
    command arguments lookUp env read = starting arguments lookUp env read >>= summed := by
  rw [command, starting]
  cases countOf arguments with
  | error complaint => rfl
  | ok count =>
      cases settingsOf lookUp env read with
      | error complaint => rfl
      | ok settings =>
          show summaryOf count settings = _
          rw [summaryOf_eq_bind]
          show (_ : Except Complaint _) = ((Pipeline.new (plan settings)).mapError _ >>= _) >>= _
          cases Pipeline.new (V := Nat) (E := TaskError) (plan settings) <;> rfl

/-- A name with a NUL anywhere in it is refused. -/
theorem new_of_nul (hname : '\x00' ∈ settings.threadName.toList) :
    (Pipeline.new (plan settings) : Except Failure (Pipeline Position Nat TaskError)) =
      .error .badThreadName := by
  have hcontains : settings.threadName.toList.contains '\x00' = true := by
    simpa using hname
  simp only [Pipeline.new, plan, hcontains, if_true]

theorem settingsOf_eq_ok_iff : settingsOf lookUp env read = .ok settings ↔
    load lookUp env read = .ok (some settings) ∨
      load lookUp env read = .ok none ∧ settings = .default := by
  rw [settingsOf]
  rcases load lookUp env read with fault | (_ | s)
  · simp
  · simp [eq_comm]
  · simp

theorem starting_of_settings (hcount : countOf arguments = .ok count)
    (hsettings : settingsOf lookUp env read = .ok settings) :
    starting arguments lookUp env read =
      ((Pipeline.new (plan settings)).mapError (complainOfFailure "Failed to start task runner") >>=
        fun pipeline => .ok { count, settings, pipeline }) := by
  rw [starting, hcount, hsettings]
  rfl

theorem starting_eq_ok_iff {x : Starting} : starting arguments lookUp env read = .ok x ↔
    countOf arguments = .ok x.count ∧ settingsOf lookUp env read = .ok x.settings ∧
      '\x00' ∉ x.settings.threadName.toList ∧ x.pipeline = {} := by
  constructor
  · intro h
    rw [starting] at h
    obtain ⟨count, hcount, h⟩ := Settings.bind_eq_ok_iff.mp h
    obtain ⟨settings, hsettings, h⟩ := Settings.bind_eq_ok_iff.mp h
    obtain ⟨pipeline, hpipeline, h⟩ := Settings.bind_eq_ok_iff.mp h
    cases h
    by_cases hname : '\x00' ∈ settings.threadName.toList
    · rw [new_of_nul hname] at hpipeline
      cases hpipeline
    · rw [new_of_name hname] at hpipeline
      cases hpipeline
      exact ⟨hcount, hsettings, hname, rfl⟩
  · obtain ⟨count, settings, pipeline⟩ := x
    rintro ⟨hcount, hsettings, hname, rfl⟩
    rw [starting_of_settings hcount hsettings, new_of_name hname]
    rfl

/-! ### Settings under their keys -/

/-- The value that a document has for a setting under its key, if its entry `runner` is a table. -/
def setting? (t : Toml.Table) (key : String) : Option Toml.Value :=
  match t.find? "runner" with
  | some (.table runner) => runner.find? key
  | _ => none

/-- **Each key for itself.** Unless the entry `runner` is something other than a table, each setting
is the value under its own key or its default. -/
theorem setting_of_fits (hfits : Fits t s)
    (htable : ∀ v, t.find? "runner" = some v → ∃ runner, v = .table runner) :
    (setting? t "thread_name").elim (s.threadName = Settings.defaultThreadName)
        (· = .text s.threadName) ∧
      (setting? t "max_updates").elim (s.maxUpdates = Settings.defaultMaxUpdates)
        (· = .integer (some s.maxUpdates.toNat)) := by
  have hrunner := hfits.runner
  rw [setting?, setting?]
  cases hfind : t.find? "runner" with
  | none =>
      rw [hfind] at hrunner
      obtain rfl : s = .default := hrunner
      exact ⟨rfl, rfl⟩
  | some v =>
      obtain ⟨runner, rfl⟩ := htable v hfind
      rw [hfind] at hrunner
      have hgives : Gives (.table runner) s := hrunner
      exact ⟨hgives.threadName, hgives.maxUpdates⟩

/-! ### Settings that count -/

/-- **The settings that show are those that count.** What is at the path decides between no
settings, a fault that carries the path, and settings; and what the command starts on, if it starts
at all, are these settings or, where there are none, the default ones. -/
structure Heeded (arguments : List String) (lookUp : LookUp) (env : Environment)
    (read : Toml.DocumentReader) : Prop where
  /-- The path is the variable's value; if that is empty, it is the home directory's, a slash unless
  that is there, and the fixed place below it. -/
  path : ∀ path, configPath env = some path ↔
    (env.config = some path ∧ path ≠ "") ∨ (env.config = none ∨ env.config = some "") ∧
      ∃ home, env.home = some home ∧ path = home ++
        if home = "" ∨ home.toList.getLast? = some '/' then ".handoff/config.toml"
        else "/.handoff/config.toml"
  /-- There are no settings exactly if there is no path, or nothing exists there, or something whose
  metadata cannot be read. -/
  nothing : load lookUp env read = .ok none ↔ ∀ path, configPath env = some path →
    lookUp path = .nothing ∨ ∃ reason, lookUp path = .hidden reason
  /-- Something shows at the path that cannot be read, or whose bytes are no text. -/
  unreadable : ∀ path reason, load lookUp env read = .error (.unreadable path reason) ↔
    configPath env = some path ∧ (lookUp path = .unreadable reason ∨
      reason = Settings.notText ∧ ∃ content, lookUp path = .file content ∧
        ∀ text : String, content ≠ text.toUTF8)
  /-- A text stands at the path that is no document, or whose document gives no settings. -/
  malformed : ∀ path, (∃ fault, load lookUp env read = .error (.malformed path fault)) ↔
    configPath env = some path ∧ ∃ text : String, lookUp path = .file text.toUTF8 ∧
      ∀ t s, read text = some t → ¬ Fits t s
  /-- A text stands at the path whose document gives these settings. -/
  given : ∀ s, load lookUp env read = .ok (some s) ↔
    ∃ (path text : String) (t : Toml.Table), configPath env = some path ∧
      lookUp path = .file text.toUTF8 ∧ read text = some t ∧ Fits t s
  /-- Each setting is the value under its own key or its default, whatever else there is. -/
  apart : ∀ t s, Fits t s → (∀ v, t.find? "runner" = some v → ∃ runner, v = .table runner) →
    (setting? t "thread_name").elim (s.threadName = Settings.defaultThreadName)
        (· = .text s.threadName) ∧
      (setting? t "max_updates").elim (s.maxUpdates = Settings.defaultMaxUpdates)
        (· = .integer (some s.maxUpdates.toNat))
  /-- The machine runs with the settings that there are, and with default ones only if there are
  none. -/
  started : ∀ x, starting arguments lookUp env read = .ok x ↔ countOf arguments = .ok x.count ∧
    (load lookUp env read = .ok (some x.settings) ∨
      load lookUp env read = .ok none ∧ x.settings = .default) ∧
    '\x00' ∉ x.settings.threadName.toList ∧ x.pipeline = {}
  /-- The command comes of the machine, and there is none before all steps have succeeded. -/
  command : command arguments lookUp env read = starting arguments lookUp env read >>= summed
  /-- What is wrong with the settings that show ends the command before a machine runs. -/
  faulty : ∀ count fault, countOf arguments = .ok count → load lookUp env read = .error fault →
    starting arguments lookUp env read = .error (complainOfSettings fault) ∧
      Demo.command arguments lookUp env read = .error (complainOfSettings fault)
  /-- So does a name for the worker's thread with a NUL anywhere in it. -/
  refused : ∀ count settings, countOf arguments = .ok count →
    load lookUp env read = .ok (some settings) → '\x00' ∈ settings.threadName.toList →
      starting arguments lookUp env read =
          .error (complainOfFailure "Failed to start task runner" .badThreadName) ∧
        Demo.command arguments lookUp env read =
          .error (complainOfFailure "Failed to start task runner" .badThreadName)

theorem command_of_starting {complaint : Complaint}
    (h : starting arguments lookUp env read = .error complaint) :
    command arguments lookUp env read = .error complaint := by
  rw [command_eq_bind, h]
  rfl

/-- **Settings are heeded,** whatever the arguments, the environment and the files are, and whatever
reads the documents, as long as its tables hold each key once. -/
theorem settings_heeded (arguments : List String) (lookUp : LookUp) (env : Environment)
    {read : Toml.DocumentReader} (hread : read.Keyed) : Heeded arguments lookUp env read where
  path _ := Settings.configPath_eq_some_iff
  nothing := Settings.load_eq_ok_none_iff
  unreadable _ _ := Settings.load_eq_unreadable_iff
  malformed _ := Settings.load_eq_malformed_iff hread
  given _ := Settings.load_eq_ok_some_iff hread
  apart _ _ := setting_of_fits
  started x := by rw [starting_eq_ok_iff, settingsOf_eq_ok_iff]
  command := command_eq_bind arguments lookUp env read
  faulty count fault hcount hload := by
    have hstarting : starting arguments lookUp env read = .error (complainOfSettings fault) := by
      rw [starting, hcount, settingsOf, hload]
      rfl
    exact ⟨hstarting, command_of_starting hstarting⟩
  refused count settings hcount hload hname := by
    have hstarting : starting arguments lookUp env read =
        .error (complainOfFailure "Failed to start task runner" .badThreadName) := by
      rw [starting_of_settings hcount (settingsOf_eq_ok_iff.mpr (.inl hload)), new_of_nul hname]
      rfl
    exact ⟨hstarting, command_of_starting hstarting⟩

/-! ### Two environments -/

/-- A document that gives one setting. -/
def threeUpdates : String := "[runner]\nmax_updates = 3\n"

/-- The settings that it gives. -/
def inThrees : Settings := { Settings.default with maxUpdates := 3 }

/-- An environment with a path of its own. -/
def ownPath : Environment := { config := some "handoff.toml", home := some "/home" }

/-- The command starts on the setting that the document gives and the default for the other one. -/
theorem settings_heeded_inThrees :
    Toml.DocumentReader.Keyed Toml.read ∧
      starting [] (fun _ => .file threeUpdates.toUTF8) ownPath Toml.read =
        .ok { count := 5, settings := inThrees, pipeline := {} } := by
  have hheeded :=
    settings_heeded [] (fun _ => .file threeUpdates.toUTF8) ownPath Toml.keyed_reader
  let runner : Toml.Table := .mk .named [("max_updates", .integer (some 3))]
  have hgives : Gives (.table runner) inThrees := by
    refine ⟨.inl ⟨runner, rfl⟩, rfl, rfl, ?_⟩
    rintro _ ⟨⟩ key w hmem - hsize
    cases List.mem_singleton.mp hmem
    exact absurd rfl hsize
  have hfits : Fits (.mk .named [("runner", .table runner)]) inThrees := by
    refine ⟨hgives, fun key v hmem hrunner => ?_⟩
    cases List.mem_singleton.mp hmem
    exact absurd rfl hrunner
  have hload := (hheeded.given inThrees).mpr
    ⟨"handoff.toml", threeUpdates, _, rfl, rfl, rfl, hfits⟩
  exact ⟨Toml.keyed_reader, (hheeded.started _).mpr ⟨rfl, .inl hload, by decide, rfl⟩⟩

/-- **Settings that do not show are not heeded.** A document exists at the path, in a directory that
must not be searched. There are no settings then, and the command starts on default ones. -/
theorem hidden_unheeded :
    load (fun _ => .hidden "Permission denied (os error 13)") ownPath Toml.read = .ok none ∧
      starting [] (fun _ => .hidden "Permission denied (os error 13)") ownPath Toml.read =
        .ok { count := 5, settings := .default, pipeline := {} } :=
  ⟨rfl, rfl⟩

end Offload.Demo
