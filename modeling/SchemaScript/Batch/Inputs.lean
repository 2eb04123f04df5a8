import SchemaScript.Batch.Basic
import SchemaScript.Batch.Files
import SchemaScript.Script.Convert
import SchemaScript.Script.Json

/-!
# Runs on inputs

A run of the program reads settings, converts one input after the other, and tells how it went.

* `Failure` — why something could not be done, with `Failure.message` from the outermost reason to
  the innermost.
* `Tally` — how a run stands between two inputs.
* `runBatch` — a run on the inputs of the arguments.
* `Outcome` — what a run prints and how it ends.
-/

set_option autoImplicit false

namespace SchemaScript

/-! ## Failures -/

/-- Why something could not be done. -/
inductive Failure where
  /-- A settings file cannot be read. -/
  | settingsFile (error : FileError)
  /-- A settings file does not hold settings. -/
  | settings (path : String)
  /-- The header cannot be read. -/
  | header (error : FileError)
  /-- An input cannot be read. -/
  | reading (path : String) (error : FileError)
  /-- An input cannot be converted. -/
  | script (error : ScriptError)
  /-- A path ends in no name for a file. -/
  | noFileName (path : String)
  /-- An output cannot be written. -/
  | writing (path : String) (error : FileError)
  deriving DecidableEq, Repr

/-- What is said of a failure: the reasons, the outermost first. -/
def Failure.message : Failure → String
  | .settingsFile e => "loading configuration: IO error: " ++ e.message ++ ": " ++ e.message
  | .settings path =>
    "loading configuration: Configuration error: " ++ path ++
      ": Configuration error: TOML parse error"
  | .header e => "reading header: IO error: " ++ e.message ++ ": " ++ e.message
  | .reading path e => "reading " ++ path ++ ": " ++ e.message
  | .script e => e.message
  | .noFileName path => path ++ " has no file name"
  | .writing path e => "writing " ++ path ++ ": " ++ e.message

/-! ## Outcomes -/

/-- What a run prints, and the number it ends with. -/
structure Outcome where
  stdout : String := ""
  stderr : String := ""
  /-- The number of inputs that failed. -/
  code : Nat := 0
  deriving DecidableEq, Repr

/-- The largest number that a program can end with. -/
def largestCode : Nat := 2147483647

/-- The exit status that the caller of a program sees: the last eight bits of the number it ends
with. -/
def Outcome.status (o : Outcome) : Nat :=
  (if o.code ≤ largestCode then o.code else largestCode) % 256

/-! ## Inputs -/

/-- How a run stands between two inputs. -/
structure Tally where
  /-- The outputs, if they do not go to a directory. -/
  combined : String := ""
  warnings : List Warning := []
  succeeded : Nat := 0
  failed : List String := []
  /-- What has been said of the inputs that failed. -/
  complaints : String := ""
  deriving DecidableEq, Repr

/-- What the text of an input becomes, with the warnings of its revision: its tree, or the script
written for the target. -/
def render (settings : Settings) (dumpTree : Bool) (text : String) :
    Noted (Except Failure String) :=
  match Script.parse text with
  | .error e => ⟨.error (.script (.read e)), []⟩
  | .ok script =>
    let revised := script.revise settings.level
    let output :=
      if dumpTree then .ok (revised.value.toJson.pretty 0 ++ "\n")
      else
        (revised.value.writeFor settings.target settings.writeOptions).mapError (.script ∘ .write)
    ⟨output, revised.notes⟩

section

variable {m : Type → Type} [Monad m] [FileAccess m]

/-- Writes an output into a directory, under the last name in the path of its input. -/
def save (directory input text : String) : m (Except Failure Unit) := do
  match Path.baseName? input with
  | none => return .error (.noFileName input)
  | some name =>
    let path := Path.join directory name
    return (← FileAccess.write path text).mapError (.writing path)

/-- What an input becomes. -/
def renderInput (settings : Settings) (dumpTree : Bool) (input : String) :
    m (Noted (Except Failure String)) := do
  match ← FileAccess.read input with
  | .error e => return ⟨.error (.reading input e), []⟩
  | .ok text => return render settings dumpTree text

/-- Converts one input. -/
def runInput (settings : Settings) (dumpTree : Bool) (header : String) (directory : Option String)
    (tally : Tally) (input : String) : m Tally := do
  let noted ← renderInput settings dumpTree input
  let tally := { tally with warnings := tally.warnings ++ noted.notes }
  let result : Except Failure String ← match noted.value, directory with
    | .error e, _ => pure (.error e)
    | .ok text, none => pure (.ok (header ++ text))
    | .ok text, some directory => do
      pure ((← save directory input (header ++ text)).map fun _ => "")
  match result with
  | .ok text =>
    return { tally with combined := tally.combined ++ text, succeeded := tally.succeeded + 1 }
  | .error e =>
    return { tally with
      failed := tally.failed ++ [input]
      complaints := tally.complaints ++ "✗ " ++ input ++ ": " ++ e.message ++ "\n" }

/-! ## Settings -/

variable [SettingsFormat]

/-- The name of the settings file of a project. -/
def projectSettings : String := "chameleon.toml"

/-- The settings in a file. -/
def loadSettings (path : String) : m (Except Failure Settings) := do
  match ← FileAccess.read path with
  | .error e => return .error (.settingsFile e)
  | .ok text =>
    match SettingsFormat.read? text with
    | some settings => return .ok settings
    | none => return .error (.settings path)

/-- The settings file that a run uses: the one it is told, or else that of the project, or else that
of the user. -/
def settingsFile? (told : Option String) : m (Option String) := do
  match told with
  | some path => return some path
  | none =>
    if ← FileAccess.isFile (m := m) projectSettings then
      return some projectSettings
    else
      match ← FileAccess.settingsDirectory? with
      | none => return none
      | some directory =>
        let path := Path.join (Path.join directory "chameleon") "config.toml"
        if ← FileAccess.isFile path then return some path else return none

/-- The settings of a run. -/
def settingsOf (a : Arguments) : m (Except Failure Settings) := do
  match ← settingsFile? a.config with
  | none => return .ok (Settings.override {} a)
  | some path => return (← loadSettings path).map fun s => s.override a

/-- The text that stands before every output. -/
def headerOf (s : Settings) : m (Except Failure String) := do
  match s.header with
  | none => return .ok ""
  | some path => return (← FileAccess.read path).mapError .header

/-! ## Runs -/

/-- What is said at the end of a run. -/
def Tally.summary (t : Tally) (verbose : Bool) : String :=
  "(succeeded: " ++ toString t.succeeded ++ ", failed: " ++ toString t.failed.length ++
    ", warnings: " ++ toString t.warnings.length ++ ")\n" ++
  (if t.failed.isEmpty then ""
   else "Failed:\n" ++ String.join (t.failed.map fun input => "  " ++ input ++ "\n")) ++
  (if verbose && !t.warnings.isEmpty then "Optimizer report:\n" ++ Warning.report t.warnings
   else "")

/-- The outcome of a run that a failure ends: every input counts as failed. -/
def aborted (a : Arguments) (complaints : String) (e : Failure) : Outcome :=
  { stderr := complaints ++ "Error: " ++ e.message ++ "\n", code := a.inputs.length }

/-- A run on the inputs of the arguments. -/
def runBatch (a : Arguments) : m Outcome := do
  match ← settingsOf a with
  | .error e => return aborted a "" e
  | .ok settings =>
    match ← headerOf settings with
    | .error e => return aborted a "" e
    | .ok header =>
      let directory ← match a.output with
        | some path => do if ← FileAccess.isDirectory path then pure (some path) else pure none
        | none => pure none
      let tally ← a.inputs.foldlM (runInput settings a.dumpTree header directory) {}
      let finished (stdout : String) : Outcome :=
        { stdout, stderr := tally.complaints ++ tally.summary a.verbose,
          code := tally.failed.length }
      match directory, a.output with
      | some _, _ => return finished ""
      | none, none => return finished tally.combined
      | none, some path =>
        match ← FileAccess.write path tally.combined with
        | .ok _ => return finished ""
        | .error e => return aborted a tally.complaints (.writing path e)

end

end SchemaScript
