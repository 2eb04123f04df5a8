import SchemaScript.Batch.Run

/-!
# The program

Converts schema scripts between dialects, on the files of the disk.
-/

set_option autoImplicit false

namespace SchemaScript

/-- What is known of a failure of the disk. The system counts its errors up from zero, and some of
its calls down. -/
def FileError.ofDisk : IO.Error → FileError
  | .noFileOrDirectory .. => .notFound
  | .inappropriateType _ code _ =>
    if code = 20 ∨ 0 - code = 20 then .notDirectory else .isDirectory
  | .invalidArgument _ code _ =>
    if code = 36 ∨ 0 - code = 36 then .nameTooLong else .other "Invalid argument (os error 22)"
  | e => .other (toString e)

/-- The result of an action on a file of the disk, or why it failed. -/
def onDisk {α : Type} (path : String) (action : IO α) : IO (Except FileError α) := do
  if Path.hasNul path then return .error .nulInName
  try return .ok (← action)
  catch e => return .error (.ofDisk e)

instance : FileAccess IO where
  read path := onDisk path (IO.FS.readFile path)
  write path text := onDisk path (IO.FS.writeFile path text)
  isDirectory path := do ((← IO.currentDir) / path).isDir
  isFile path := do
    let place := (← IO.currentDir) / path
    return (← place.pathExists) && !(← place.isDir)
  settingsDirectory? := do
    match ← IO.getEnv "XDG_CONFIG_HOME" with
    | some directory => return some directory
    | none => return (← IO.getEnv "HOME").map fun home => Path.join home ".config"

end SchemaScript

/-- Runs the program on the words of a command line. -/
def main (words : List String) : IO UInt32 := do
  let outcome ← match SchemaScript.Arguments.parse words with
    | .ok arguments => SchemaScript.runBatch arguments
    | .error stop => pure stop.outcome
  (← IO.getStdout).putStr outcome.stdout
  (← IO.getStderr).putStr outcome.stderr
  return outcome.status.toUInt32
