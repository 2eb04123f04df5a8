import SchemaScript.Dialect.Target
import SchemaScript.Revision.Level
import SchemaScript.Script.Read
import SchemaScript.Script.Write

/-!
# Converting scripts

* `ScriptError` — why a text cannot be converted.
* `convert` — a text read as a script, revised, and written for a target.
-/

set_option autoImplicit false

namespace SchemaScript

/-- Why a script cannot be read or written. -/
inductive ScriptError where
  | read (error : ReadError)
  | write (error : WriteError)
  deriving DecidableEq, Repr

/-- What is said of a script that cannot be read or written. -/
def ScriptError.message : ScriptError → String
  | .read e => e.message
  | .write e => e.message

/-- A script written for a target. -/
def Script.writeFor (target : Target) (options : WriteOptions) (s : Script) : Written := do
  (← Writer.ofDialect target.dialect options).script s

/-- A text read as a script, revised, and written for a target, with the warnings of the
revision. -/
def convert (level : Level) (target : Target) (options : WriteOptions) (text : String) :
    Except ScriptError (Noted String) := do
  let script ← (Script.parse text).mapError .read
  let revised := script.revise level
  let written ← (revised.value.writeFor target options).mapError .write
  return ⟨written, revised.notes⟩

end SchemaScript
