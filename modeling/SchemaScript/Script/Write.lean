import SchemaScript.Script.Basic
import SchemaScript.Statement.Write

/-!
# Writing scripts

* `Writer.script` — the statements of a script that come out non-empty, with an empty line between
  them and a newline at the end.
-/

set_option autoImplicit false

namespace SchemaScript

namespace Writer

/-- The statements of a script in the order in which they are written. -/
def ordered (w : Writer) (s : Script) : Except WriteError (List Statement) :=
  if w.options.sort then w.sorted Statement.kind s.statements else .ok s.statements

/-- A script. If none of its statements is written, neither is it. -/
def script (w : Writer) (s : Script) : Written := do
  let texts ← (← w.ordered s).mapM (w.statement 0)
  match texts.filter (· ≠ "") with
  | [] => return ""
  | blocks => return "\n\n".intercalate blocks ++ "\n"

end Writer

end SchemaScript
