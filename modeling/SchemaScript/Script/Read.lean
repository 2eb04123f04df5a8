import SchemaScript.Script.Basic
import SchemaScript.Statement.Read
import SchemaScript.Token.Scan

/-!
# Reading scripts

* `readStatements` — the statements that a list of tokens holds.
* `ReadError` — why a text is no script, with the place.
* `Script.parse` — the script that a text holds. Stray characters of the text do no harm.
* `Script.parseNoting` — the same, with the stray characters.
-/

set_option autoImplicit false

namespace SchemaScript

/-- Statements up to the end of the tokens. -/
def readStatements : Reader (List Statement) :=
  Reader.repeatWhile (fun ts => !ts.isEmpty) Statement.read

/-- Why a text is no script. -/
inductive ReadError where
  /-- The token of this kind and value fits no rule; it stands at this line and column. -/
  | unexpected (line column : Nat) (kind value excerpt : String)
  /-- The text ends where something is still to come. -/
  | ended (expected : String)
  deriving DecidableEq, Repr

namespace ReadError

/-- What is said of a text that is no script. -/
def message : ReadError → String
  | .unexpected line column kind value excerpt =>
    "Syntax Error: \x7b" ++ kind ++ "\x7d \"" ++ value ++ "\" found at: " ++ toString line ++ ":" ++
      toString column ++ " snip: \"" ++ excerpt ++ "\""
  | .ended expected => "EOF encountered and not expected (expected " ++ expected ++ ")"

/-- A fault of the tokens of a text, with its place in the text. -/
def ofFault (text : String) : Fault → ReadError
  | .unexpected t =>
    .unexpected t.line (Text.columnAt text t.offset) t.kind.name t.value
      (Text.excerptAt text t.offset)
  | .ended expected => .ended expected

end ReadError

namespace Script

/-- The script that a list of tokens holds. -/
def ofTokens (ts : List Token) : Except Fault Script :=
  (readStatements.run ts).map fun (statements, _) => ⟨statements⟩

/-- The script that a text holds, and the stray characters of the text. -/
def parseNoting (text : String) : Except ReadError (Script × List StrayChar) :=
  let (tokens, strays) := tokenize text
  match ofTokens tokens with
  | .ok script => .ok (script, strays)
  | .error fault => .error (.ofFault text fault)

/-- The script that a text holds. -/
def parse (text : String) : Except ReadError Script := (parseNoting text).map Prod.fst

end Script

end SchemaScript
