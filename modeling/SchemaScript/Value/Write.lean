import SchemaScript.Dialect.Writer
import SchemaScript.Text.Blank
import SchemaScript.Value.Basic

/-!
# Writing values and expressions

* `Writer.term`, `Writer.terms` — one value, and several.
-/

set_option autoImplicit false

namespace SchemaScript

namespace Writer

/-- A name with what stands in the parentheses behind it. -/
def withArguments (function : String) (args : List String) : String :=
  function ++ "(" ++ ", ".intercalate args ++ ")"

/-- Whether a function asks for the next value of a sequence. -/
def isNextValue (function : String) : Bool := Text.sameName function "nextval"

/-- A literal without the quotes around it. -/
def unquoted (literal : String) : String :=
  String.ofList (Text.trimChars (fun c => c == '\'' || c == '"') literal.toList)

mutual

/-- A value. -/
def term (w : Writer) : Term → Written
  | .literal text => w.write .literal fun
    | .literal => .ok (w.dialect.nativeLiteral text)
    | layout => refuse layout .literal
  | .call function args => w.write .function fun
    | .call => do return withArguments function (← w.terms args)
    | .sequenceCall =>
      if isNextValue function then
        match args with
        | .literal sequence :: _ => .ok (unquoted sequence ++ "." ++ function)
        | first :: _ => do return (← w.term first) ++ "." ++ function
        | [] => .ok (withArguments function [])
      else do return withArguments function (← w.terms args)
    | layout => refuse layout .function
  | .expression terms => w.write .expression fun
    | .expression => do return " ".intercalate (← w.terms terms)
    | layout => refuse layout .expression

/-- Several values. -/
def terms (w : Writer) : List Term → Except WriteError (List String)
  | [] => .ok []
  | t :: ts => do
    let text ← w.term t
    return text :: (← w.terms ts)

end

end Writer

end SchemaScript
