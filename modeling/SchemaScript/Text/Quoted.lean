/-!
# Quoted literals

A single-quoted literal writes each quote of its content twice.

* `double`, `undouble` — the content as written, and as read back.
* `quoted` — a text as a single-quoted literal.
* `singleQuoted?` — a literal in either kind of quotes as a single-quoted one.
-/

set_option autoImplicit false

namespace SchemaScript.Text

/-- Every single quote written twice. -/
def double : List Char → List Char
  | [] => []
  | c :: cs => if c = '\'' then '\'' :: '\'' :: double cs else c :: double cs

/-- Every pair of single quotes read as one. -/
def undouble : List Char → List Char
  | '\'' :: '\'' :: cs => '\'' :: undouble cs
  | c :: cs => c :: undouble cs
  | [] => []

/-- A text as a single-quoted literal. -/
def quoted (s : String) : String := "'" ++ String.ofList (double s.toList) ++ "'"

/-- The single-quoted form of a literal that has quotes around it: single quotes stay as they
are, double quotes become single ones. Any other literal has none. -/
def singleQuoted? (literal : String) : Option String :=
  match literal.toList with
  | '\'' :: rest => if rest.getLast? = some '\'' then some literal else none
  | '"' :: rest => if rest.getLast? = some '"' then some (quoted (String.ofList rest.dropLast)) else none
  | _ => none

/-- A literal without its first and last character. -/
def unwrapped (literal : String) : List Char := literal.toList.tail.dropLast

theorem undouble_double (cs : List Char) : undouble (double cs) = cs := by
  induction cs with
  | nil => rfl
  | cons c cs ih =>
    by_cases h : c = '\''
    · simp [double, undouble, h, ih]
    · simp [double, undouble, h, ih]

end SchemaScript.Text
