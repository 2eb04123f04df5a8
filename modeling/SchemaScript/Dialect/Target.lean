import SchemaScript.Dialect.Oracle
import SchemaScript.Dialect.Postgres

/-!
# Targets

The dialects that a script can be written in, by name.

* `Target`, `Target.dialect` — the choice, and what is chosen.
* `Target.ofName?` — the target of a name, `postgresql` being another name of `postgres`.
-/

set_option autoImplicit false

namespace SchemaScript

/-- A dialect that can be asked for by name. -/
inductive Target where
  | oracle
  | postgres
  deriving DecidableEq, Repr, Inhabited

namespace Target

/-- What a target is called. -/
def name : Target → String
  | .oracle => "oracle"
  | .postgres => "postgres"

/-- The dialect of a target. -/
def dialect : Target → Dialect
  | .oracle => .oracle
  | .postgres => .postgres

/-- The target of a name, without regard to letter case. -/
def ofName? (name : String) : Option Target :=
  match Text.lower name with
  | "oracle" => some .oracle
  | "postgres" => some .postgres
  | "postgresql" => some .postgres
  | _ => none

/-- What is said of a name that no target has. -/
def unknownMessage (name : String) : String :=
  "style \"" ++ name ++ "\", not-valid (oracle|postgres)"

end Target

end SchemaScript
