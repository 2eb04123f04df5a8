import SchemaScript.Revision.Constraints
import SchemaScript.Revision.Indexes

/-!
# Levels of revision

* `Level` — how much of a script is revised.
* `Script.revise` — a script revised, with a warning for each change.
-/

set_option autoImplicit false

namespace SchemaScript

/-- How much of a script is revised. -/
inductive Level where
  /-- Nothing. -/
  | none
  /-- Changes are folded into what they change. -/
  | basic
  /-- And constraints are put in order, and superfluous indexes removed. -/
  | best
  deriving DecidableEq, Repr, Inhabited

namespace Level

/-- What a level is called. -/
def name : Level → String
  | .none => "none"
  | .basic => "basic"
  | .best => "best"

/-- The level of a name, without regard to letter case. -/
def ofName? (name : String) : Option Level :=
  match Text.lower name with
  | "none" => some .none
  | "basic" => some .basic
  | "best" => some .best
  | _ => Option.none

/-- What is said of a name that no level has. -/
def unknownMessage (name : String) : String :=
  "optimizer \"" ++ name ++ "\", not-valid (none|basic|best)"

end Level

/-- A script revised. -/
def Script.revise (level : Level) (s : Script) : Noted Script :=
  match level with
  | .none => pure s
  | .basic => s.foldAlterations
  | .best => do
    let s ← s.foldAlterations
    let s ← s.normalizeTables
    s.dropIndexes

end SchemaScript
