import SchemaScript.Script.Basic

/-!
# The catalog of a script

Where the statements of a script stand, by what they create.

* `Places` — positions under names. A name entered again gets the later position.
* `Catalog`, `Script.catalog` — the positions of the statements of a script.
* `Catalog.table?`, `Catalog.index?`, `Catalog.sequence?` — the position of the last statement that
  creates something of a name.
-/

set_option autoImplicit false

namespace SchemaScript

/-- Positions under names in lower case, each name once. -/
abbrev Places := List (String × Nat)

namespace Places

/-- Enters a position under a name, in the place of any that it had. -/
def enter (places : Places) (name : String) (position : Nat) : Places :=
  (Text.lower name, position) :: places.filter fun entry => entry.1 ≠ Text.lower name

/-- The position under a name, without regard to letter case. -/
def find? (places : Places) (name : String) : Option Nat := places.lookup (Text.lower name)

end Places

/-- The positions of the statements of a script, by what they create. -/
structure Catalog where
  tables : Places := []
  indexes : Places := []
  sequences : Places := []
  synonyms : List Nat := []
  /-- The statements that create nothing. -/
  others : List Nat := []
  deriving DecidableEq, Repr

namespace Catalog

/-- A catalog with the statement at one more position. -/
def add (c : Catalog) (position : Nat) : Statement → Catalog
  | .table t => { c with tables := c.tables.enter t.name position }
  | .index i => { c with indexes := c.indexes.enter i.name position }
  | .sequence s => { c with sequences := c.sequences.enter s.name position }
  | .synonym _ => { c with synonyms := c.synonyms ++ [position] }
  | _ => { c with others := c.others ++ [position] }

/-- The position of the last table of a name. -/
def table? (c : Catalog) (name : String) : Option Nat := c.tables.find? name

/-- The position of the last index of a name. -/
def index? (c : Catalog) (name : String) : Option Nat := c.indexes.find? name

/-- The position of the last sequence of a name. -/
def sequence? (c : Catalog) (name : String) : Option Nat := c.sequences.find? name

end Catalog

/-- The positions of the statements of a script. -/
def Script.catalog (s : Script) : Catalog :=
  s.statements.zipIdx.foldl (fun c (statement, position) => c.add position statement) {}

end SchemaScript
