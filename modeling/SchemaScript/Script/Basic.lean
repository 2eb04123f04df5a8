import SchemaScript.Statement.Basic

/-!
# Scripts

A script is a list of statements in the order in which they take effect.

* `Script.tables`, `Script.indexes`, `Script.sequences`, `Script.synonyms` — what it creates.
* `Script.table?`, `Script.index?` — the first table or index of a name.
-/

set_option autoImplicit false

namespace SchemaScript

/-- A schema script. -/
structure Script where
  statements : List Statement := []
  deriving DecidableEq, Repr

namespace Script

/-- The tables a script creates. -/
def tables (s : Script) : List Table := s.statements.filterMap Statement.table?

/-- The indexes a script creates. -/
def indexes (s : Script) : List Index := s.statements.filterMap Statement.index?

/-- The sequences a script creates. -/
def sequences (s : Script) : List Sequence := s.statements.filterMap Statement.sequence?

/-- The synonyms a script creates. -/
def synonyms (s : Script) : List Synonym := s.statements.filterMap Statement.synonym?

/-- The first table of a name, without regard to letter case. -/
def table? (s : Script) (name : String) : Option Table :=
  s.tables.find? fun t => Text.sameName t.name name

/-- The first index of a name, without regard to letter case. -/
def index? (s : Script) (name : String) : Option Index :=
  s.indexes.find? fun i => Text.sameName i.name name

/-- One script after another. -/
def append (s t : Script) : Script := ⟨s.statements ++ t.statements⟩

end Script

end SchemaScript
