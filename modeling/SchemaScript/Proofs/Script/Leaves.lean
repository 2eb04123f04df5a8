import SchemaScript.Proofs.Value.Native
import SchemaScript.Script.Basic

/-!
# The leaves of a script

What a dialect may write in its own way, collected from all over a script.

* `Leaf` — a type, a value, a condition, an option, a foreign key, a synonym or a comment's text.
* `Script.leaves` — the leaves of a script, in order, and those of each node.
* `Script.dataTypes`, `Script.literals`, `Script.calls`, `Script.texts` — some of them.
-/

set_option autoImplicit false

namespace SchemaScript

/-- A part of a script that a dialect may write in its own way. -/
inductive Leaf where
  | dataType (type : DataType)
  | value (value : Term)
  | condition (terms : Expression)
  | storage (storage : Storage)
  | foreignKey (key : ForeignKey)
  | sequenceOption (option : SequenceOption)
  /-- A synonym that is created or dropped. -/
  | synonym
  /-- The text of a comment. -/
  | text (text : String)
  deriving DecidableEq, Repr

namespace Leaf

/-- The literals of a leaf. -/
def literals : Leaf → List String
  | .value x => x.literals
  | .condition ts => Term.rowLiterals ts
  | _ => []

/-- The calls of a leaf, each with its function and arguments. -/
def calls : Leaf → List (String × List Term)
  | .value x => x.calls
  | .condition ts => Term.rowCalls ts
  | _ => []

/-- The type that a leaf is. -/
def dataType? : Leaf → Option DataType
  | .dataType t => some t
  | _ => none

/-- The text of a comment that a leaf is. -/
def text? : Leaf → Option String
  | .text s => some s
  | _ => none

end Leaf

/-! ## Tables -/

/-- The leaves of a key. -/
def Key.leaves (key : Key) : List Leaf := key.storage.map .storage

/-- The leaves of a column clause. -/
def ColumnClause.leaves : ColumnClause → List Leaf
  | .dataType t => [.dataType t]
  | .defaultValue x => [.value x]
  | .notNull _ => []
  | .primaryKey key | .unique key => key.leaves
  | .foreignKey key => [.foreignKey key]
  | .check c => [.condition c.condition]

/-- The leaves of a column. -/
def Column.leaves (c : Column) : List Leaf := c.clauses.flatMap ColumnClause.leaves

/-- The leaves of a table constraint. -/
def TableConstraint.leaves : TableConstraint → List Leaf
  | .primaryKey key _ | .unique key _ => key.leaves
  | .foreignKey key _ => [.foreignKey key]
  | .check c => [.condition c.condition]

/-- The leaves of a table. -/
def Table.leaves (t : Table) : List Leaf :=
  t.columns.flatMap Column.leaves ++ t.constraints.flatMap TableConstraint.leaves ++
    t.storage.map .storage

/-! ## Statements -/

/-- The leaves of a drop. -/
def Drop.leaves (d : Drop) : List Leaf := if d.object = .synonym then [.synonym] else []

/-- The leaves of what is added to a table. -/
def Addition.leaves : Addition → List Leaf
  | .column c => c.leaves
  | .constraint c => c.leaves
  | .storage s => [.storage s]

/-- The leaves of what is changed of a table. -/
def Modification.leaves : Modification → List Leaf
  | .rename _ => []
  | .modify columns => columns.flatMap Column.leaves
  | .storage s => [.storage s]

/-- The leaves of a change to a table. -/
def AlterTable.leaves (a : AlterTable) : List Leaf :=
  a.adds.flatMap Addition.leaves ++ a.mods.flatMap Modification.leaves ++
    a.drops.flatMap Drop.leaves

/-- The leaves of a comment. -/
def Comment.leaves : Comment → List Leaf
  | .table _ text | .column _ _ text => [.text text]

/-- The leaves of a statement. -/
def Statement.leaves : Statement → List Leaf
  | .table t => t.leaves
  | .index i => i.storage.map .storage
  | .sequence s => s.options.map .sequenceOption
  | .synonym _ => [.synonym]
  | .alterTable a => a.leaves
  | .alterIndex a => a.storage.map .storage
  | .drop d => d.leaves
  | .comment c => c.leaves
  | .insert i => i.values.map .value
  | .commit | .inclusion _ => []

namespace Script

/-- The leaves of a script. -/
def leaves (s : Script) : List Leaf := s.statements.flatMap Statement.leaves

/-- The types of a script. -/
def dataTypes (s : Script) : List DataType := s.leaves.filterMap Leaf.dataType?

/-- The literals of a script. -/
def literals (s : Script) : List String := s.leaves.flatMap Leaf.literals

/-- The calls of a script, each with its function and arguments. -/
def calls (s : Script) : List (String × List Term) := s.leaves.flatMap Leaf.calls

/-- The texts of the comments of a script. -/
def texts (s : Script) : List String := s.leaves.filterMap Leaf.text?

end Script

end SchemaScript
