import SchemaScript.Revision.Warning
import SchemaScript.Script.Basic

/-!
# Putting constraints in order

* `Table.attachConstraints` — constraints on one column become clauses of it.
* `Column.dropImplied` — a primary key makes not-null and uniqueness clauses superfluous.
* `Column.nameClauses` — foreign keys, checks and uniqueness clauses get names.
* `Column.unnameNotNull` — not-null clauses lose theirs.
* `Script.normalizeTables` — all of these, table by table and column by column.
-/

set_option autoImplicit false

namespace SchemaScript

/-! ## Constraints on one column -/

namespace TableConstraint

/-- The column that a constraint is on alone, and the word for the constraint. A check is such a
constraint if it forbids a column to be null. -/
def attachment? : TableConstraint → Option (String × String)
  | .primaryKey _ [column] => some ("pk", column)
  | .foreignKey _ [column] => some ("fk", column)
  | .unique _ [column] => some ("unique", column)
  | .check c => c.condition.notNullColumn?.map ("not null", ·)
  | _ => none

/-- The clause that a constraint on one column becomes. -/
def toColumnClause : TableConstraint → ColumnClause
  | .primaryKey key _ => .primaryKey key
  | .unique key _ => .unique key
  | .foreignKey key _ => .foreignKey key
  | .check c => .notNull c.name

end TableConstraint

/-- Columns with one more clause for the first of a name. -/
def Column.addClauseIn (name : String) (clause : ColumnClause) : List Column → List Column
  | [] => []
  | c :: cs =>
    if Text.sameName c.name name then { c with clauses := c.clauses ++ [clause] } :: cs
    else c :: addClauseIn name clause cs

namespace Table

/-- A table with one more clause for its column of a name. -/
def addClause (t : Table) (column : String) (clause : ColumnClause) : Table :=
  { t with columns := Column.addClauseIn column clause t.columns }

/-- A table with one more constraint, which becomes a clause if it is on one column of the table
alone. -/
def attach (t : Table) (constraint : TableConstraint) : Noted Table :=
  match constraint.attachment? with
  | none => ⟨t.addConstraint constraint, []⟩
  | some (word, column) =>
    if t.hasColumn column then
      ⟨t.addClause column constraint.toColumnClause,
       [⟨.tableConstraintPromoted,
         [word, constraint.name?.getD Warning.anonymous, t.name, column]⟩]⟩
    else ⟨t.addConstraint constraint, []⟩

/-- A table whose constraints on one column have become clauses of it. -/
def attachConstraints (t : Table) : Noted Table :=
  t.constraints.foldlM attach { t with constraints := [] }

end Table

/-! ## Columns -/

namespace ColumnClause

/-- The warning that a clause is superfluous beside a primary key, if it is. -/
def implied? (table column : String) : ColumnClause → Option Warning
  | .notNull _ => some ⟨.redundantNotNull, [table, column]⟩
  | .unique key => some ⟨.redundantUnique, [key.name.getD Warning.anonymous, table, column]⟩
  | _ => none

/-- A clause with a name made of the name of its column, if it needs one. -/
def named (table column : String) (clause : ColumnClause) : Noted ColumnClause :=
  match clause with
  | .foreignKey { name := none, target, onDelete, deferrable } =>
    ⟨.foreignKey { name := some (column ++ "_fk"), target, onDelete, deferrable },
     [⟨.anonymousConstraint, ["fk", table, column]⟩]⟩
  | .check { name := none, condition } =>
    ⟨.check { name := some (column ++ "_ck"), condition },
     [⟨.anonymousConstraint, ["check", table, column]⟩]⟩
  | .unique { name := none, storage } =>
    ⟨.unique { name := some (column ++ "_uq"), storage },
     [⟨.anonymousConstraint, ["unique", table, column]⟩]⟩
  | clause => ⟨clause, []⟩

/-- A clause without its name, if it only forbids its column to be null. -/
def unnamed (table column : String) (clause : ColumnClause) : Noted ColumnClause :=
  match clause with
  | .notNull (some name) => ⟨.notNull none, [⟨.namedNotNull, [name, table, column]⟩]⟩
  | clause => ⟨clause, []⟩

end ColumnClause

namespace Column

/-- A column without the clauses that its primary key implies. -/
def dropImplied (table : String) (c : Column) : Noted Column :=
  if c.hasPrimaryKey then
    ⟨{ c with clauses := c.clauses.filter fun m => (m.implied? table c.name).isNone },
     c.clauses.filterMap (ColumnClause.implied? table c.name)⟩
  else ⟨c, []⟩

/-- A column whose foreign keys, checks and uniqueness clauses all have names. -/
def nameClauses (table : String) (c : Column) : Noted Column := do
  return { c with clauses := ← c.clauses.mapM (ColumnClause.named table c.name) }

/-- A column whose not-null clauses have no names. -/
def unnameNotNull (table : String) (c : Column) : Noted Column := do
  return { c with clauses := ← c.clauses.mapM (ColumnClause.unnamed table c.name) }

/-- A column of a table with its clauses in order. -/
def normalize (table : String) (c : Column) : Noted Column := do
  let c ← c.dropImplied table
  let c ← c.nameClauses table
  c.unnameNotNull table

end Column

/-! ## Tables -/

/-- A table with its constraints and the clauses of its columns in order. -/
def Table.normalize (t : Table) : Noted Table := do
  let t ← t.attachConstraints
  return { t with columns := ← t.columns.mapM (Column.normalize t.name) }

/-- A statement with its constraints in order, if it creates a table. -/
def Statement.normalize : Statement → Noted Statement
  | .table t => do return .table (← t.normalize)
  | s => pure s

/-- A script with the constraints of its tables in order. -/
def Script.normalizeTables (s : Script) : Noted Script := do
  return ⟨← s.statements.mapM Statement.normalize⟩

end SchemaScript
