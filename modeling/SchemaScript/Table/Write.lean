import SchemaScript.Table.Basic
import SchemaScript.Value.Write

/-!
# Writing tables

A node written at column `n` starts its own line at `n`, or, if it hangs off a column of a table,
starts a new line one step to the right of `n`. What is nested in it goes one more step to the
right.

* `Writer.storage`, `Writer.onDelete`, `Writer.columnClause`, `Writer.tableConstraint` — the parts.
* `Writer.column` — a column, its name padded to a width.
* `Writer.table` — a table.
-/

set_option autoImplicit false

namespace SchemaScript

namespace Writer

open Text (indent)

/-- A new line that starts at a column. -/
def newLine (n : Nat) : String := "\n" ++ indent n

/-- Names with commas between them, in parentheses. -/
def names (columns : List String) : String := "(" ++ ", ".intercalate columns ++ ")"

/-- The name of a constraint that has one, and what stands between it and the constraint. -/
def constraintName (name : Option String) (gap : String) : String :=
  match name with
  | some name => "CONSTRAINT " ++ name ++ gap
  | none => ""

/-! ## Options -/

/-- A storage option. -/
def storage (w : Writer) (n : Nat) (s : Storage) : Written :=
  w.write s.kind fun layout =>
    match layout, s with
    | .tablespace, .tablespace name => .ok (newLine n ++ "TABLESPACE " ++ name)
    | .indexTablespace, .indexTablespace name => .ok (newLine n ++ "USING INDEX TABLESPACE " ++ name)
    | .logging, .logging enabled => .ok (newLine n ++ if enabled then "LOGGING" else "NOLOGGING")
    | .parallel, .parallel false _ => .ok (newLine n ++ "NOPARALLEL")
    | .parallel, .parallel true none => .ok (newLine n ++ "PARALLEL")
    | .parallel, .parallel true (some degree) => .ok (newLine n ++ "PARALLEL " ++ degree)
    | .rowMovement, .rowMovement enabled =>
      .ok (newLine n ++ (if enabled then "ENABLE" else "DISABLE") ++ " ROW MOVEMENT")
    | .onCommit, .onCommit preserve =>
      .ok (newLine n ++ "ON COMMIT " ++ (if preserve then "PRESERVE" else "DELETE") ++ " ROWS")
    | layout, s => refuse layout s.kind

/-- Storage options, one after the other. -/
def storages (w : Writer) (n : Nat) (options : List Storage) : Written := do
  return String.join (← options.mapM (w.storage n))

/-- A delete rule. -/
def onDelete (w : Writer) (n : Nat) (rule : OnDelete) : Written :=
  w.write rule.kind fun
    | .onDelete =>
      let action := match rule with
        | .cascade => "CASCADE"
        | .setNull => "SET NULL"
      .ok (newLine (n + tab) ++ "ON DELETE " ++ action)
    | layout => refuse layout rule.kind

/-! ## Clauses -/

/-- What a foreign key points at, and the rules it sets. -/
def references (w : Writer) (n : Nat) (key : ForeignKey) : Written := do
  let rule ← match key.onDelete with
    | some rule => pure (" " ++ (← w.onDelete (n + tab) rule))
    | none => pure ""
  let deferrable := key.deferrable || (w.options.deferrable && w.dialect.writesDeferrable)
  return "REFERENCES " ++ key.target.table ++ " " ++ names key.target.columns ++ rule ++
    if deferrable then " DEFERRABLE" else ""

/-- A condition. -/
def condition (w : Writer) (check : Check) : Written := do
  return "CHECK (" ++ (← w.term (.expression check.condition)) ++ ")"

/-- A type, in capital letters. -/
def typeName (t : DataType) : String :=
  Text.upper t.name ++
    match t.precision with
    | some precision => "(" ++ precision ++ ")"
    | none => ""

/-- A primary key or uniqueness clause of a column. A name puts it on a line of its own. -/
def columnKey (w : Writer) (n : Nat) (words : String) (key : Key) : Written := do
  let opening := if key.name.isSome then newLine (n + tab) else ""
  return opening ++ constraintName key.name " " ++ words ++ (← w.storages (n + tab) key.storage)

/-- A clause of a column. -/
def columnClause (w : Writer) (n : Nat) (clause : ColumnClause) : Written :=
  w.write clause.kind fun layout =>
    match layout, clause with
    | .dataType, .dataType t => .ok (typeName (w.dialect.nativeType t))
    | .defaultValue, .defaultValue value => do
      return newLine (n + tab) ++ "DEFAULT (" ++ (← w.term value) ++ ")"
    | .notNull, .notNull name => .ok (constraintName name " " ++ "NOT NULL")
    | .columnPrimaryKey, .primaryKey key => w.columnKey n "PRIMARY KEY" key
    | .columnUnique, .unique key => w.columnKey n "UNIQUE" key
    | .columnForeignKey, .foreignKey key => do
      return newLine (n + tab) ++ constraintName key.name (newLine (n + 2 * tab)) ++
        (← w.references n key)
    | .columnCheck, .check check => do
      return newLine (n + tab) ++ constraintName check.name (newLine (n + 2 * tab)) ++
        (← w.condition check)
    | layout, clause => refuse layout clause.kind

/-! ## Table constraints -/

/-- A primary key or uniqueness constraint of a table. -/
def tableKey (w : Writer) (n : Nat) (words : String) (key : Key) (columns : List String) :
    Written := do
  let options ← key.storage.mapM (w.storage (n + tab))
  let written := (options.filter (· ≠ "")).map (" " ++ ·)
  return indent n ++ constraintName key.name " " ++ words ++ " " ++ names columns ++
    String.join written

/-- A constraint of a table. -/
def tableConstraint (w : Writer) (n : Nat) (constraint : TableConstraint) : Written :=
  w.write constraint.kind fun layout =>
    match layout, constraint with
    | .primaryKey, .primaryKey key columns => w.tableKey n "PRIMARY KEY" key columns
    | .unique, .unique key columns => w.tableKey n "UNIQUE" key columns
    | .foreignKey, .foreignKey key columns => do
      return indent n ++ constraintName key.name " " ++ "FOREIGN KEY " ++ names columns ++
        newLine (n + tab) ++ (← w.references n key)
    | .check, .check check => do
      return indent n ++ constraintName check.name (newLine (n + tab)) ++ (← w.condition check)
    | layout, constraint => refuse layout constraint.kind

/-! ## Columns and tables -/

/-- The clauses of a column: the first at column `n`, the others under the type, which stands
`width` further right. -/
def columnClauses (w : Writer) (n width : Nat) : List ColumnClause → Except WriteError (List String)
  | [] => .ok []
  | first :: others => do
    let text ← w.columnClause n first
    return text :: (← others.mapM (w.columnClause (n + width)))

/-- A column, with its name padded to a width and its clauses in the order of the dialect. At least
one space follows the name. -/
def column (w : Writer) (n width : Nat) (c : Column) : Written :=
  w.write .column fun
    | .column => do
      let clauses ← w.columnClauses n width (← w.sorted ColumnClause.kind c.clauses)
      return indent n ++ c.name ++ indent (max (width - c.name.length) 1) ++ " ".intercalate clauses
    | layout => refuse layout .column

/-- The width that the names of columns are padded to: two more than the widest, and the
indentation. -/
def margin (n : Nat) (columns : List Column) : Nat :=
  (columns.map fun c => c.name.length).foldl max 0 + n + 2

/-- A table. -/
def table (w : Writer) (n : Nat) (t : Table) : Written :=
  w.write .table fun
    | .table => do
      let columns ← t.columns.mapM (w.column (n + tab) (margin n t.columns))
      let constraints ← t.constraints.mapM (w.tableConstraint (n + tab))
      let options ← w.storages n t.storage
      return "CREATE " ++ (if t.isGlobal then "GLOBAL " else "") ++
        (if t.temporary then "TEMPORARY " else "") ++ "TABLE " ++ t.name ++ "\n(\n" ++
        ",\n".intercalate (columns ++ constraints) ++ "\n)" ++ options ++ "\n;"
    | layout => refuse layout .table

end Writer

end SchemaScript
