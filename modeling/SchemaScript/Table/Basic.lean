import SchemaScript.Value.Basic

/-!
# Tables

* `Storage` — options on where and how rows are kept.
* `Key`, `ForeignKey`, `Check` — the clauses a table constraint and a column share.
* `TableConstraint` — a clause on a list of columns of a table.
* `ColumnClause`, `Column` — what follows a column's name, in the order of `ColumnClause.rank`.
* `Table` — columns, constraints and storage options under a name.
-/

set_option autoImplicit false

namespace SchemaScript

/-- An option on where and how rows are kept, of a table, an index or a key. -/
inductive Storage where
  | tablespace (name : String)
  | indexTablespace (name : String)
  | logging (enabled : Bool)
  | parallel (enabled : Bool) (degree : Option String)
  | rowMovement (enabled : Bool)
  | onCommit (preserve : Bool)
  deriving DecidableEq, Repr

/-- The kind of a storage option. -/
def Storage.kind : Storage → Kind
  | .tablespace _ => .tablespace
  | .indexTablespace _ => .indexTablespace
  | .logging _ => .logging
  | .parallel _ _ => .parallel
  | .rowMovement _ => .rowMovement
  | .onCommit _ => .onCommit

/-- A column type. The precision is kept as it is written, `10` or `10,2`. -/
structure DataType where
  name : String
  precision : Option String := none
  deriving DecidableEq, Repr

/-! ## Clauses -/

/-- A primary key or a uniqueness clause. -/
structure Key where
  name : Option String := none
  storage : List Storage := []
  deriving DecidableEq, Repr

/-- The columns that a foreign key points at. -/
structure Reference where
  table : String
  columns : List String
  deriving DecidableEq, Repr

/-- What happens to a row when the row it points at is deleted. -/
inductive OnDelete where
  | cascade
  | setNull
  deriving DecidableEq, Repr

/-- The kind of a delete rule. -/
def OnDelete.kind : OnDelete → Kind
  | .cascade => .onDeleteCascade
  | .setNull => .onDeleteSetNull

/-- A foreign key. -/
structure ForeignKey where
  name : Option String := none
  target : Reference
  onDelete : Option OnDelete := none
  deferrable : Bool := false
  deriving DecidableEq, Repr

/-- A condition that every row meets. -/
structure Check where
  name : Option String := none
  condition : Expression
  deriving DecidableEq, Repr

/-! ## Table constraints -/

/-- A constraint of a table, with the columns it covers. -/
inductive TableConstraint where
  | primaryKey (key : Key) (columns : List String)
  | unique (key : Key) (columns : List String)
  | foreignKey (key : ForeignKey) (columns : List String)
  | check (check : Check)
  deriving DecidableEq, Repr

namespace TableConstraint

/-- The kind of a table constraint. -/
def kind : TableConstraint → Kind
  | .primaryKey _ _ => .primaryKey
  | .unique _ _ => .unique
  | .foreignKey _ _ => .foreignKey
  | .check _ => .check

/-- The name of a constraint that has one. -/
def name? : TableConstraint → Option String
  | .primaryKey key _ => key.name
  | .unique key _ => key.name
  | .foreignKey key _ => key.name
  | .check c => c.name

/-- The columns of its table that a constraint lists. A check lists none. -/
def columns : TableConstraint → List String
  | .primaryKey _ columns => columns
  | .unique _ columns => columns
  | .foreignKey _ columns => columns
  | .check _ => []

end TableConstraint

/-! ## Columns -/

/-- What may follow the name of a column. -/
inductive ColumnClause where
  | dataType (type : DataType)
  | defaultValue (value : Term)
  | notNull (name : Option String)
  | primaryKey (key : Key)
  | unique (key : Key)
  | foreignKey (key : ForeignKey)
  | check (check : Check)
  deriving DecidableEq, Repr

namespace ColumnClause

/-- The kind of a column clause. -/
def kind : ColumnClause → Kind
  | .dataType _ => .dataType
  | .defaultValue _ => .defaultValue
  | .notNull _ => .notNull
  | .primaryKey _ => .columnPrimaryKey
  | .unique _ => .columnUnique
  | .foreignKey _ => .columnForeignKey
  | .check _ => .columnCheck

/-- The place of a clause among the clauses of a column. -/
def rank (clause : ColumnClause) : Nat := Kind.columnClauses.idxOf clause.kind

/-- Whether a clause makes its column the primary key. -/
def isPrimaryKey : ColumnClause → Bool
  | .primaryKey _ => true
  | _ => false

/-- The type that a clause states. -/
def dataType? : ColumnClause → Option DataType
  | .dataType type => some type
  | _ => none

/-- The foreign key that a clause states. -/
def foreignKey? : ColumnClause → Option ForeignKey
  | .foreignKey key => some key
  | _ => none

end ColumnClause

/-- A column. `table` names the table it belongs to, and is empty while it belongs to none. -/
structure Column where
  name : String
  table : String := ""
  clauses : List ColumnClause
  deriving DecidableEq, Repr

namespace Column

/-- A column of no table, with its clauses put in the order of `ColumnClause.rank`. Clauses of one
rank keep their order. -/
def ofClauses (name : String) (clauses : List ColumnClause) : Column :=
  { name, clauses := clauses.mergeSort fun a b => a.rank ≤ b.rank }

/-- The type of a column that states one. -/
def dataType? (column : Column) : Option DataType := column.clauses.findSome? ColumnClause.dataType?

/-- The foreign keys of a column. -/
def foreignKeys (column : Column) : List ForeignKey :=
  column.clauses.filterMap ColumnClause.foreignKey?

/-- Whether a column is the primary key of its table. -/
def hasPrimaryKey (column : Column) : Bool := column.clauses.any ColumnClause.isPrimaryKey

end Column

/-! ## Tables -/

/-- A table. -/
structure Table where
  name : String
  isGlobal : Bool := false
  temporary : Bool := false
  columns : List Column := []
  constraints : List TableConstraint := []
  storage : List Storage := []
  deriving DecidableEq, Repr

namespace Table

/-- A table with one more column, which then belongs to it. -/
def addColumn (table : Table) (column : Column) : Table :=
  { table with columns := table.columns ++ [{ column with table := table.name }] }

/-- A table with one more constraint. -/
def addConstraint (table : Table) (constraint : TableConstraint) : Table :=
  { table with constraints := table.constraints ++ [constraint] }

/-- A table with more storage options. -/
def addStorage (table : Table) (storage : List Storage) : Table :=
  { table with storage := table.storage ++ storage }

/-- Whether a table has a column of a name, without regard to letter case. -/
def hasColumn (table : Table) (name : String) : Bool :=
  table.columns.any fun c => Text.sameName c.name name

end Table

end SchemaScript
