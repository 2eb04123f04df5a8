/-!
# Kinds of nodes

Every part of a script that can be written has a kind. Dialects say how each kind is written, and
in which order the statements of a sorted script and the clauses of a column come.

* `Kind`, `Kind.all` — the kinds.
* `Kind.statements`, `Kind.columnClauses` — those of whole statements, and of what may follow a
  column's name, in the order in which columns keep them.
* `Kind.tag` — what a kind is called in messages.
-/

set_option autoImplicit false

namespace SchemaScript

/-- The kinds of nodes of a script. -/
inductive Kind where
  -- statements
  | table
  | index
  | sequence
  | synonym
  | alterTable
  | alterIndex
  | drop
  | tableComment
  | columnComment
  | insert
  | commit
  | inclusion
  -- the body of a table
  | column
  | dataType
  | defaultValue
  | notNull
  | columnPrimaryKey
  | columnUnique
  | columnForeignKey
  | columnCheck
  | primaryKey
  | unique
  | foreignKey
  | check
  | onDeleteCascade
  | onDeleteSetNull
  -- options
  | tablespace
  | indexTablespace
  | logging
  | parallel
  | rowMovement
  | onCommit
  | startWith
  | order
  -- changes
  | rename
  | modify
  -- values
  | expression
  | function
  | literal
  deriving DecidableEq, Repr

namespace Kind

/-- Every kind. -/
def all : List Kind :=
  [.table, .index, .sequence, .synonym, .alterTable, .alterIndex, .drop, .tableComment,
   .columnComment, .insert, .commit, .inclusion, .column, .dataType, .defaultValue, .notNull,
   .columnPrimaryKey, .columnUnique, .columnForeignKey, .columnCheck, .primaryKey, .unique,
   .foreignKey, .check, .onDeleteCascade, .onDeleteSetNull, .tablespace, .indexTablespace,
   .logging, .parallel, .rowMovement, .onCommit, .startWith, .order, .rename, .modify,
   .expression, .function, .literal]

/-- The kinds of whole statements. -/
def statements : List Kind :=
  [.table, .index, .sequence, .synonym, .alterTable, .alterIndex, .drop, .tableComment,
   .columnComment, .insert, .commit, .inclusion]

/-- The kinds of what may follow a column's name, in the order in which a column keeps them. -/
def columnClauses : List Kind :=
  [.dataType, .defaultValue, .notNull, .columnPrimaryKey, .columnUnique, .columnForeignKey,
   .columnCheck]

/-- What a kind is called in messages. -/
def tag : Kind → String
  | .table => "Table"
  | .index => "Index"
  | .sequence => "Sequence"
  | .synonym => "Synonym"
  | .alterTable => "Alter.Table"
  | .alterIndex => "Alter.Index"
  | .drop => "Drop"
  | .tableComment => "TableComment"
  | .columnComment => "ColumnComment"
  | .insert => "Insert"
  | .commit => "Commit"
  | .inclusion => "Include"
  | .column => "Column"
  | .dataType => "Type"
  | .defaultValue => "Default"
  | .notNull => "NotNull"
  | .columnPrimaryKey => "PkMod"
  | .columnUnique => "UniqueMod"
  | .columnForeignKey => "FkMod"
  | .columnCheck => "CkMod"
  | .primaryKey => "PK"
  | .unique => "Unique"
  | .foreignKey => "FK"
  | .check => "Check"
  | .onDeleteCascade => "FK.Cascade"
  | .onDeleteSetNull => "FK.Setnull"
  | .tablespace => "Tablespace"
  | .indexTablespace => "TsMod"
  | .logging => "Logging"
  | .parallel => "Parallel"
  | .rowMovement => "RowMovement"
  | .onCommit => "OnCommit"
  | .startWith => "Sequence.StartWith"
  | .order => "Sequence.Order"
  | .rename => "Rename"
  | .modify => "Modify"
  | .expression => "Expression"
  | .function => "Function"
  | .literal => "Literal"

theorem mem_all (k : Kind) : k ∈ all := by cases k <;> decide

end Kind

end SchemaScript
