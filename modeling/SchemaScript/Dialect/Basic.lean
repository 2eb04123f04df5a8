import SchemaScript.Dialect.Layout
import SchemaScript.Table.Basic

/-!
# Dialects

* `Dialect` — how a database's scripts are written: a treatment for each kind of node, an order of
  kinds, and the names of types and literals.
* `Dialect.shared` — what the dialects have in common.
* `Dialect.assign`, `Dialect.erase` — a dialect with another treatment of a kind, or with none.
* `Dialect.standardOrder` — drops first, then what is created, then changes and rows.
-/

set_option autoImplicit false

namespace SchemaScript

/-- How the scripts of a database are written. -/
structure Dialect where
  name : String
  /-- What is done with the nodes of a kind, if anything is said of them. -/
  treatment? : Kind → Option Treatment
  /-- The kinds in the order in which sorted statements, and the clauses of a column, come. -/
  order : List Kind
  /-- A type of any dialect as this one names it. -/
  nativeType : DataType → DataType := id
  /-- A bare literal of any dialect as this one writes it. -/
  nativeLiteral : String → String := id
  /-- Whether foreign keys can be marked as deferrable by an option of the writer. -/
  writesDeferrable : Bool := false

namespace Dialect

/-- Drops first, then what is created, then changes and rows. -/
def standardOrder : List Kind :=
  [.drop, .table, .column, .dataType, .defaultValue, .notNull, .columnPrimaryKey, .indexTablespace,
   .columnUnique, .columnForeignKey, .columnCheck, .primaryKey, .foreignKey, .unique, .check,
   .tableComment, .columnComment, .synonym, .index, .sequence, .alterTable, .alterIndex, .insert,
   .commit, .rename, .inclusion]

/-- The layouts of the kinds that every dialect writes alike. Storage options, synonyms and
inclusions are not among them. -/
def sharedLayout? : Kind → Option Layout
  | .table => some .table
  | .index => some .index
  | .sequence => some .sequence
  | .alterTable => some .alterTable
  | .alterIndex => some .alterIndex
  | .drop => some .drop
  | .tableComment => some .comment
  | .columnComment => some .comment
  | .insert => some .insert
  | .commit => some .commit
  | .column => some .column
  | .dataType => some .dataType
  | .defaultValue => some .defaultValue
  | .notNull => some .notNull
  | .columnPrimaryKey => some .columnPrimaryKey
  | .columnUnique => some .columnUnique
  | .columnForeignKey => some .columnForeignKey
  | .columnCheck => some .columnCheck
  | .primaryKey => some .primaryKey
  | .unique => some .unique
  | .foreignKey => some .foreignKey
  | .check => some .check
  | .onDeleteCascade => some .onDelete
  | .onDeleteSetNull => some .onDelete
  | .onCommit => some .onCommit
  | .startWith => some .startWith
  | .order => some .order
  | .rename => some .rename
  | .modify => some .modify
  | .expression => some .expression
  | .function => some .call
  | .literal => some .literal
  | .synonym | .inclusion | .tablespace | .indexTablespace | .logging | .parallel
  | .rowMovement => none

/-- What the dialects have in common. -/
def shared : Dialect where
  name := "shared"
  treatment? kind := (sharedLayout? kind).map .write
  order := standardOrder

/-- A dialect with a treatment of a kind, in the place of any that it had. -/
def assign (d : Dialect) (kind : Kind) (treatment : Treatment) : Dialect :=
  { d with treatment? := fun k => if k = kind then some treatment else d.treatment? k }

/-- A dialect that says nothing of a kind. -/
def erase (d : Dialect) (kind : Kind) : Dialect :=
  { d with treatment? := fun k => if k = kind then none else d.treatment? k }

/-- The place of a kind in the order of a dialect; of a kind listed more than once, the last. -/
def rank? (d : Dialect) (kind : Kind) : Option Nat :=
  lastIndex? d.order
where
  /-- The position of the last occurrence of the kind. -/
  lastIndex? : List Kind → Option Nat
    | [] => none
    | k :: ks =>
      match lastIndex? ks with
      | some i => some (i + 1)
      | none => if k = kind then some 0 else none

end Dialect

end SchemaScript
