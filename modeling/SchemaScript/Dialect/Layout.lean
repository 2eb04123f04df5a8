import SchemaScript.Kind

/-!
# Layouts

A layout is a way to write nodes of some kind; it refuses the others.

* `Layout`, `Layout.kind` — the layouts there are, and the kind that each is made for.
* `Treatment` — what a dialect does with the nodes of a kind: it writes them, or leaves them out.
-/

set_option autoImplicit false

namespace SchemaScript

/-- A way to write a node. -/
inductive Layout where
  | table
  | column
  | dataType
  | defaultValue
  | notNull
  | columnPrimaryKey
  | columnUnique
  | columnForeignKey
  | columnCheck
  | primaryKey
  | unique
  | foreignKey
  | check
  | onDelete
  | tablespace
  | indexTablespace
  | logging
  | parallel
  | rowMovement
  | onCommit
  | index
  | sequence
  | startWith
  | order
  | synonym
  | alterTable
  | alterIndex
  | rename
  | modify
  | drop
  /-- Drops, but nothing for the drop of a synonym. -/
  | dropKnown
  | comment
  | insert
  | commit
  /-- An inclusion as `@path`. -/
  | atInclusion
  /-- An inclusion as `\i path`. -/
  | backslashInclusion
  | call
  /-- Calls, but `nextval('s')` as `s.nextval`. -/
  | sequenceCall
  | expression
  | literal
  deriving DecidableEq, Repr

/-- The kind of the nodes that a layout is made for. -/
def Layout.kind : Layout → Kind
  | .table => .table
  | .column => .column
  | .dataType => .dataType
  | .defaultValue => .defaultValue
  | .notNull => .notNull
  | .columnPrimaryKey => .columnPrimaryKey
  | .columnUnique => .columnUnique
  | .columnForeignKey => .columnForeignKey
  | .columnCheck => .columnCheck
  | .primaryKey => .primaryKey
  | .unique => .unique
  | .foreignKey => .foreignKey
  | .check => .check
  | .onDelete => .onDeleteCascade
  | .tablespace => .tablespace
  | .indexTablespace => .indexTablespace
  | .logging => .logging
  | .parallel => .parallel
  | .rowMovement => .rowMovement
  | .onCommit => .onCommit
  | .index => .index
  | .sequence => .sequence
  | .startWith => .startWith
  | .order => .order
  | .synonym => .synonym
  | .alterTable => .alterTable
  | .alterIndex => .alterIndex
  | .rename => .rename
  | .modify => .modify
  | .drop | .dropKnown => .drop
  | .comment => .tableComment
  | .insert => .insert
  | .commit => .commit
  | .atInclusion | .backslashInclusion => .inclusion
  | .call | .sequenceCall => .function
  | .expression => .expression
  | .literal => .literal

/-- What a dialect does with the nodes of a kind. -/
inductive Treatment where
  /-- The dialect has no words for them. -/
  | leaveOut
  | write (layout : Layout)
  deriving DecidableEq, Repr

end SchemaScript
