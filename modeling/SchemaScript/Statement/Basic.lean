import SchemaScript.Table.Basic

/-!
# Statements

One type for each statement of a schema script, and `Statement` over them all.
-/

set_option autoImplicit false

namespace SchemaScript

/-- An index on columns of a table, which it names. -/
structure Index where
  name : String
  table : String
  columns : List String
  unique : Bool := false
  storage : List Storage := []
  deriving DecidableEq, Repr

/-! ## Sequences and synonyms -/

/-- An option of a sequence. -/
inductive SequenceOption where
  | startWith (value : String)
  | order
  deriving DecidableEq, Repr

/-- The kind of a sequence option. -/
def SequenceOption.kind : SequenceOption → Kind
  | .startWith _ => .startWith
  | .order => .order

/-- A sequence of numbers. -/
structure Sequence where
  name : String
  options : List SequenceOption := []
  deriving DecidableEq, Repr

/-- A second name for something. -/
structure Synonym where
  name : String
  target : Option String := none
  deriving DecidableEq, Repr

/-! ## Drops -/

/-- What can be dropped. -/
inductive DropObject where
  | table
  | index
  | column
  | constraint
  | sequence
  | synonym
  deriving DecidableEq, Repr

/-- The word for what is dropped. -/
def DropObject.word : DropObject → String
  | .table => "TABLE"
  | .index => "INDEX"
  | .column => "COLUMN"
  | .constraint => "CONSTRAINT"
  | .sequence => "SEQUENCE"
  | .synonym => "SYNONYM"

/-- Whether something is dropped as a part of its table. -/
def DropObject.isTablePart : DropObject → Bool
  | .column | .constraint => true
  | _ => false

/-- A drop, as a statement or as a change to a table. -/
structure Drop where
  object : DropObject
  name : String
  deriving DecidableEq, Repr

/-! ## Changes -/

/-- A new name for a table or for one of its columns. -/
inductive Rename where
  | table (newName : String)
  | column (name newName : String)
  deriving DecidableEq, Repr

/-- What a change adds to a table. -/
inductive Addition where
  | column (column : Column)
  | constraint (constraint : TableConstraint)
  | storage (storage : Storage)
  deriving DecidableEq, Repr

/-- What a change does to a table as it is. -/
inductive Modification where
  | rename (rename : Rename)
  | modify (columns : List Column)
  | storage (storage : Storage)
  deriving DecidableEq, Repr

/-- The storage option that a modification sets. -/
def Modification.storage? : Modification → Option Storage
  | .storage s => some s
  | _ => none

/-- A change to a table. -/
structure AlterTable where
  table : String
  adds : List Addition := []
  mods : List Modification := []
  drops : List Drop := []
  deriving DecidableEq, Repr

/-- The number of actions of a change. -/
def AlterTable.size (a : AlterTable) : Nat := a.adds.length + a.mods.length + a.drops.length

/-- Whether a change does nothing. -/
def AlterTable.isEmpty (a : AlterTable) : Bool := a.size == 0

/-- A change to an index. -/
structure AlterIndex where
  index : String
  storage : List Storage
  deriving DecidableEq, Repr

/-! ## Comments and rows -/

/-- A comment on a table or on one of its columns. -/
inductive Comment where
  | table (table text : String)
  | column (table column text : String)
  deriving DecidableEq, Repr

/-- The kind of a comment. -/
def Comment.kind : Comment → Kind
  | .table _ _ => .tableComment
  | .column _ _ _ => .columnComment

/-- A new row. With no columns listed, the values are for all of them. -/
structure Insert where
  table : String
  columns : List String := []
  values : List Term
  deriving DecidableEq, Repr

/-! ## Statements -/

/-- A statement of a schema script. -/
inductive Statement where
  | table (table : Table)
  | index (index : Index)
  | sequence (sequence : Sequence)
  | synonym (synonym : Synonym)
  | alterTable (alter : AlterTable)
  | alterIndex (alter : AlterIndex)
  | drop (drop : Drop)
  | comment (comment : Comment)
  | insert (insert : Insert)
  | commit
  | inclusion (path : String)
  deriving DecidableEq, Repr

namespace Statement

/-- The kind of a statement. -/
def kind : Statement → Kind
  | .table _ => .table
  | .index _ => .index
  | .sequence _ => .sequence
  | .synonym _ => .synonym
  | .alterTable _ => .alterTable
  | .alterIndex _ => .alterIndex
  | .drop _ => .drop
  | .comment c => c.kind
  | .insert _ => .insert
  | .commit => .commit
  | .inclusion _ => .inclusion

/-- The table that a statement creates. -/
def table? : Statement → Option Table
  | .table t => some t
  | _ => none

/-- The index that a statement creates. -/
def index? : Statement → Option Index
  | .index i => some i
  | _ => none

/-- The sequence that a statement creates. -/
def sequence? : Statement → Option Sequence
  | .sequence s => some s
  | _ => none

/-- The synonym that a statement creates. -/
def synonym? : Statement → Option Synonym
  | .synonym s => some s
  | _ => none

end Statement

end SchemaScript
