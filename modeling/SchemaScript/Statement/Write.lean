import SchemaScript.Statement.Basic
import SchemaScript.Table.Write
import SchemaScript.Text.Quoted

/-!
# Writing statements

* `Writer.statement` — a statement. It may come out empty, if the dialect has no words for it.
* `Node`, `Writer.node` — any part of a script, to be written on its own.
-/

set_option autoImplicit false

namespace SchemaScript

namespace Writer

open Text (indent)

/-- An index. -/
def index (w : Writer) (n : Nat) (i : Index) : Written :=
  w.write .index fun
    | .index => do
      return "CREATE " ++ (if i.unique then "UNIQUE " else "") ++ "INDEX " ++ i.name ++
        newLine (n + tab) ++ "ON " ++ i.table ++ " " ++ names i.columns ++
        (← w.storages (n + tab) i.storage) ++ ";"
    | layout => refuse layout .index

/-- An option of a sequence. -/
def sequenceOption (w : Writer) (option : SequenceOption) : Written :=
  w.write option.kind fun layout =>
    match layout, option with
    | .startWith, .startWith value => .ok (" START WITH " ++ value)
    | .order, .order => .ok " ORDER"
    | layout, option => refuse layout option.kind

/-- A sequence. -/
def sequence (w : Writer) (s : Sequence) : Written :=
  w.write .sequence fun
    | .sequence => do
      return "CREATE SEQUENCE " ++ s.name ++ String.join (← s.options.mapM w.sequenceOption) ++ ";"
    | layout => refuse layout .sequence

/-- A synonym. -/
def synonym (w : Writer) (s : Synonym) : Written :=
  w.write .synonym fun
    | .synonym =>
      match s.target with
      | some target => .ok ("CREATE SYNONYM " ++ s.name ++ " FOR " ++ target ++ ";")
      | none => .ok ("CREATE SYNONYM " ++ s.name ++ ";")
    | layout => refuse layout .synonym

/-! ## Changes -/

/-- A drop as a line. The part of a table is dropped inside another statement, which has the
terminator. -/
def dropLine (d : Drop) : String :=
  "DROP " ++ d.object.word ++ " " ++ d.name ++ if d.object.isTablePart then "" else ";"

/-- A drop. -/
def drop (w : Writer) (d : Drop) : Written :=
  w.write .drop fun
    | .drop => .ok (dropLine d)
    | .dropKnown => .ok (if d.object = .synonym then "" else dropLine d)
    | layout => refuse layout .drop

/-- A new name. -/
def rename (w : Writer) (r : Rename) : Written :=
  w.write .rename fun
    | .rename =>
      match r with
      | .table newName => .ok (" RENAME TO " ++ newName)
      | .column name newName => .ok (" RENAME COLUMN " ++ name ++ " TO " ++ newName)
    | layout => refuse layout .rename

/-- Columns that are defined anew. -/
def modify (w : Writer) (n : Nat) (columns : List Column) : Written :=
  w.write .modify fun
    | .modify => do
      let texts ← columns.mapM (w.column n (margin n columns))
      return "\nMODIFY\n(\n" ++ ",\n".intercalate texts ++ "\n)"
    | layout => refuse layout .modify

/-- What is added to a table. A column added on its own has nothing to be aligned with. -/
def addition (w : Writer) (n : Nat) : Addition → Written
  | .column c => w.column n 0 c
  | .constraint c => w.tableConstraint n c
  | .storage s => w.storage n s

/-- A change to a table as it is. -/
def modification (w : Writer) (n : Nat) : Modification → Written
  | .rename r => w.rename r
  | .modify columns => w.modify n columns
  | .storage s => w.storage n s

/-- The additions of a change, each on a line of its own. Those that come out empty are left out. -/
def additions (w : Writer) (n : Nat) (adds : List Addition) : Written := do
  let texts ← adds.mapM (w.addition 0)
  let written := (texts.map Text.trimStart).filter (· ≠ "")
  return ",".intercalate (written.map fun text => newLine (n + tab) ++ "ADD " ++ text)

/-- A change to a table. It is left out if it does something, and nothing of that is written. -/
def alterTable (w : Writer) (n : Nat) (a : AlterTable) : Written :=
  w.write .alterTable fun
    | .alterTable => do
      let adds ← w.additions n a.adds
      let mods ← a.mods.mapM (w.modification (n + tab))
      let drops ← a.drops.mapM w.drop
      let body := adds ++ String.join mods ++ String.join (drops.map (newLine (n + tab) ++ ·))
      if body = "" ∧ !a.isEmpty then
        return ""
      else
        return "ALTER TABLE " ++ a.table ++ body ++ ";"
    | layout => refuse layout .alterTable

/-- A change to an index. It is left out if it does something, and nothing of that is written. -/
def alterIndex (w : Writer) (n : Nat) (a : AlterIndex) : Written :=
  w.write .alterIndex fun
    | .alterIndex => do
      let body ← w.storages (n + tab) a.storage
      if body = "" ∧ !a.storage.isEmpty then
        return ""
      else
        return "ALTER INDEX " ++ a.index ++ body ++ ";"
    | layout => refuse layout .alterIndex

/-! ## Comments and rows -/

/-- A comment. -/
def comment (w : Writer) (c : Comment) : Written :=
  w.write c.kind fun
    | .comment =>
      match c with
      | .table table text => .ok ("COMMENT ON TABLE " ++ table ++ " IS " ++ Text.quoted text ++ ";")
      | .column table column text =>
        .ok ("COMMENT ON COLUMN " ++ table ++ "." ++ column ++ " IS " ++ Text.quoted text ++ ";")
    | layout => refuse layout c.kind

/-- A new row. -/
def insert (w : Writer) (n : Nat) (i : Insert) : Written :=
  w.write .insert fun
    | .insert => do
      let columns := if i.columns.isEmpty then "" else newLine (n + tab) ++ names i.columns
      return "INSERT INTO " ++ i.table ++ columns ++ "\nVALUES" ++ newLine (n + tab) ++
        names (← w.terms i.values) ++ ";"
    | layout => refuse layout .insert

/-- A commit. -/
def commit (w : Writer) : Written :=
  w.write .commit fun
    | .commit => .ok "COMMIT;"
    | layout => refuse layout .commit

/-- An inclusion. -/
def inclusion (w : Writer) (path : String) : Written :=
  w.write .inclusion fun
    | .atInclusion => .ok ("@" ++ path)
    | .backslashInclusion => .ok ("\\i " ++ path)
    | layout => refuse layout .inclusion

/-! ## Statements and nodes -/

/-- A statement. -/
def statement (w : Writer) (n : Nat) : Statement → Written
  | .table t => w.table n t
  | .index i => w.index n i
  | .sequence s => w.sequence s
  | .synonym s => w.synonym s
  | .alterTable a => w.alterTable n a
  | .alterIndex a => w.alterIndex n a
  | .drop d => w.drop d
  | .comment c => w.comment c
  | .insert i => w.insert n i
  | .commit => w.commit
  | .inclusion path => w.inclusion path

end Writer

/-- A part of a script that can be written on its own. -/
inductive Node where
  | statement (statement : Statement)
  /-- A column, with the width that its name is padded to. -/
  | column (column : Column) (width : Nat)
  | columnClause (clause : ColumnClause)
  | tableConstraint (constraint : TableConstraint)
  | onDelete (rule : OnDelete)
  | storage (storage : Storage)
  | sequenceOption (option : SequenceOption)
  | rename (rename : Rename)
  | modify (columns : List Column)
  | term (term : Term)
  deriving DecidableEq, Repr

namespace Node

/-- The kind of a node. -/
def kind : Node → Kind
  | .statement s => s.kind
  | .column _ _ => .column
  | .columnClause c => c.kind
  | .tableConstraint c => c.kind
  | .onDelete rule => rule.kind
  | .storage s => s.kind
  | .sequenceOption o => o.kind
  | .rename _ => .rename
  | .modify _ => .modify
  | .term t => t.kind

/-- What a change adds, as a node. -/
def ofAddition : Addition → Node
  | .column c => .column c 0
  | .constraint c => .tableConstraint c
  | .storage s => .storage s

/-- What a change does to a table, as a node. -/
def ofModification : Modification → Node
  | .rename r => .rename r
  | .modify columns => .modify columns
  | .storage s => .storage s

end Node

/-- A node, at a column. -/
def Writer.node (w : Writer) (n : Nat) : Node → Written
  | .statement s => w.statement n s
  | .column c width => w.column n width c
  | .columnClause c => w.columnClause n c
  | .tableConstraint c => w.tableConstraint n c
  | .onDelete rule => w.onDelete n rule
  | .storage s => w.storage n s
  | .sequenceOption o => w.sequenceOption o
  | .rename r => w.rename r
  | .modify columns => w.modify n columns
  | .term t => w.term t

end SchemaScript
