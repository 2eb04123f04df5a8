import SchemaScript.Script.Basic
import SchemaScript.Text.Json

/-!
# Scripts as JSON

* `Script.toJson` — the tree of a script. A case without data is its name; a case with data is an
  object with the data under the name.
-/

set_option autoImplicit false

namespace SchemaScript

open Json (case optional)

/-- A list of names. -/
def Json.texts (names : List String) : Json := .list (names.map .text)

mutual

/-- The tree of a value. -/
def Term.toJson : Term → Json
  | .literal text => case "Literal" (.text text)
  | .call function args =>
    case "Function" (.object [("name", .text function), ("args", .list (Term.listToJson args))])
  | .expression terms =>
    case "Expression" (.object [("terms", .list (Term.listToJson terms))])

/-- The trees of values. -/
def Term.listToJson : List Term → List Json
  | [] => []
  | t :: ts => t.toJson :: Term.listToJson ts

end

/-- The tree of a condition. -/
def Expression.toJson (terms : Expression) : Json :=
  .object [("terms", .list (Term.listToJson terms))]

/-! ## Tables -/

/-- The tree of a storage option. -/
def Storage.toJson : Storage → Json
  | .tablespace name => case "Tablespace" (.text name)
  | .indexTablespace name => case "IndexTablespace" (.text name)
  | .logging enabled => case "Logging" (.bool enabled)
  | .parallel enabled degree =>
    case "Parallel" (.object [("enabled", .bool enabled), ("degree", optional .text degree)])
  | .rowMovement enabled => case "RowMovement" (.bool enabled)
  | .onCommit preserve => case "OnCommit" (.object [("preserve", .bool preserve)])

/-- The tree of a type. -/
def DataType.toJson (t : DataType) : Json :=
  .object [("name", .text t.name), ("precision", optional .text t.precision)]

/-- The tree of a primary key or uniqueness clause. -/
def Key.toJson (k : Key) : Json :=
  .object [("name", optional .text k.name), ("modifiers", .list (k.storage.map Storage.toJson))]

/-- The tree of a delete rule. -/
def OnDelete.toJson : OnDelete → Json
  | .cascade => .text "Cascade"
  | .setNull => .text "SetNull"

/-- The tree of a foreign key. -/
def ForeignKey.toJson (k : ForeignKey) : Json :=
  .object
    [("name", optional .text k.name),
     ("target",
      .object [("table", .text k.target.table), ("columns", Json.texts k.target.columns)]),
     ("on_delete", optional OnDelete.toJson k.onDelete),
     ("deferrable", .bool k.deferrable)]

/-- The tree of a check. -/
def Check.toJson (c : Check) : Json :=
  .object [("name", optional .text c.name), ("expression", c.condition.toJson)]

/-- The tree of a table constraint. -/
def TableConstraint.toJson : TableConstraint → Json
  | .primaryKey key columns =>
    case "PrimaryKey" (.object [("key", key.toJson), ("columns", Json.texts columns)])
  | .unique key columns =>
    case "Unique" (.object [("key", key.toJson), ("columns", Json.texts columns)])
  | .foreignKey key columns =>
    case "ForeignKey" (.object [("fk", key.toJson), ("columns", Json.texts columns)])
  | .check c => case "Check" c.toJson

/-- The tree of a column clause. -/
def ColumnClause.toJson : ColumnClause → Json
  | .dataType t => case "Type" t.toJson
  | .defaultValue value => case "Default" value.toJson
  | .notNull name => case "NotNull" (.object [("name", optional .text name)])
  | .primaryKey key => case "PrimaryKey" key.toJson
  | .unique key => case "Unique" key.toJson
  | .foreignKey key => case "ForeignKey" key.toJson
  | .check c => case "Check" c.toJson

/-- The tree of a column. -/
def Column.toJson (c : Column) : Json :=
  .object
    [("name", .text c.name), ("table", .text c.table),
     ("modifiers", .list (c.clauses.map ColumnClause.toJson))]

/-- The tree of a table. -/
def Table.toJson (t : Table) : Json :=
  .object
    [("name", .text t.name), ("global", .bool t.isGlobal), ("temporary", .bool t.temporary),
     ("columns", .list (t.columns.map Column.toJson)),
     ("constraints", .list (t.constraints.map TableConstraint.toJson)),
     ("modifiers", .list (t.storage.map Storage.toJson))]

/-! ## Statements -/

/-- The tree of an index. -/
def Index.toJson (i : Index) : Json :=
  .object
    [("name", .text i.name), ("table", .text i.table), ("columns", Json.texts i.columns),
     ("unique", .bool i.unique), ("modifiers", .list (i.storage.map Storage.toJson))]

/-- The tree of a sequence option. -/
def SequenceOption.toJson : SequenceOption → Json
  | .startWith value => case "StartWith" (.text value)
  | .order => .text "Order"

/-- The tree of a drop. -/
def Drop.toJson (d : Drop) : Json :=
  let object := match d.object with
    | .table => "Table"
    | .index => "Index"
    | .column => "Column"
    | .constraint => "Constraint"
    | .sequence => "Sequence"
    | .synonym => "Synonym"
  .object [("object", .text object), ("name", .text d.name)]

/-- The tree of a new name. -/
def Rename.toJson : Rename → Json
  | .table newName => case "Table" (.object [("new_name", .text newName)])
  | .column name newName =>
    case "Column" (.object [("name", .text name), ("new_name", .text newName)])

/-- The tree of what a change adds. -/
def Addition.toJson : Addition → Json
  | .column c => case "Column" c.toJson
  | .constraint c => case "Constraint" c.toJson
  | .storage s => case "Modifier" s.toJson

/-- The tree of what a change does to a table. -/
def Modification.toJson : Modification → Json
  | .rename r => case "Rename" r.toJson
  | .modify columns => case "Modify" (.object [("columns", .list (columns.map Column.toJson))])
  | .storage s => case "Modifier" s.toJson

/-- The tree of a change to a table. -/
def AlterTable.toJson (a : AlterTable) : Json :=
  .object
    [("table", .text a.table), ("adds", .list (a.adds.map Addition.toJson)),
     ("mods", .list (a.mods.map Modification.toJson)), ("drops", .list (a.drops.map Drop.toJson))]

/-- The tree of a comment. -/
def Comment.toJson : Comment → Json
  | .table owner text => case "Table" (.object [("table", .text owner), ("text", .text text)])
  | .column owner part text =>
    case "Column" (.object [("table", .text owner), ("column", .text part), ("text", .text text)])

/-- The tree of a statement. -/
def Statement.toJson : Statement → Json
  | .table t => case "Table" t.toJson
  | .index i => case "Index" i.toJson
  | .sequence s =>
    case "Sequence"
      (.object [("name", .text s.name), ("options", .list (s.options.map SequenceOption.toJson))])
  | .synonym s =>
    case "Synonym" (.object [("synonym", .text s.name), ("referenced", optional .text s.target)])
  | .alterTable a => case "AlterTable" a.toJson
  | .alterIndex a =>
    case "AlterIndex"
      (.object [("index", .text a.index), ("modifiers", .list (a.storage.map Storage.toJson))])
  | .drop d => case "Drop" d.toJson
  | .comment c => case "Comment" c.toJson
  | .insert i =>
    case "Insert"
      (.object
        [("table", .text i.table), ("columns", Json.texts i.columns),
         ("values", .list (Term.listToJson i.values))])
  | .commit => .text "Commit"
  | .inclusion path => case "Include" (.object [("path", .text path)])

/-- The tree of a script. -/
def Script.toJson (s : Script) : Json :=
  .object [("statements", .list (s.statements.map Statement.toJson))]

end SchemaScript
