import SchemaScript.Table.Basic
import SchemaScript.Value.Read

/-!
# Reading tables

```text table        := name ( element, ... ) storage* element      := column | constraint column
:= name clause+ clause       := type [( DIGITS [, DIGITS] )] | DEFAULT ( value ) | DEFAULT value |
[CONSTRAINT name] (NOT NULL | PRIMARY KEY key | UNIQUE key | REFERENCES target | check) constraint
:= [CONSTRAINT name] (PRIMARY KEY ( names ) key | UNIQUE ( names ) key | FOREIGN KEY ( names )
REFERENCES target | check) key          := [USING INDEX TABLESPACE space] target       := name (
names ) [ON DELETE CASCADE | ON DELETE SET NULL] [DEFERRABLE] check        := CHECK ( expression )
```

* `TableElement.read`, `Column.read`, `TableConstraint.read` — the rules for the body of a table.
* `Storage.readIndexOptions`, `Storage.readTableOptions` — the options behind a body.
* `Table.read` — all of it, behind the word `TABLE`.
-/

set_option autoImplicit false

namespace SchemaScript

open Reader

/-! ## Storage options -/

/-- The words that open a storage option of an index. -/
def TokenKind.startsIndexOption : TokenKind → Bool
  | .keyword .tablespace | .keyword .logging | .keyword .nologging | .keyword .parallel
  | .keyword .noparallel => true
  | _ => false

/-- The words that open a storage option of a table. `ENABLE`, `DISABLE` and `ON` do so only before
the word that belongs to them. -/
def TokenKind.startsTableOption (first : TokenKind) (second : Option TokenKind) : Bool :=
  match first with
  | .keyword .enable | .keyword .disable => second = some (.keyword .row)
  | .keyword .on => second = some (.keyword .commit)
  | kind => kind.startsIndexOption

namespace Storage

/-- The name of a tablespace, or a placeholder for it. -/
def readSpace : Reader String := do
  if (← nextKind?) = some .placeholder then
    return (← next TokenKind.placeholder.name).value
  else
    name

/-- One storage option of an index. -/
def readIndexOption : Reader Storage := do
  let t ← next "TABLESPACE, LOGGING or PARALLEL"
  match t.kind with
  | .keyword .tablespace => return .tablespace (← readSpace)
  | .keyword .logging => return .logging true
  | .keyword .nologging => return .logging false
  | .keyword .parallel =>
    if (← nextKind?) = some .digits then
      return .parallel true (some (← next TokenKind.digits.name).value)
    else
      return .parallel true none
  | .keyword .noparallel => return .parallel false none
  | _ => reject t

/-- The storage options of an index. -/
def readIndexOptions : Reader (List Storage) :=
  repeatWhile (fun ts => ts.head?.any (·.kind.startsIndexOption)) readIndexOption

/-- The words `ROW MOVEMENT`, behind the one that allows or forbids it. -/
def readRowMovement (enabled : Bool) : Reader Storage := do
  discard <| expectWord .row
  discard <| expectWord .movement
  return .rowMovement enabled

/-- What a commit does to the rows of a temporary table, behind the word `ON`. -/
def readOnCommit : Reader Storage := do
  discard <| expectWord .commit
  let t ← next "PRESERVE or DELETE"
  let preserve ← match t.kind with
    | .keyword .preserve => pure true
    | .keyword .delete => pure false
    | _ => reject t
  discard <| expectWord .rows
  return .onCommit preserve

/-- One storage option of a table. -/
def readTableOption : Reader Storage := do
  if ← acceptWord .enable then
    readRowMovement true
  else if ← acceptWord .disable then
    readRowMovement false
  else if ← acceptWord .on then
    readOnCommit
  else
    readIndexOption

/-- Whether a storage option of a table comes next. -/
def startsTableOption (ts : List Token) : Bool :=
  ts.head?.any fun t => t.kind.startsTableOption (ts.tail.head?.map (·.kind))

/-- The storage options of a table. -/
def readTableOptions : Reader (List Storage) := repeatWhile startsTableOption readTableOption

end Storage

/-! ## Clauses -/

/-- What follows a primary key or a uniqueness clause. -/
def Key.read (name : Option String) : Reader Key := do
  if ← acceptWord .using_ then
    discard <| expectWord .index
    discard <| expectWord .tablespace
    return { name, storage := [.indexTablespace (← Storage.readSpace)] }
  else
    return { name }

/-- The delete rule of a foreign key that has one. -/
def OnDelete.read? : Reader (Option OnDelete) := do
  if (← nextKind?) = some (.keyword .on) ∧ (← secondKind?) = some (.keyword .delete) then
    skip
    skip
    if ← acceptWord .cascade then
      return some .cascade
    else
      discard <| expectWord .set
      discard <| expectWord .null
      return some .setNull
  else
    return none

/-- A foreign key, behind the word `REFERENCES`. -/
def ForeignKey.read (keyName : Option String) : Reader ForeignKey := do
  let table ← Reader.name
  let columns ← nameList
  let onDelete ← OnDelete.read?
  let deferrable ← acceptWord .deferrable
  return { name := keyName, target := ⟨table, columns⟩, onDelete, deferrable }

/-- A condition in parentheses, behind the word `CHECK`. -/
def Check.read (name : Option String) : Reader Check := do
  return { name, condition := ← parenthesized readExpression }

/-- The name of a constraint, behind the word `CONSTRAINT` if that comes next. -/
def readConstraintName? : Reader (Option String) := do
  if ← acceptWord .constraint then
    return some (← name)
  else
    return none

/-! ## Columns -/

/-- The precision of a type, in parentheses if there is one. -/
def DataType.readPrecision? : Reader (Option String) := do
  if ← accept .lparen then
    let precision ← expect .digits
    if ← accept .comma then
      let scale ← expect .digits
      discard <| expect .rparen
      return some (precision.value ++ "," ++ scale.value)
    else
      discard <| expect .rparen
      return some precision.value
  else
    return none

/-- The words that open a column clause. -/
def TokenKind.startsColumnClause : TokenKind → Bool
  | .keyword .not | .keyword .constraint | .keyword .check | .keyword .primary | .keyword .unique
  | .keyword .references | .keyword .default => true
  | .keyword word => word.isType
  | _ => false

/-- The value of a column that is given none. One pair of parentheses around it is no part of
it. -/
def readDefault : Reader Term := do
  if ← accept .lparen then
    let value ← readValue
    discard <| expect .rparen
    return value
  else
    readValue

/-- One clause of a column. A type and a default value take no name. -/
def ColumnClause.read : Reader ColumnClause := do
  let name ← readConstraintName?
  let t ← next "column type or constraint"
  match t.kind with
  | .keyword .not =>
    discard <| expectWord .null
    return .notNull name
  | .keyword .check => return .check (← Check.read name)
  | .keyword .primary =>
    discard <| expectWord .key
    return .primaryKey (← Key.read name)
  | .keyword .unique => return .unique (← Key.read name)
  | .keyword .references => return .foreignKey (← ForeignKey.read name)
  | .keyword .default =>
    if name.isNone then
      return .defaultValue (← readDefault)
    else
      reject t
  | .keyword word =>
    if word.isType ∧ name.isNone then
      return .dataType ⟨t.value, ← DataType.readPrecision?⟩
    else
      reject t
  | _ => reject t

/-- A column with its clauses, one or more. -/
def Column.read : Reader Column := do
  let name ← Reader.name
  let first ← ColumnClause.read
  let others ← repeatWhile (fun ts => ts.head?.any (·.kind.startsColumnClause)) ColumnClause.read
  return Column.ofClauses name (first :: others)

/-! ## Bodies -/

/-- A constraint of a table. -/
def TableConstraint.read : Reader TableConstraint := do
  let name ← readConstraintName?
  let t ← next "PRIMARY KEY, UNIQUE, FOREIGN KEY or CHECK"
  match t.kind with
  | .keyword .primary =>
    discard <| expectWord .key
    let columns ← nameList
    return .primaryKey (← Key.read name) columns
  | .keyword .unique =>
    let columns ← nameList
    return .unique (← Key.read name) columns
  | .keyword .foreign =>
    discard <| expectWord .key
    let columns ← nameList
    discard <| expectWord .references
    return .foreignKey (← ForeignKey.read name) columns
  | .keyword .check => return .check (← Check.read name)
  | _ => reject t

/-- One entry of the body of a table. -/
inductive TableElement where
  | column (column : Column)
  | constraint (constraint : TableConstraint)
  deriving DecidableEq, Repr

namespace TableElement

/-- Whether two tokens open a table constraint. The words that do may also name a column. -/
def startsConstraint (first second : Option TokenKind) : Bool :=
  match first with
  | some (.keyword .constraint) => true
  | some (.keyword .primary) | some (.keyword .foreign) => second = some (.keyword .key)
  | some (.keyword .unique) | some (.keyword .check) => second = some .lparen
  | _ => false

/-- One entry of the body of a table. -/
def read : Reader TableElement := do
  if startsConstraint (← nextKind?) (← secondKind?) then
    return .constraint (← TableConstraint.read)
  else
    return .column (← Column.read)

/-- A table with one more entry. -/
def addTo (table : Table) : TableElement → Table
  | .column c => table.addColumn c
  | .constraint c => table.addConstraint c

end TableElement

/-- A table, behind the word `TABLE`. -/
def Table.read (isGlobal temporary : Bool) : Reader Table := do
  let name ← Reader.name
  let elements ← parenthesized (commaSeparated TableElement.read)
  let storage ← Storage.readTableOptions
  discard <| expect .semicolon
  return { elements.foldl TableElement.addTo { name, isGlobal, temporary } with storage }

end SchemaScript
