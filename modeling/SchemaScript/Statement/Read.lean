import SchemaScript.Statement.Basic
import SchemaScript.Table.Read
import SchemaScript.Text.Quoted

/-!
# Reading statements

```text
statement := CREATE [OR REPLACE] created
           | ALTER TABLE name change ;
           | ALTER INDEX name option+ ;
           | DROP object name ;
           | COMMENT ON (TABLE | COLUMN) name IS string ;
           | INSERT INTO name [( names )] VALUES ( values ) ;
           | COMMIT ;
           | inclusion
created   := [GLOBAL [TEMPORARY] | TEMPORARY] TABLE table ;
           | [UNIQUE] INDEX name ON name ( names ) option* ;
           | SEQUENCE name (START WITH DIGITS | ORDER)* ;
           | SYNONYM name [FOR name] ;
change    := ADD additions (, ADD additions)*
           | DROP object name
           | RENAME [COLUMN name] TO name
           | MODIFY column | MODIFY ( column, ... )
           | option+
additions := addition | ( addition, ... ) | option+ | ( option+ )
```

* `Statement.read` — one statement.
-/

set_option autoImplicit false

namespace SchemaScript

open Reader

/-- The sign that ends a statement. -/
def readTerminator : Reader Unit := discard <| expect .semicolon

/-- The text of a quoted literal. In single quotes a doubled quote stands for one. -/
def readString : Reader String := do
  let t ← next "string"
  match t.kind with
  | .singleQuoted => return String.ofList (Text.undouble (Text.unwrapped t.value))
  | .doubleQuoted => return String.ofList (Text.unwrapped t.value)
  | _ => reject t

/-! ## Creations -/

/-- An index, behind the word `INDEX`. -/
def Index.read (unique : Bool) : Reader Index := do
  let name ← Reader.name
  discard <| expectWord .on
  let table ← Reader.name
  let columns ← nameList
  let storage ← Storage.readIndexOptions
  readTerminator
  return { name, table, columns, unique, storage }

/-- One option of a sequence. -/
def SequenceOption.read : Reader SequenceOption := do
  if ← acceptWord .start then
    discard <| expectWord .with_
    return .startWith (← expect .digits).value
  else
    discard <| expectWord .order
    return .order

/-- A sequence, behind the word `SEQUENCE`. -/
def Sequence.read : Reader Sequence := do
  let name ← Reader.name
  let options ← repeatWhile
    (fun ts => startsWith (.keyword .start) ts || startsWith (.keyword .order) ts)
    SequenceOption.read
  readTerminator
  return { name, options }

/-- A synonym, behind the word `SYNONYM`. -/
def Synonym.read : Reader Synonym := do
  let name ← Reader.name
  let target ← if ← acceptWord .for_ then some <$> Reader.name else pure none
  readTerminator
  return { name, target }

/-- What is created, behind the word `CREATE`. A global table is temporary. -/
def readCreated : Reader Statement := do
  let t ← next "TABLE, INDEX, SEQUENCE or SYNONYM"
  match t.kind with
  | .keyword .global =>
    discard <| acceptWord .temporary
    discard <| expectWord .table
    return .table (← Table.read true true)
  | .keyword .temporary =>
    discard <| expectWord .table
    return .table (← Table.read false true)
  | .keyword .table => return .table (← Table.read false false)
  | .keyword .unique =>
    discard <| expectWord .index
    return .index (← Index.read true)
  | .keyword .index => return .index (← Index.read false)
  | .keyword .sequence => return .sequence (← Sequence.read)
  | .keyword .synonym => return .synonym (← Synonym.read)
  | _ => reject t

/-! ## Changes -/

/-- What is dropped, behind the word `DROP`. -/
def Drop.read : Reader Drop := do
  let t ← next "TABLE, INDEX, COLUMN, CONSTRAINT, SEQUENCE or SYNONYM"
  let object ← match t.kind with
    | .keyword .table => pure DropObject.table
    | .keyword .index => pure DropObject.index
    | .keyword .column => pure DropObject.column
    | .keyword .constraint => pure DropObject.constraint
    | .keyword .sequence => pure DropObject.sequence
    | .keyword .synonym => pure DropObject.synonym
    | _ => reject t
  return { object, name := ← Reader.name }

namespace Addition

/-- Whether the word `COLUMN` only announces a column. It does so before a name that opens no
clause; otherwise it is itself the name. -/
def announcesColumn (first second : Option TokenKind) : Bool :=
  first = some (.keyword .column) &&
    second.any fun kind => kind.isName && !kind.startsColumnClause

/-- A column or constraint that a change adds. -/
def readOne : Reader Addition := do
  if announcesColumn (← nextKind?) (← secondKind?) then
    skip
  match ← TableElement.read with
  | .column c => return .column c
  | .constraint c => return .constraint c

/-- What a change adds, behind the word `ADD`. -/
def readAll : Reader (List Addition) := do
  let parenthesized ← accept .lparen
  let adds ←
    if Storage.startsTableOption (← get) then
      List.map Addition.storage <$> Storage.readTableOptions
    else if parenthesized then
      commaSeparated readOne
    else
      List.singleton <$> readOne
  if parenthesized then
    discard <| expect .rparen
  return adds

/-- Whether another `ADD` follows behind a comma. -/
def continues (ts : List Token) : Bool :=
  startsWith .comma ts && startsWith (.keyword .add) ts.tail

end Addition

/-- A new name, behind the word `RENAME`. -/
def Rename.read : Reader Rename := do
  if ← acceptWord .column then
    let name ← Reader.name
    discard <| expectWord .to
    return .column name (← Reader.name)
  else
    discard <| expectWord .to
    return .table (← Reader.name)

/-- The columns of a change, behind the word `MODIFY`. -/
def readModifiedColumns : Reader (List Column) := do
  if ← accept .lparen then
    let columns ← commaSeparated Column.read
    discard <| expect .rparen
    return columns
  else
    return [← Column.read]

/-- What is changed of a table, behind its name. -/
def AlterTable.readChange (table : String) : Reader AlterTable := do
  if ← acceptWord .add then
    let first ← Addition.readAll
    let others ← repeatWhile Addition.continues (do skip; skip; Addition.readAll)
    return { table, adds := first ++ others.flatten }
  else if ← acceptWord .drop then
    return { table, drops := [← Drop.read] }
  else if ← acceptWord .rename then
    return { table, mods := [.rename (← Rename.read)] }
  else if ← acceptWord .modify then
    return { table, mods := [.modify (← readModifiedColumns)] }
  else
    let options ← Storage.readTableOptions
    if options.isEmpty then
      reject (← next "ADD, DROP, RENAME, MODIFY or a table option")
    else
      return { table, mods := options.map .storage }

/-- A change to a table, behind the words `ALTER TABLE`. -/
def AlterTable.read : Reader AlterTable := do
  let table ← Reader.name
  let change ← readChange table
  readTerminator
  return change

/-- A change to an index, behind the words `ALTER INDEX`. -/
def AlterIndex.read : Reader AlterIndex := do
  let index ← Reader.name
  let storage ← Storage.readIndexOptions
  if storage.isEmpty then
    reject (← next "TABLESPACE, LOGGING or PARALLEL")
  readTerminator
  return { index, storage }

/-! ## Comments and rows -/

/-- The comment on a target: on a column if the target has a dot, at its first dot, and otherwise on
a table. -/
def Comment.on (target text : String) : Comment :=
  match target.toList.span (· ≠ '.') with
  | (owner, _ :: part) => .column (String.ofList owner) (String.ofList part) text
  | (_, []) => .table target text

/-- A comment, behind the word `COMMENT`. -/
def Comment.read : Reader Comment := do
  discard <| expectWord .on
  let t ← next "TABLE or COLUMN"
  if t.kind ≠ .keyword .table ∧ t.kind ≠ .keyword .column then
    reject t
  let target ← name
  discard <| expectWord .is
  let text ← readString
  readTerminator
  return .on target text

/-- A new row, behind the word `INSERT`. -/
def Insert.read : Reader Insert := do
  discard <| expectWord .into
  let table ← name
  let columns ← if (← nextKind?) = some .lparen then nameList else pure []
  discard <| expectWord .values
  let values ← parenthesized (commaSeparated readValue)
  readTerminator
  return { table, columns, values }

/-! ## Statements -/

/-- A statement. -/
def Statement.read : Reader Statement := do
  let t ← next "statement"
  match t.kind with
  | .inclusion => return .inclusion t.value
  | .keyword .create =>
    if ← acceptWord .or then
      discard <| expectWord .replace
    readCreated
  | .keyword .alter =>
    if ← acceptWord .index then
      return .alterIndex (← AlterIndex.read)
    else
      discard <| expectWord .table
      return .alterTable (← AlterTable.read)
  | .keyword .drop =>
    let drop ← Drop.read
    readTerminator
    return .drop drop
  | .keyword .comment => return .comment (← Comment.read)
  | .keyword .insert => return .insert (← Insert.read)
  | .keyword .commit =>
    readTerminator
    return .commit
  | _ => reject t

end SchemaScript
