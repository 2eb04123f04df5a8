import SchemaScript.Revision.Alterations

/-!
# Removing superfluous indexes

A primary key or uniqueness clause has an index of its own, so that another on the same columns is
superfluous.

* `Table.keyPlaces` — the columns on which a table has such a clause, and where the clause stands.
* `KeyMap`, `Script.keyMap`, `KeyMap.place?` — the same of all tables of a script. On the same
  columns, clauses of columns go before constraints of the table.
* `Script.dropIndexes` — a script without superfluous indexes. Their storage options go to the
  clause.
-/

set_option autoImplicit false

namespace SchemaScript

/-- The place in a table of a primary key or uniqueness clause. -/
inductive KeyPlace where
  | constraint (position : Nat)
  | clause (column position : Nat)
  deriving DecidableEq, Repr

/-- The columns that a constraint makes unique. -/
def TableConstraint.keyColumns? : TableConstraint → Option (List String)
  | .primaryKey _ columns => some columns
  | .unique _ columns => some columns
  | _ => none

/-- The primary key or uniqueness clause of a constraint. -/
def TableConstraint.key? : TableConstraint → Option Key
  | .primaryKey key _ => some key
  | .unique key _ => some key
  | _ => none

/-- A constraint with its primary key or uniqueness clause changed. -/
def TableConstraint.mapKey (f : Key → Key) : TableConstraint → TableConstraint
  | .primaryKey key columns => .primaryKey (f key) columns
  | .unique key columns => .unique (f key) columns
  | c => c

/-- The primary key or uniqueness clause that a column clause is. -/
def ColumnClause.key? : ColumnClause → Option Key
  | .primaryKey key => some key
  | .unique key => some key
  | _ => none

/-- A column clause changed, if it is a primary key or uniqueness clause. -/
def ColumnClause.mapKey (f : Key → Key) : ColumnClause → ColumnClause
  | .primaryKey key => .primaryKey (f key)
  | .unique key => .unique (f key)
  | c => c

namespace Table

/-- The columns, in lower case, on which a table has a primary key or uniqueness clause, with the
place of the clause. -/
def keyPlaces (t : Table) : List (List String × KeyPlace) :=
  (t.constraints.zipIdx.filterMap fun (c, i) =>
    c.keyColumns?.map fun columns => (columns.map Text.lower, .constraint i)) ++
  t.columns.zipIdx.flatMap fun (c, i) =>
    c.clauses.zipIdx.filterMap fun (m, j) =>
      m.key?.map fun _ => ([Text.lower c.name], .clause i j)

/-- The clause at a place. -/
def keyAt? (t : Table) : KeyPlace → Option Key
  | .constraint i => t.constraints[i]?.bind TableConstraint.key?
  | .clause i j => t.columns[i]?.bind fun c => c.clauses[j]?.bind ColumnClause.key?

/-- A table with the clause at a place changed. -/
def modifyKey (t : Table) (f : Key → Key) : KeyPlace → Table
  | .constraint i => { t with constraints := t.constraints.modify i (TableConstraint.mapKey f) }
  | .clause i j =>
    { t with columns := t.columns.modify i fun c =>
        { c with clauses := c.clauses.modify j (ColumnClause.mapKey f) } }

end Table

/-- The columns that the tables of a script make unique, each with the place of the clause. A table
goes by its position in the script. -/
abbrev KeyMap := List (Nat × List (List String × KeyPlace))

/-- The columns that the tables of a script make unique. -/
def Script.keyMap (s : Script) : KeyMap :=
  s.statements.zipIdx.filterMap fun (st, position) => st.table?.map fun t => (position, t.keyPlaces)

/-- The place of the clause by which the table at a position makes a list of columns unique; of
several, the last. -/
def KeyMap.place? (keys : KeyMap) (position : Nat) (columns : List String) : Option KeyPlace :=
  (keys.lookup position).bind fun places =>
    (places.reverse.find? fun entry => entry.1 = columns.map Text.lower).map Prod.snd

/-- A storage option of an index, as an option of a clause. -/
def Storage.ofIndex : Storage → Storage
  | .tablespace name => .indexTablespace name
  | s => s

namespace Slots

/-- Takes out the index at a position, if a clause of its table makes it superfluous. The clauses
are those of the script before any index is taken out. -/
def dropIndexAt (catalog : Catalog) (keys : KeyMap) (slots : Slots) (position : Nat) : Noted Slots :=
  match slots.index? position with
  | none => ⟨slots, []⟩
  | some i =>
    match catalog.table? i.table with
    | none => ⟨slots, []⟩
    | some target =>
      match keys.place? target i.columns with
      | none => ⟨slots, []⟩
      | some place =>
        let others : Slots := slots.set position none
        match others.table? target with
        | none => ⟨others, []⟩
        | some t =>
          match t.keyAt? place with
          | none => ⟨others, []⟩
          | some key =>
            let grow (key : Key) : Key :=
              { key with storage := key.storage ++ i.storage.map .ofIndex }
            ⟨others.set target (some (.table (t.modifyKey grow place))),
             [⟨.redundantIndex, [i.name, key.name.getD Warning.anonymous, t.name]⟩]⟩

end Slots

/-- A script without superfluous indexes. -/
def Script.dropIndexes (s : Script) : Noted Script := do
  let slots ← (List.range s.statements.length).foldlM (Slots.dropIndexAt s.catalog s.keyMap) s.slots
  return slots.toScript

end SchemaScript
