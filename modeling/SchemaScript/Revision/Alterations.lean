import SchemaScript.Revision.Warning
import SchemaScript.Script.Catalog

/-!
# Folding changes into what they change

* `Table.absorb` — a table with what a change adds to it, and what is left of the change.
* `Script.foldAlterations` — a script in which changes to tables and indexes that it creates are
  folded into their creation, as far as they can be. A change may stand before what it changes.
-/

set_option autoImplicit false

namespace SchemaScript

namespace Table

/-- A table with what a change adds. -/
def add (t : Table) : Addition → Table
  | .column c => t.addColumn c
  | .constraint c => t.addConstraint c
  | .storage s => t.addStorage [s]

/-- A table with the additions and storage options of a change, and what is left of the change:
its new names, its columns defined anew and its drops, if there are any. -/
def absorb (t : Table) (a : AlterTable) : Table × Option AlterTable :=
  let table := (a.adds.foldl add t).addStorage (a.mods.filterMap Modification.storage?)
  let rest : AlterTable :=
    { table := a.table, mods := a.mods.filter fun m => m.storage?.isNone, drops := a.drops }
  (table, if rest.isEmpty then none else some rest)

end Table

/-- The statements of a script by position, some of them taken out. -/
abbrev Slots := List (Option Statement)

namespace Slots

/-- The table at a position. -/
def table? (slots : Slots) (position : Nat) : Option Table :=
  match slots[position]? with
  | some (some (.table t)) => some t
  | _ => none

/-- The index at a position. -/
def index? (slots : Slots) (position : Nat) : Option Index :=
  match slots[position]? with
  | some (some (.index i)) => some i
  | _ => none

/-- Folds a change to a table, which stands at a position, into the table. A table that is not
created here is left to the change. -/
def foldTable (catalog : Catalog) (slots : Slots) (position : Nat) (a : AlterTable) : Noted Slots :=
  match catalog.table? a.table with
  | none => ⟨slots, []⟩
  | some target =>
    match slots.table? target with
    | none => ⟨slots, []⟩
    | some t =>
      let (table, rest) := t.absorb a
      ⟨(slots.set target (some (.table table))).set position (rest.map .alterTable),
       [⟨.alterTablePromoted, [t.name]⟩]⟩

/-- Folds a change to an index, which stands at a position, into the index. An index that is not
created here is left to the change. -/
def foldIndex (catalog : Catalog) (slots : Slots) (position : Nat) (a : AlterIndex) : Noted Slots :=
  match catalog.index? a.index with
  | none => ⟨slots, []⟩
  | some target =>
    match slots.index? target with
    | none => ⟨slots, []⟩
    | some i =>
      ⟨(slots.set target (some (.index { i with storage := i.storage ++ a.storage }))).set position
         none,
       [⟨.alterIndexPromoted, [i.name]⟩]⟩

/-- Folds the statement at a position, if it is a change. -/
def foldAt (catalog : Catalog) (slots : Slots) (position : Nat) : Noted Slots :=
  match slots[position]? with
  | some (some (.alterTable a)) => slots.foldTable catalog position a
  | some (some (.alterIndex a)) => slots.foldIndex catalog position a
  | _ => ⟨slots, []⟩

/-- The statements that are left. -/
def toScript (slots : Slots) : Script := ⟨slots.filterMap id⟩

end Slots

namespace Script

/-- The statements of a script by position. -/
def slots (s : Script) : Slots := s.statements.map some

/-- A script with its changes to tables and indexes folded into what they change, in the order in
which they stand. Every change to a table that the script creates is noted, even if all of it is
left. -/
def foldAlterations (s : Script) : Noted Script := do
  let slots ← s.catalog.others.foldlM (Slots.foldAt s.catalog) s.slots
  return slots.toScript

end Script

end SchemaScript
