import SchemaScript.Proofs.Revision.Revised
import Mathlib.Data.List.Forall2

/-!
# What a table enforces

A full revision moves constraints into columns, drops clauses that a primary key implies, gives and
takes names, and adds storage options to keys. None of this changes what a table enforces.

* `Aspect` — what is read off each constraint and each clause of a table.
* `Aspect.Moves`, `Aspect.Stable` — an aspect that a constraint shows alike when it becomes a
  clause, and one that depends neither on names nor on storage options beside.
* `Aspect.perm_normalize`, `Aspect.mem_normalize` — a table shows such an aspect alike when its
  constraints are in order: the same values equally often if clauses that a primary key implies do
  not show it, and the same values if a primary key shows all that these do.
* `Table.Preserved` — two tables have the same columns and enforce the same.
* `Script.revise_best_preserves` — a full revision preserves every table.
-/

set_option autoImplicit false

namespace SchemaScript

/-! ## Names and storage options aside -/

/-- A clause without its name and the storage options of its key. -/
def ColumnClause.core : ColumnClause → ColumnClause
  | .notNull _ => .notNull none
  | .primaryKey _ => .primaryKey {}
  | .unique _ => .unique {}
  | .foreignKey key => .foreignKey { key with name := none }
  | .check c => .check { c with name := none }
  | m => m

theorem ColumnClause.core_settled (table column : String) (m : ColumnClause) :
    (m.settled table column).core = m.core := by
  cases m with
  | notNull name => cases name <;> rfl
  | unique key =>
    obtain ⟨name, storage⟩ := key
    cases name <;> rfl
  | foreignKey key =>
    obtain ⟨name, target, onDelete, deferrable⟩ := key
    cases name <;> rfl
  | check c =>
    obtain ⟨name, condition⟩ := c
    cases name <;> rfl
  | _ => rfl

theorem ColumnClause.core_mapKey (f : Key → Key) (m : ColumnClause) :
    (m.mapKey f).core = m.core := by
  cases m <;> rfl

namespace TableConstraint

/-- A constraint without the name and the storage options of its key. -/
def core : TableConstraint → TableConstraint
  | .primaryKey _ columns => .primaryKey {} columns
  | .unique _ columns => .unique {} columns
  | c => c

theorem core_mapKey (f : Key → Key) (constraint : TableConstraint) :
    (constraint.mapKey f).core = constraint.core := by
  cases constraint <;> rfl

theorem cases_soleColumn? {constraint : TableConstraint} {column : String}
    (h : constraint.soleColumn? = some column) :
    (∃ key, constraint = .primaryKey key [column]) ∨ (∃ key, constraint = .unique key [column]) ∨
      (∃ key, constraint = .foreignKey key [column]) ∨
      ∃ c, constraint = .check c ∧ c.condition.notNullColumn? = some column := by
  cases constraint with
  | check c => exact .inr (.inr (.inr ⟨c, rfl, h⟩))
  | primaryKey key columns | unique key columns | foreignKey key columns =>
    match columns, h with
    | [_], rfl => simp

end TableConstraint

/-! ## Aspects -/

/-- What is read off each constraint of a table, and off each clause of a column of a name. -/
structure Aspect (α : Type) where
  ofConstraint : TableConstraint → List α
  ofClause : String → ColumnClause → List α

namespace Aspect

variable {α : Type} (r : Aspect α)

/-- What is read off the columns of a table. -/
def ofColumns (columns : List Column) : List α :=
  columns.flatMap fun c => c.clauses.flatMap (r.ofClause c.name)

/-- What is read off a table. -/
def ofTable (t : Table) : List α := t.constraints.flatMap r.ofConstraint ++ r.ofColumns t.columns

/-- A constraint on one column alone shows an aspect as the clause that it becomes. -/
structure Moves (has : String → Bool) : Prop where
  attach {constraint : TableConstraint} {column name : String} :
    constraint.soleColumn? = some column → has column = true →
    Text.lower name = Text.lower column →
      r.ofClause name constraint.toColumnClause = r.ofConstraint constraint

/-- Beside that, the aspect depends neither on names nor on the storage options of keys. -/
structure Stable (has : String → Bool) : Prop extends r.Moves has where
  constraint_core (constraint : TableConstraint) :
    r.ofConstraint constraint.core = r.ofConstraint constraint
  clause_core (name : String) (m : ColumnClause) : r.ofClause name m.core = r.ofClause name m

variable {r} {t : Table}

/-! ### Constraints that become clauses -/

theorem perm_addClauseIn {name : String} {clause : ColumnClause} {shown : List α}
    (hshown : ∀ n, Text.lower n = Text.lower name → r.ofClause n clause = shown)
    (columns : List Column) (h : columns.any (fun c => Text.sameName c.name name) = true) :
    (r.ofColumns (Column.addClauseIn name clause columns)).Perm (shown ++ r.ofColumns columns) := by
  induction columns with
  | nil => cases h
  | cons c columns ih =>
    unfold Column.addClauseIn
    by_cases hc : Text.sameName c.name name = true
    · rw [if_pos hc]
      simp only [ofColumns, List.flatMap_cons, List.flatMap_append, List.flatMap_nil, List.append_nil,
        hshown c.name (beq_iff_eq.mp hc)]
      rw [← List.append_assoc shown]
      exact List.perm_append_comm.append_right _
    · have hrest : columns.any (fun c => Text.sameName c.name name) = true := by
        simpa [hc] using h
      rw [if_neg hc]
      simp only [ofColumns, List.flatMap_cons]
      refine ((ih hrest).append_left _).trans ?_
      rw [← List.append_assoc, ← List.append_assoc]
      exact List.perm_append_comm.append_right _

/-- One constraint more, and those that are still to come. -/
theorem perm_attach (h : r.Moves t.hasColumn) (constraint : TableConstraint)
    (rest : List TableConstraint) :
    (((t.attach constraint).value.constraints ++ rest).flatMap r.ofConstraint ++
        r.ofColumns (t.attach constraint).value.columns).Perm
      ((t.constraints ++ constraint :: rest).flatMap r.ofConstraint ++ r.ofColumns t.columns) := by
  rcases t.attach_cases constraint with ⟨-, hvalue⟩ | ⟨-, column, hsole, hcolumn, hvalue⟩
  · simp [hvalue, Table.addConstraint]
  · have hcolumns := perm_addClauseIn (fun n hn => h.attach hsole hcolumn hn) t.columns hcolumn
    rw [hvalue]
    simp only [Table.addClause, List.flatMap_append, List.flatMap_cons]
    refine (hcolumns.append_left _).trans ?_
    simp only [List.append_assoc]
    exact (List.perm_append_comm_assoc _ _ _).append_left _

/-- All constraints of a list. -/
theorem perm_attach_run (constraints : List TableConstraint) (t : Table) (h : r.Moves t.hasColumn) :
    (r.ofTable (constraints.foldlM Table.attach t).value).Perm
      ((t.constraints ++ constraints).flatMap r.ofConstraint ++ r.ofColumns t.columns) := by
  induction constraints generalizing t with
  | nil => rw [List.append_nil]; exact List.Perm.refl _
  | cons constraint constraints ih =>
    have hnames := Table.hasColumn_congr (t.attach_step constraint).1
    rw [List.foldlM_cons, Noted.bind_value]
    exact (ih (t.attach constraint).value (hnames ▸ h)).trans (perm_attach h constraint constraints)

theorem perm_attachConstraints (h : r.Moves t.hasColumn) :
    (r.ofTable t.attachConstraints.value).Perm (r.ofTable t) :=
  perm_attach_run t.constraints { t with constraints := [] } h

/-! ### Clauses in order -/

/-- What is read off a column in order is what is read off the clauses that are kept. -/
theorem ofClauses_normalize (h : r.Stable t.hasColumn) (table : String) (c : Column) :
    (c.normalize table).value.clauses.flatMap (r.ofClause (c.normalize table).value.name) =
      c.essential.flatMap (r.ofClause c.name) := by
  have hsettled (m : ColumnClause) :
      r.ofClause c.name (m.settled table c.name) = r.ofClause c.name m := by
    rw [← h.clause_core, ColumnClause.core_settled, h.clause_core]
  rw [Column.value_normalize, List.flatMap_map]
  simp only [hsettled]

theorem ofTable_normalize (h : r.Stable t.hasColumn) : r.ofTable t.normalize.value =
    t.attachConstraints.value.constraints.flatMap r.ofConstraint ++
      t.attachConstraints.value.columns.flatMap fun c => c.essential.flatMap (r.ofClause c.name) := by
  rw [Table.value_normalize, ofTable, ofColumns, List.flatMap_map]
  simp only [ofClauses_normalize h]

theorem flatMap_filter {β : Type} {p : β → Bool} {g : β → List α} (h : ∀ b, p b = false → g b = [])
    (xs : List β) : (xs.filter p).flatMap g = xs.flatMap g := by
  induction xs with
  | nil => rfl
  | cons b xs ih => cases hb : p b <;> simp [hb, h b, ih]

/-- Beside a primary key that shows whatever the clauses show that it implies, these may go. -/
theorem mem_flatMap_filter {name : String} {clauses : List ColumnClause} {key : Key}
    (himplied : ∀ m, m.isImplied = true → r.ofClause name m ⊆ r.ofClause name (.primaryKey key))
    (hkey : .primaryKey key ∈ clauses) (a : α) :
    a ∈ (clauses.filter fun m => !m.isImplied).flatMap (r.ofClause name) ↔
      a ∈ clauses.flatMap (r.ofClause name) := by
  simp only [List.mem_flatMap, List.mem_filter]
  constructor
  · rintro ⟨m, ⟨hm, -⟩, ha⟩
    exact ⟨m, hm, ha⟩
  · rintro ⟨m, hm, ha⟩
    cases hm' : m.isImplied with
    | false => exact ⟨m, ⟨hm, by simp [hm']⟩, ha⟩
    | true => exact ⟨.primaryKey key, ⟨hkey, rfl⟩, himplied m hm' ha⟩

/-- **A table in order shows an aspect equally often,** if no clause that a primary key implies
shows it. -/
theorem perm_normalize (h : r.Stable t.hasColumn)
    (himplied : ∀ name m, m.isImplied = true → r.ofClause name m = []) :
    (r.ofTable t.normalize.value).Perm (r.ofTable t) := by
  have hessential (c : Column) :
      c.essential.flatMap (r.ofClause c.name) = c.clauses.flatMap (r.ofClause c.name) := by
    unfold Column.essential
    split
    · apply flatMap_filter
      intro m hm
      exact himplied c.name m (by simpa using hm)
    · rfl
  rw [ofTable_normalize h]
  simp only [hessential]
  exact perm_attachConstraints h.toMoves

/-- **A table in order shows an aspect with the same values,** if a primary key shows whatever the
clauses show that it implies. -/
theorem mem_normalize (h : r.Stable t.hasColumn)
    (himplied : ∀ name m key, m.isImplied = true →
      r.ofClause name m ⊆ r.ofClause name (.primaryKey key)) (a : α) :
    a ∈ r.ofTable t.normalize.value ↔ a ∈ r.ofTable t := by
  have hessential (c : Column) : a ∈ c.essential.flatMap (r.ofClause c.name) ↔
      a ∈ c.clauses.flatMap (r.ofClause c.name) := by
    unfold Column.essential
    split
    · rename_i hkey
      obtain ⟨m, hm, hprimary⟩ := List.any_eq_true.mp hkey
      cases m with
      | primaryKey key => exact mem_flatMap_filter (fun m => himplied c.name m key) hm a
      | _ => cases hprimary
    · rfl
  have hcolumns (columns : List Column) :
      a ∈ (columns.flatMap fun c => c.essential.flatMap (r.ofClause c.name)) ↔
        a ∈ r.ofColumns columns := by
    rw [ofColumns, List.mem_flatMap, List.mem_flatMap]
    simp only [hessential]
  rw [ofTable_normalize h, List.mem_append, hcolumns, ← List.mem_append]
  exact (perm_attachConstraints h.toMoves).mem_iff

/-! ### Keys with more storage options -/

theorem flatMap_mapIdx {β γ : Type} {f : Nat → β → γ} {g : γ → List α} {g' : β → List α}
    (h : ∀ i b, g (f i b) = g' b) (xs : List β) : (xs.mapIdx f).flatMap g = xs.flatMap g' := by
  rw [List.flatMap_def, map_mapIdx h, List.flatMap_def]

theorem ofTable_mapKeys (h : r.Stable t.hasColumn) (f : KeyPlace → Key → Key) :
    r.ofTable (t.mapKeys f) = r.ofTable t := by
  have hconstraint (f : Key → Key) (constraint : TableConstraint) :
      r.ofConstraint (constraint.mapKey f) = r.ofConstraint constraint := by
    rw [← h.constraint_core, TableConstraint.core_mapKey, h.constraint_core]
  have hclause (f : Key → Key) (name : String) (m : ColumnClause) :
      r.ofClause name (m.mapKey f) = r.ofClause name m := by
    rw [← h.clause_core, ColumnClause.core_mapKey, h.clause_core]
  unfold ofTable ofColumns Table.mapKeys
  rw [flatMap_mapIdx fun i k => hconstraint _ k]
  congr 1
  apply flatMap_mapIdx
  intro i c
  exact flatMap_mapIdx (fun j m => hclause _ c.name m) c.clauses

end Aspect

/-! ## Types and default values -/

/-- Whether a clause states the type or the default value of its column. -/
def ColumnClause.isDefinition : ColumnClause → Bool
  | .dataType _ | .defaultValue _ => true
  | _ => false

/-- The types and default values that a column states. -/
def Column.definitions (c : Column) : List ColumnClause := c.clauses.filter ColumnClause.isDefinition

theorem ColumnClause.isDefinition_core (m : ColumnClause) : m.core.isDefinition = m.isDefinition := by
  cases m <;> rfl

theorem ColumnClause.core_of_isDefinition {m : ColumnClause} (h : m.isDefinition = true) :
    m.core = m := by
  cases m <;> first | rfl | cases h

/-- Definitions have neither a name nor a key, so that clauses which differ in these only have the
same definitions. -/
theorem filter_isDefinition_congr {ms ms' : List ColumnClause}
    (h : ms'.map ColumnClause.core = ms.map ColumnClause.core) :
    ms'.filter ColumnClause.isDefinition = ms.filter ColumnClause.isDefinition := by
  have hview (ms : List ColumnClause) : ms.filter ColumnClause.isDefinition =
      (ms.map ColumnClause.core).filter ColumnClause.isDefinition := by
    induction ms with
    | nil => rfl
    | cons m ms ih =>
      cases hm : m.isDefinition with
      | false => simp [ColumnClause.isDefinition_core, hm, ih]
      | true => simp [ColumnClause.core_of_isDefinition hm, hm, ih]
  rw [hview ms', hview ms, h]

namespace Table

theorem definitions_addClauseIn {clause : ColumnClause} (h : clause.isDefinition = false)
    (name : String) (columns : List Column) :
    (Column.addClauseIn name clause columns).map Column.definitions =
      columns.map Column.definitions := by
  induction columns with
  | nil => rfl
  | cons c columns ih =>
    unfold Column.addClauseIn
    split
    · simp [Column.definitions, h]
    · rw [List.map_cons, ih, List.map_cons]

theorem definitions_attach (t : Table) (constraint : TableConstraint) :
    (t.attach constraint).value.columns.map Column.definitions =
      t.columns.map Column.definitions := by
  rcases t.attach_cases constraint with ⟨-, hvalue⟩ | ⟨-, column, -, -, hvalue⟩
  · rw [hvalue]
    rfl
  · rw [hvalue]
    exact definitions_addClauseIn (by cases constraint <;> rfl) column t.columns

theorem definitions_attachConstraints (t : Table) :
    t.attachConstraints.value.columns.map Column.definitions =
      t.columns.map Column.definitions := by
  apply Noted.foldlM_keeps (P := fun t' : Table => t'.columns.map Column.definitions =
    t.columns.map Column.definitions)
  · intro t' h constraint _
    rw [definitions_attach, h]
  · rfl

theorem definitions_normalize (t : Table) :
    t.normalize.value.columns.map Column.definitions = t.columns.map Column.definitions := by
  have hcolumn (table : String) (c : Column) :
      (c.normalize table).value.definitions = c.definitions := by
    have hsettled : (c.essential.map (ColumnClause.settled table c.name)).map ColumnClause.core =
        c.essential.map ColumnClause.core := by
      simp only [List.map_map, Function.comp_def, ColumnClause.core_settled]
    have hkept (m : ColumnClause) : (m.isDefinition && !m.isImplied) = m.isDefinition := by
      cases m <;> rfl
    rw [Column.value_normalize, Column.definitions, filter_isDefinition_congr hsettled,
      Column.definitions, Column.essential]
    split
    · rw [List.filter_filter]
      simp only [hkept]
    · rfl
  rw [value_normalize, List.map_map]
  simp only [Function.comp_def, hcolumn]
  exact t.definitions_attachConstraints

theorem definitions_mapKeys (t : Table) (f : KeyPlace → Key → Key) :
    (t.mapKeys f).columns.map Column.definitions = t.columns.map Column.definitions := by
  apply map_mapIdx
  intro i c
  apply filter_isDefinition_congr
  exact map_mapIdx (fun j m => m.core_mapKey _) c.clauses

end Table

/-! ## What a table enforces -/

namespace Table

/-- The lists of columns that are a primary key, in lower case. -/
def primaryKeys : Aspect (List String) where
  ofConstraint
    | .primaryKey _ columns => [columns.map Text.lower]
    | _ => []
  ofClause name
    | .primaryKey _ => [[Text.lower name]]
    | _ => []

/-- The lists of columns that are a primary key or unique, in lower case. -/
def uniqueTuples : Aspect (List String) where
  ofConstraint
    | .primaryKey _ columns | .unique _ columns => [columns.map Text.lower]
    | _ => []
  ofClause name
    | .primaryKey _ | .unique _ => [[Text.lower name]]
    | _ => []

/-- The columns that are not null, in lower case: a primary key, a not-null clause, or a check of a
column that the table has forbids it. -/
def notNullColumns (t : Table) : Aspect String where
  ofConstraint
    | .primaryKey _ columns => columns.map Text.lower
    | .check c =>
      match c.condition.notNullColumn? with
      | some column => if t.hasColumn column then [Text.lower column] else []
      | none => []
    | _ => []
  ofClause name
    | .primaryKey _ | .notNull _ => [Text.lower name]
    | _ => []

/-- The foreign keys without their names: their columns in lower case, the columns that they point
at, their delete rule, and whether they can be deferred. -/
def foreignKeys : Aspect (List String × Reference × Option OnDelete × Bool) where
  ofConstraint
    | .foreignKey key columns =>
      [(columns.map Text.lower, key.target, key.onDelete, key.deferrable)]
    | _ => []
  ofClause name
    | .foreignKey key => [([Text.lower name], key.target, key.onDelete, key.deferrable)]
    | _ => []

/-- The conditions of checks, apart from checks of a table that only forbid a column of it to be
null. -/
def conditions (t : Table) : Aspect Expression where
  ofConstraint
    | .check c => if c.condition.notNullColumn?.any t.hasColumn then [] else [c.condition]
    | _ => []
  ofClause _
    | .check c => [c.condition]
    | _ => []

theorem stable_primaryKeys (has : String → Bool) : primaryKeys.Stable has where
  attach hsole _ hname := by
    rcases TableConstraint.cases_soleColumn? hsole with ⟨key, rfl⟩ | ⟨key, rfl⟩ | ⟨key, rfl⟩ | ⟨c, rfl, -⟩
    · simp [primaryKeys, TableConstraint.toColumnClause, hname]
    · rfl
    · rfl
    · rfl
  constraint_core constraint := by cases constraint <;> rfl
  clause_core name m := by cases m <;> rfl

theorem stable_uniqueTuples (has : String → Bool) : uniqueTuples.Stable has where
  attach hsole _ hname := by
    rcases TableConstraint.cases_soleColumn? hsole with ⟨key, rfl⟩ | ⟨key, rfl⟩ | ⟨key, rfl⟩ | ⟨c, rfl, -⟩
    · simp [uniqueTuples, TableConstraint.toColumnClause, hname]
    · simp [uniqueTuples, TableConstraint.toColumnClause, hname]
    · rfl
    · rfl
  constraint_core constraint := by cases constraint <;> rfl
  clause_core name m := by cases m <;> rfl

theorem stable_notNullColumns (t : Table) : t.notNullColumns.Stable t.hasColumn where
  attach hsole hhas hname := by
    rcases TableConstraint.cases_soleColumn? hsole with
      ⟨key, rfl⟩ | ⟨key, rfl⟩ | ⟨key, rfl⟩ | ⟨c, rfl, hnull⟩
    · simp [notNullColumns, TableConstraint.toColumnClause, hname]
    · rfl
    · rfl
    · simp [notNullColumns, TableConstraint.toColumnClause, hnull, hhas, hname]
  constraint_core constraint := by cases constraint <;> rfl
  clause_core name m := by cases m <;> rfl

theorem stable_foreignKeys (has : String → Bool) : foreignKeys.Stable has where
  attach hsole _ hname := by
    rcases TableConstraint.cases_soleColumn? hsole with ⟨key, rfl⟩ | ⟨key, rfl⟩ | ⟨key, rfl⟩ | ⟨c, rfl, -⟩
    · rfl
    · rfl
    · simp [foreignKeys, TableConstraint.toColumnClause, hname]
    · rfl
  constraint_core constraint := by cases constraint <;> rfl
  clause_core name m := by cases m <;> rfl

theorem stable_conditions (t : Table) : t.conditions.Stable t.hasColumn where
  attach hsole hhas hname := by
    rcases TableConstraint.cases_soleColumn? hsole with
      ⟨key, rfl⟩ | ⟨key, rfl⟩ | ⟨key, rfl⟩ | ⟨c, rfl, hnull⟩
    · rfl
    · rfl
    · rfl
    · simp [conditions, TableConstraint.toColumnClause, hnull, hhas]
  constraint_core constraint := by cases constraint <;> rfl
  clause_core name m := by cases m <;> rfl

theorem ofTable_uniqueTuples (t : Table) : uniqueTuples.ofTable t = t.keyTuples := by
  have hconstraint (k : TableConstraint) : uniqueTuples.ofConstraint k =
      (k.keyColumns?.map fun columns => columns.map Text.lower).toList := by
    cases k <;> rfl
  have hclause (name : String) (m : ColumnClause) : uniqueTuples.ofClause name m =
      (m.key?.map fun _ => [Text.lower name]).toList := by
    cases m <;> rfl
  simp only [Aspect.ofTable, Aspect.ofColumns, keyTuples, List.filterMap_eq_flatMap_toList,
    ← hconstraint, ← hclause]

/-- Two tables have the same name, flags and storage options and the same columns with their types
and default values, and enforce the same. -/
structure Preserved (t t' : Table) : Prop where
  frame : SameFrame t t'
  names : t'.columns.map Column.name = t.columns.map Column.name
  definitions : t'.columns.map Column.definitions = t.columns.map Column.definitions
  primaryKeys : ∀ columns, columns ∈ primaryKeys.ofTable t' ↔ columns ∈ primaryKeys.ofTable t
  keyTuples : ∀ columns, columns ∈ t'.keyTuples ↔ columns ∈ t.keyTuples
  notNullColumns : ∀ column,
    column ∈ t'.notNullColumns.ofTable t' ↔ column ∈ t.notNullColumns.ofTable t
  foreignKeys : (foreignKeys.ofTable t').Perm (foreignKeys.ofTable t)
  conditions : (t'.conditions.ofTable t').Perm (t.conditions.ofTable t)

theorem Preserved.trans {t t' t'' : Table} (h : Preserved t t') (h' : Preserved t' t'') :
    Preserved t t'' where
  frame := h.frame.trans h'.frame
  names := h'.names.trans h.names
  definitions := h'.definitions.trans h.definitions
  primaryKeys columns := (h'.primaryKeys columns).trans (h.primaryKeys columns)
  keyTuples columns := (h'.keyTuples columns).trans (h.keyTuples columns)
  notNullColumns column := (h'.notNullColumns column).trans (h.notNullColumns column)
  foreignKeys := h'.foreignKeys.trans h.foreignKeys
  conditions := h'.conditions.trans h.conditions

theorem notNullColumns_congr {t t' : Table} (h : t'.hasColumn = t.hasColumn) :
    t'.notNullColumns = t.notNullColumns := by
  simp only [notNullColumns, h]

theorem conditions_congr {t t' : Table} (h : t'.hasColumn = t.hasColumn) :
    t'.conditions = t.conditions := by
  simp only [conditions, h]

/-- **Putting its constraints in order preserves a table.** -/
theorem preserved_normalize (t : Table) : Preserved t t.normalize.value where
  frame := t.sameFrame_normalize
  names := t.map_name_normalize
  definitions := t.definitions_normalize
  primaryKeys := by
    apply Aspect.mem_normalize (stable_primaryKeys _)
    intro name m key hm
    obtain ⟨_, rfl⟩ | ⟨_, rfl⟩ := ColumnClause.cases_isImplied hm
    · exact List.nil_subset _
    · exact List.nil_subset _
  keyTuples := by
    intro columns
    rw [← ofTable_uniqueTuples, ← ofTable_uniqueTuples]
    apply Aspect.mem_normalize (stable_uniqueTuples _)
    intro name m key hm
    obtain ⟨_, rfl⟩ | ⟨_, rfl⟩ := ColumnClause.cases_isImplied hm
    · exact List.nil_subset _
    · exact List.Subset.refl _
  notNullColumns := by
    rw [notNullColumns_congr (hasColumn_congr t.map_name_normalize)]
    apply Aspect.mem_normalize t.stable_notNullColumns
    intro name m key hm
    obtain ⟨_, rfl⟩ | ⟨_, rfl⟩ := ColumnClause.cases_isImplied hm
    · exact List.Subset.refl _
    · exact List.nil_subset _
  foreignKeys := by
    apply Aspect.perm_normalize (stable_foreignKeys _)
    intro name m hm
    obtain ⟨_, rfl⟩ | ⟨_, rfl⟩ := ColumnClause.cases_isImplied hm
    · rfl
    · rfl
  conditions := by
    rw [conditions_congr (hasColumn_congr t.map_name_normalize)]
    apply Aspect.perm_normalize t.stable_conditions
    intro name m hm
    obtain ⟨_, rfl⟩ | ⟨_, rfl⟩ := ColumnClause.cases_isImplied hm
    · rfl
    · rfl

/-- **More storage options for its keys preserve a table.** -/
theorem preserved_grown (t : Table) (indexes : List Index) : Preserved t (t.grown indexes) where
  frame := ⟨rfl, rfl, rfl, rfl⟩
  names := t.map_name_grown indexes
  definitions := t.definitions_mapKeys _
  primaryKeys columns := by rw [grown, Aspect.ofTable_mapKeys (stable_primaryKeys _)]
  keyTuples columns := by rw [keyTuples_grown]
  notNullColumns column := by
    rw [notNullColumns_congr (hasColumn_congr (t.map_name_grown indexes)), grown,
      Aspect.ofTable_mapKeys t.stable_notNullColumns]
  foreignKeys := by rw [grown, Aspect.ofTable_mapKeys (stable_foreignKeys _)]
  conditions := by
    rw [conditions_congr (hasColumn_congr (t.map_name_grown indexes)), grown,
      Aspect.ofTable_mapKeys t.stable_conditions]

end Table

/-! ## Whole revisions -/

namespace Script

theorem tables_normalizeTables (s : Script) :
    s.normalizeTables.value.tables = s.tables.map fun t => t.normalize.value := by
  unfold tables
  rw [statements_normalizeTables, List.filterMap_map, List.map_filterMap]
  congr 1
  funext st
  cases st <;> rfl

theorem tables_dropIndexes (s : Script) : List.Forall₂ (fun t t' => ∃ indexes, t' = t.grown indexes)
    s.tables s.dropIndexes.value.tables := by
  unfold tables
  rw [statements_dropIndexes]
  generalize s.statements = statements
  induction statements with
  | nil => exact .nil
  | cons st later ih =>
    rw [revised, List.filterMap_append]
    cases st with
    | table t =>
      apply List.Forall₂.cons _ ih
      split
      · exact ⟨[], t.grown_nil.symm⟩
      · exact ⟨_, rfl⟩
    | index i =>
      simp only [Statement.kept?]
      split <;> exact ih
    | _ => exact ih

/-- **A full revision has the same tables in the same order as one that only folds changes, and
preserves each.** -/
theorem revise_best_preserves (s : Script) :
    List.Forall₂ Table.Preserved (s.revise .basic).value.tables (s.revise .best).value.tables := by
  have hdropped := s.ordered.value.tables_dropIndexes
  rw [ordered, Noted.bind_value, tables_normalizeTables, List.forall₂_map_left_iff] at hdropped
  rw [revise_best_eq, Noted.bind_value]
  apply hdropped.imp
  rintro t _ ⟨indexes, rfl⟩
  exact t.preserved_normalize.trans (t.normalize.value.preserved_grown indexes)

end Script

end SchemaScript
