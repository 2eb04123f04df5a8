import SchemaScript.Revision.Constraints

/-!
# Tables in order

* `Noted.mapM_value`, `Noted.foldlM_keeps` — what comes of a list of steps that are noted.
* `ColumnClause.Normal`, `Column.Normal`, `Table.Normal` — what a revision leaves of a table, said
  without the revision.
* `Table.normal_normalize` — it leaves a table so.
* `Table.normalize_of_normal` — such a table it leaves as it is, and notes nothing.
-/

set_option autoImplicit false

namespace SchemaScript

/-! ## Steps that are noted -/

namespace Noted

variable {α β : Type}

theorem mapM_value (f : α → Noted β) (xs : List α) :
    (xs.mapM f).value = xs.map fun a => (f a).value := by
  induction xs with
  | nil => rfl
  | cons a xs ih =>
    rw [List.mapM_cons, bind_value, bind_value, ih]
    rfl

theorem mapM_of_pure {f : α → Noted α} {xs : List α} (h : ∀ a ∈ xs, f a = pure a) :
    xs.mapM f = pure xs := by
  induction xs with
  | nil => rfl
  | cons a xs ih =>
    rw [List.mapM_cons, h a List.mem_cons_self, ih fun b hb => h b (List.mem_cons_of_mem a hb)]
    simp

/-- What each step keeps is kept by all steps of a list. -/
theorem foldlM_keeps {P : β → Prop} {f : β → α → Noted β} {xs : List α}
    (hstep : ∀ b, P b → ∀ a ∈ xs, P (f b a).value) {b : β} (h : P b) : P (xs.foldlM f b).value := by
  induction xs generalizing b with
  | nil => exact h
  | cons a xs ih =>
    rw [List.foldlM_cons, bind_value]
    apply ih
    · intro b' hb' a' ha'
      exact hstep b' hb' a' (List.mem_cons_of_mem a ha')
    · exact hstep b h a List.mem_cons_self

end Noted

/-! ## Normal clauses and columns -/

/-- A clause has a name just if it is one that needs a name. Types, default values and primary keys
may go either way. -/
def ColumnClause.Normal : ColumnClause → Prop
  | .notNull name => name = none
  | .unique key => key.name ≠ none
  | .foreignKey key => key.name ≠ none
  | .check c => c.name ≠ none
  | _ => True

/-- The clauses of a column are normal, and a primary key stands beside no clause that it implies.
-/
structure Column.Normal (c : Column) : Prop where
  clauses : ∀ m ∈ c.clauses, m.Normal
  notNull : c.hasPrimaryKey = true → ∀ name, .notNull name ∉ c.clauses
  unique : c.hasPrimaryKey = true → ∀ key, .unique key ∉ c.clauses

namespace ColumnClause

/-- Whether a primary key beside a clause implies it. -/
def isImplied : ColumnClause → Bool
  | .notNull _ | .unique _ => true
  | _ => false

theorem cases_isImplied {m : ColumnClause} (h : m.isImplied = true) :
    (∃ name, m = .notNull name) ∨ ∃ key, m = .unique key := by
  cases m with
  | notNull name => exact .inl ⟨name, rfl⟩
  | unique key => exact .inr ⟨key, rfl⟩
  | _ => cases h

variable (table column : String)

theorem isNone_implied? (m : ColumnClause) : (m.implied? table column).isNone = !m.isImplied := by
  cases m <;> rfl

/-- A clause with its name put in order. -/
def settled (m : ColumnClause) : ColumnClause :=
  (unnamed table column (named table column m).value).value

theorem normal_settled (m : ColumnClause) : (m.settled table column).Normal := by
  cases m with
  | notNull name => cases name <;> simp [settled, named, unnamed, Normal]
  | unique key =>
    obtain ⟨name, storage⟩ := key
    cases name <;> simp [settled, named, unnamed, Normal]
  | foreignKey key =>
    obtain ⟨name, target, onDelete, deferrable⟩ := key
    cases name <;> simp [settled, named, unnamed, Normal]
  | check c =>
    obtain ⟨name, condition⟩ := c
    cases name <;> simp [settled, named, unnamed, Normal]
  | _ => trivial

@[simp] theorem kind_settled (m : ColumnClause) : (m.settled table column).kind = m.kind := by
  cases m with
  | notNull name => cases name <;> rfl
  | unique key =>
    obtain ⟨name, storage⟩ := key
    cases name <;> rfl
  | foreignKey key =>
    obtain ⟨name, target, onDelete, deferrable⟩ := key
    cases name <;> rfl
  | check c =>
    obtain ⟨name, condition⟩ := c
    cases name <;> rfl
  | _ => rfl

theorem isPrimaryKey_eq (m : ColumnClause) : m.isPrimaryKey = (m.kind == .columnPrimaryKey) := by
  cases m <;> rfl

theorem isImplied_eq (m : ColumnClause) :
    m.isImplied = (m.kind == .notNull || m.kind == .columnUnique) := by
  cases m <;> rfl

variable {m : ColumnClause}

theorem named_of_normal (h : m.Normal) : named table column m = pure m := by
  cases m with
  | unique key =>
    obtain ⟨name, storage⟩ := key
    cases name with
    | none => exact absurd rfl h
    | some name => rfl
  | foreignKey key =>
    obtain ⟨name, target, onDelete, deferrable⟩ := key
    cases name with
    | none => exact absurd rfl h
    | some name => rfl
  | check c =>
    obtain ⟨name, condition⟩ := c
    cases name with
    | none => exact absurd rfl h
    | some name => rfl
  | _ => rfl

theorem unnamed_of_normal (h : m.Normal) : unnamed table column m = pure m := by
  cases m with
  | notNull name =>
    cases h
    rfl
  | _ => rfl

end ColumnClause

namespace Column

variable (table : String)

/-- The clauses of a column that its primary key, if it has one, does not imply. -/
def essential (c : Column) : List ColumnClause :=
  if c.hasPrimaryKey then c.clauses.filter fun m => !m.isImplied else c.clauses

theorem value_normalize (c : Column) : (c.normalize table).value =
    { c with clauses := c.essential.map (ColumnClause.settled table c.name) } := by
  have hdrop : (c.dropImplied table).value = { c with clauses := c.essential } := by
    unfold dropImplied essential
    split <;> simp only [ColumnClause.isNone_implied?]
  simp only [normalize, nameClauses, unnameNotNull, Noted.bind_value, Noted.pure_value, hdrop,
    Noted.mapM_value, List.map_map]
  rfl

theorem any_essential (c : Column) : c.essential.any ColumnClause.isPrimaryKey = c.hasPrimaryKey := by
  unfold essential
  split
  · rw [List.any_filter]
    -- a primary key is not among the clauses that are left out
    have hkeep (m : ColumnClause) : (!m.isImplied && m.isPrimaryKey) = m.isPrimaryKey := by
      cases m <;> rfl
    simp only [hkeep, hasPrimaryKey]
  · rfl

theorem hasPrimaryKey_normalize (c : Column) :
    (c.normalize table).value.hasPrimaryKey = c.hasPrimaryKey := by
  rw [value_normalize, hasPrimaryKey, List.any_map, ← any_essential]
  congr 1
  funext m
  simp [ColumnClause.isPrimaryKey_eq]

theorem normal_normalize (c : Column) : (c.normalize table).value.Normal := by
  have hkeep : (c.normalize table).value.hasPrimaryKey = true →
      ∀ m ∈ (c.normalize table).value.clauses, m.isImplied = false := by
    intro hkey m hm
    rw [hasPrimaryKey_normalize] at hkey
    rw [value_normalize] at hm
    obtain ⟨m', hm', rfl⟩ := List.mem_map.mp hm
    rw [essential, if_pos hkey, List.mem_filter] at hm'
    rw [ColumnClause.isImplied_eq, ColumnClause.kind_settled, ← ColumnClause.isImplied_eq]
    simpa using hm'.2
  constructor
  · intro m hm
    rw [value_normalize] at hm
    obtain ⟨m', -, rfl⟩ := List.mem_map.mp hm
    exact m'.normal_settled table c.name
  · intro hkey name hm
    cases hkeep hkey _ hm
  · intro hkey key hm
    cases hkeep hkey _ hm

variable {c : Column}

theorem isImplied_of_normal (h : c.Normal) (hkey : c.hasPrimaryKey = true) :
    ∀ m ∈ c.clauses, m.isImplied = false := by
  intro m hm
  cases m with
  | notNull name => exact absurd hm (h.notNull hkey name)
  | unique key => exact absurd hm (h.unique hkey key)
  | _ => rfl

theorem dropImplied_of_normal (h : c.Normal) : c.dropImplied table = pure c := by
  unfold dropImplied
  split
  · rename_i hkey
    have hall := isImplied_of_normal h hkey
    have hclauses : (c.clauses.filter fun m => (m.implied? table c.name).isNone) = c.clauses := by
      rw [List.filter_eq_self]
      intro m hm
      rw [ColumnClause.isNone_implied?, hall m hm]
      rfl
    have hnotes : c.clauses.filterMap (ColumnClause.implied? table c.name) = [] := by
      rw [List.filterMap_eq_nil_iff]
      intro m hm
      rw [← Option.isNone_iff_eq_none, ColumnClause.isNone_implied?, hall m hm]
      rfl
    rw [hclauses, hnotes]
    rfl
  · rfl

/-- A normal column stays as it is. -/
theorem normalize_of_normal (h : c.Normal) : c.normalize table = pure c := by
  have hnamed : c.clauses.mapM (ColumnClause.named table c.name) = pure c.clauses :=
    Noted.mapM_of_pure fun m hm => ColumnClause.named_of_normal table c.name (h.clauses m hm)
  have hunnamed : c.clauses.mapM (ColumnClause.unnamed table c.name) = pure c.clauses :=
    Noted.mapM_of_pure fun m hm => ColumnClause.unnamed_of_normal table c.name (h.clauses m hm)
  simp only [normalize, dropImplied_of_normal table h, nameClauses, unnameNotNull, pure_bind, hnamed,
    hunnamed]

end Column

/-! ## Normal tables -/

/-- The column that a constraint is on alone. A check is such a constraint if it forbids a column to
be null. -/
def TableConstraint.soleColumn? : TableConstraint → Option String
  | .primaryKey _ [column] | .unique _ [column] | .foreignKey _ [column] => some column
  | .check c => c.condition.notNullColumn?
  | _ => none

/-- The columns of a table are normal, and no constraint is on one column of the table alone. -/
structure Table.Normal (t : Table) : Prop where
  columns : ∀ c ∈ t.columns, c.Normal
  constraints : ∀ constraint ∈ t.constraints, ∀ column, constraint.soleColumn? = some column →
    t.hasColumn column = false

theorem TableConstraint.map_attachment? (constraint : TableConstraint) :
    constraint.attachment?.map Prod.snd = constraint.soleColumn? := by
  cases constraint with
  | check c => simp [attachment?, soleColumn?, Function.comp_def]
  | primaryKey key columns | unique key columns | foreignKey key columns =>
    match columns with
    | [] => rfl
    | [column] => rfl
    | _ :: _ :: _ => rfl

namespace Table

variable {t : Table} {constraint : TableConstraint}

/-- Whether a constraint is on one column of a table alone. -/
def attaches (t : Table) (constraint : TableConstraint) : Bool :=
  constraint.soleColumn?.any t.hasColumn

theorem attach_of_not_attaches (h : t.attaches constraint = false) :
    t.attach constraint = pure (t.addConstraint constraint) := by
  rw [attaches, ← TableConstraint.map_attachment?] at h
  unfold attach
  cases hword : constraint.attachment? with
  | none => rfl
  | some entry =>
    have hcolumn : t.hasColumn entry.2 = false := by simpa [hword] using h
    simp [hcolumn, pure]

/-- **What one step can do:** a constraint that is on one column of the table alone becomes a clause
of it, and any other is kept. -/
theorem attach_cases (t : Table) (constraint : TableConstraint) :
    (t.attaches constraint = false ∧ (t.attach constraint).value = t.addConstraint constraint) ∨
    (t.attaches constraint = true ∧ ∃ column, constraint.soleColumn? = some column ∧
      t.hasColumn column = true ∧
      (t.attach constraint).value = t.addClause column constraint.toColumnClause) := by
  cases h : t.attaches constraint with
  | false =>
    left
    rw [attach_of_not_attaches h]
    exact ⟨rfl, rfl⟩
  | true =>
    right
    obtain ⟨column, hsole, hcolumn⟩ := (Option.any_eq_true ..).mp h
    refine ⟨rfl, column, hsole, hcolumn, ?_⟩
    rw [← TableConstraint.map_attachment?, Option.map_eq_some_iff] at hsole
    obtain ⟨⟨word, _⟩, hword, rfl⟩ := hsole
    simp [attach, hword, hcolumn]

theorem map_name_addClauseIn (name : String) (clause : ColumnClause) (columns : List Column) :
    (Column.addClauseIn name clause columns).map Column.name = columns.map Column.name := by
  induction columns with
  | nil => rfl
  | cons c columns ih =>
    unfold Column.addClauseIn
    split
    · rfl
    · rw [List.map_cons, ih, List.map_cons]

/-- Which columns a table has depends on the names of its columns. -/
theorem hasColumn_congr {t' : Table} (h : t.columns.map Column.name = t'.columns.map Column.name) :
    t.hasColumn = t'.hasColumn := by
  have hnames (t : Table) (name : String) :
      t.hasColumn name = (t.columns.map Column.name).any fun n => Text.sameName n name := by
    rw [hasColumn, List.any_map]
    rfl
  funext name
  rw [hnames, hnames, h]

/-- **One constraint more:** the columns keep their names, and it is kept if it does not become a
clause. -/
theorem attach_step (t : Table) (constraint : TableConstraint) :
    (t.attach constraint).value.columns.map Column.name = t.columns.map Column.name ∧
    (t.attach constraint).value.constraints =
      t.constraints ++ [constraint].filter fun k => !t.attaches k := by
  rcases t.attach_cases constraint with ⟨h, hvalue⟩ | ⟨h, column, -, -, hvalue⟩
  · simp [hvalue, addConstraint, h]
  · simp [hvalue, addClause, map_name_addClauseIn, h]

/-- **All constraints of a list.** -/
theorem attach_run (constraints : List TableConstraint) (t : Table) :
    (constraints.foldlM attach t).value.columns.map Column.name = t.columns.map Column.name ∧
    (constraints.foldlM attach t).value.constraints =
      t.constraints ++ constraints.filter fun k => !t.attaches k := by
  induction constraints generalizing t with
  | nil => simp
  | cons constraint constraints ih =>
    obtain ⟨hnames, hkept⟩ := t.attach_step constraint
    obtain ⟨hnames', hkept'⟩ := ih (t.attach constraint).value
    rw [List.foldlM_cons, Noted.bind_value]
    constructor
    · rw [hnames', hnames]
    · have hattaches : (t.attach constraint).value.attaches = t.attaches := by
        funext k
        rw [attaches, attaches, hasColumn_congr hnames]
      rw [hkept', hattaches, hkept, List.append_assoc, ← List.filter_append, List.singleton_append]

theorem map_name_attachConstraints (t : Table) :
    t.attachConstraints.value.columns.map Column.name = t.columns.map Column.name :=
  (attach_run t.constraints { t with constraints := [] }).1

theorem constraints_attachConstraints (t : Table) :
    t.attachConstraints.value.constraints = t.constraints.filter fun k => !t.attaches k :=
  (attach_run t.constraints { t with constraints := [] }).2

theorem value_normalize (t : Table) : t.normalize.value =
    { t.attachConstraints.value with
      columns := t.attachConstraints.value.columns.map fun c =>
        (c.normalize t.attachConstraints.value.name).value } := by
  simp only [normalize, Noted.bind_value, Noted.pure_value, Noted.mapM_value]

theorem map_name_normalize (t : Table) :
    t.normalize.value.columns.map Column.name = t.columns.map Column.name := by
  have hname (table : String) (c : Column) : (c.normalize table).value.name = c.name := by
    rw [Column.value_normalize]
  rw [value_normalize, List.map_map]
  simp only [Function.comp_def, hname, map_name_attachConstraints]

/-- Two tables agree in all but their columns and constraints. -/
structure SameFrame (t t' : Table) : Prop where
  name : t'.name = t.name
  isGlobal : t'.isGlobal = t.isGlobal
  temporary : t'.temporary = t.temporary
  storage : t'.storage = t.storage

theorem SameFrame.trans {t t' t'' : Table} (h : SameFrame t t') (h' : SameFrame t' t'') :
    SameFrame t t'' :=
  ⟨h'.name.trans h.name, h'.isGlobal.trans h.isGlobal, h'.temporary.trans h.temporary,
    h'.storage.trans h.storage⟩

theorem sameFrame_attach (t : Table) (constraint : TableConstraint) :
    SameFrame t (t.attach constraint).value := by
  rcases t.attach_cases constraint with ⟨-, hvalue⟩ | ⟨-, column, -, -, hvalue⟩
  · rw [hvalue]
    exact ⟨rfl, rfl, rfl, rfl⟩
  · rw [hvalue]
    exact ⟨rfl, rfl, rfl, rfl⟩

theorem sameFrame_run (constraints : List TableConstraint) (t : Table) :
    SameFrame t (constraints.foldlM attach t).value := by
  apply Noted.foldlM_keeps
  · intro t' h constraint _
    exact h.trans (sameFrame_attach t' constraint)
  · exact ⟨rfl, rfl, rfl, rfl⟩

/-- A table keeps its name, its flags and its storage options. -/
theorem sameFrame_normalize (t : Table) : SameFrame t t.normalize.value := by
  obtain ⟨hname, hglobal, htemporary, hstorage⟩ :=
    sameFrame_run t.constraints { t with constraints := [] }
  rw [value_normalize]
  exact ⟨hname, hglobal, htemporary, hstorage⟩

/-- **A table is left normal.** -/
theorem normal_normalize (t : Table) : t.normalize.value.Normal := by
  constructor
  · intro c hc
    rw [value_normalize] at hc
    obtain ⟨c', -, rfl⟩ := List.mem_map.mp hc
    exact c'.normal_normalize _
  · intro constraint hmem column hsole
    rw [value_normalize, constraints_attachConstraints, List.mem_filter] at hmem
    rw [hasColumn_congr (map_name_normalize t)]
    simpa [attaches, hsole] using hmem.2

theorem attaches_of_normal (h : t.Normal) : ∀ k ∈ t.constraints, t.attaches k = false := by
  intro k hk
  unfold attaches
  cases hsole : k.soleColumn? with
  | none => rfl
  | some column => exact h.constraints k hk column hsole

theorem attachConstraints_of_normal (h : t.Normal) : t.attachConstraints = pure t := by
  have hrun : ∀ ks pre : List TableConstraint, (∀ k ∈ ks, t.attaches k = false) →
      ks.foldlM attach { t with constraints := pre } = pure { t with constraints := pre ++ ks } := by
    intro ks
    induction ks with
    | nil => simp
    | cons k ks ih =>
      intro pre hks
      have hk : Table.attaches { t with constraints := pre } k = false := hks k List.mem_cons_self
      rw [List.foldlM_cons, attach_of_not_attaches hk, pure_bind]
      have hrest := ih (pre ++ [k]) fun k' hk' => hks k' (List.mem_cons_of_mem k hk')
      simpa [addConstraint] using hrest
  exact hrun t.constraints [] (attaches_of_normal h)

/-- **A normal table stays as it is, and nothing is noted of it.** -/
theorem normalize_of_normal (h : t.Normal) : t.normalize = pure t := by
  have hcolumns : t.columns.mapM (Column.normalize t.name) = pure t.columns :=
    Noted.mapM_of_pure fun c hc => Column.normalize_of_normal t.name (h.columns c hc)
  simp only [normalize, attachConstraints_of_normal h, pure_bind, hcolumns]

end Table

end SchemaScript
