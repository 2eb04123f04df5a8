import SchemaScript.Proofs.Revision.Preservation

/-!
# The order of clauses

The clauses of a column are read in the order of `ColumnClause.rank`. A constraint that becomes a
clause of a column is put behind the clauses that the column has, whatever its rank, and so may
spoil their order.

* `Table.clausesFor` — the clauses that the constraints of a table become in the column of a name.
* `Column.gain`, `Table.columns_attachConstraints` — the columns of a table with these clauses.
* `Column.Takes` — a column stays in order when it gets clauses.
* `Script.forall_tables_revise_best` — what holds of the tables of a revised script.
* `Script.inOrder_revise_best_iff` — a full revision keeps the order just if each column takes its
  clauses.
-/

set_option autoImplicit false

namespace SchemaScript

/-! ## Clauses that columns get -/

namespace Column

/-- A column with more clauses, behind those that it has. -/
def addClauses (c : Column) (clauses : List ColumnClause) : Column :=
  { c with clauses := c.clauses ++ clauses }

@[simp] theorem addClauses_nil (c : Column) : c.addClauses [] = c := by
  simp [addClauses]

@[simp] theorem name_addClauses (c : Column) (clauses : List ColumnClause) :
    (c.addClauses clauses).name = c.name := rfl

/-- Columns with the clauses that are for their names. Of several columns of one name, only the
first gets them. -/
def gain (f : String → List ColumnClause) : List Column → List Column
  | [] => []
  | c :: cs =>
    c.addClauses (f c.name) :: gain (fun n => if Text.lower n = Text.lower c.name then [] else f n) cs

@[simp] theorem gain_nil (columns : List Column) : gain (fun _ => []) columns = columns := by
  induction columns with
  | nil => rfl
  | cons c columns ih => simp [gain, ih]

/-- One clause more for a name, whose column has got clauses before. -/
theorem addClauseIn_gain (name : String) (clause : ColumnClause) (f : String → List ColumnClause)
    (columns : List Column) : addClauseIn name clause (gain f columns) =
      gain (fun n => f n ++ if Text.lower n = Text.lower name then [clause] else []) columns := by
  induction columns generalizing f with
  | nil => rfl
  | cons c columns ih =>
    rw [gain, addClauseIn, gain]
    by_cases hc : Text.lower c.name = Text.lower name
    · -- no later column is the first of the name
      rw [if_pos (by simpa using hc), if_pos hc]
      congr 2
      · simp [addClauses]
      · funext n
        by_cases hn : Text.lower n = Text.lower name <;> simp [hc, hn]
    · rw [if_neg (by simpa using hc), if_neg hc, ih, List.append_nil]
      congr 2
      funext n
      by_cases hn : Text.lower n = Text.lower c.name <;> simp [hc, hn]

theorem addClauseIn_of_not_any {name : String} {columns : List Column} (clause : ColumnClause)
    (h : columns.any (fun c => Text.sameName c.name name) = false) :
    addClauseIn name clause columns = columns := by
  induction columns with
  | nil => rfl
  | cons c columns ih =>
    rw [List.any_cons, Bool.or_eq_false_iff] at h
    rw [addClauseIn, h.1, ih h.2]
    rfl

/-- The first column of a name gets its clauses. -/
theorem mem_gain_of_find? {f : String → List ColumnClause} {columns : List Column} {c : Column}
    (h : columns.find? (fun d => Text.sameName d.name c.name) = some c) :
    c.addClauses (f c.name) ∈ gain f columns := by
  induction columns generalizing f with
  | nil => cases h
  | cons d columns ih =>
    rw [gain]
    by_cases hd : Text.lower d.name = Text.lower c.name
    · rw [List.find?_cons_of_pos (by simpa using hd)] at h
      cases h
      exact List.mem_cons_self
    · rw [List.find?_cons_of_neg (by simpa using hd)] at h
      have hmem := ih (f := fun n => if Text.lower n = Text.lower d.name then [] else f n) h
      rw [if_neg (Ne.symm hd)] at hmem
      exact List.mem_cons_of_mem _ hmem

/-- A column is as it was, or the first of its name. -/
theorem of_mem_gain {f : String → List ColumnClause} {columns : List Column} {c : Column}
    (h : c ∈ gain f columns) :
    c ∈ columns ∨ ∃ d, columns.find? (fun d' => Text.sameName d'.name d.name) = some d ∧
      c = d.addClauses (f d.name) := by
  induction columns generalizing f with
  | nil => cases h
  | cons d columns ih =>
    rcases List.mem_cons.mp h with rfl | h
    · exact .inr ⟨d, by simp, rfl⟩
    · rcases ih h with hmem | ⟨d', hd', rfl⟩
      · exact .inl (List.mem_cons_of_mem d hmem)
      · by_cases hname : Text.lower d'.name = Text.lower d.name
        · left
          rw [if_pos hname, addClauses_nil]
          exact List.mem_cons_of_mem d (List.mem_of_find?_eq_some hd')
        · right
          refine ⟨d', ?_, by rw [if_neg hname]⟩
          rwa [List.find?_cons_of_neg (by simpa using Ne.symm hname)]

end Column

namespace Table

variable (t : Table)

/-- The clauses that the constraints of a table become in the column of a name. -/
def clausesFor (name : String) : List ColumnClause :=
  (t.constraints.filter fun k => k.soleColumn?.any (Text.sameName name)).map
    TableConstraint.toColumnClause

variable {t} in
/-- **One constraint more:** the column that it is on alone, if the table has it, gets a clause. -/
theorem columns_attach {f : String → List ColumnClause} {columns : List Column}
    (h : t.columns = Column.gain f columns) (constraint : TableConstraint) :
    (t.attach constraint).value.columns = Column.gain (fun n => f n ++
      (if constraint.soleColumn?.any (Text.sameName n) then [constraint.toColumnClause] else []))
      columns := by
  rcases t.attach_cases constraint with ⟨hattaches, hvalue⟩ | ⟨-, column, hsole, -, hvalue⟩
  · rw [hvalue, addConstraint]
    cases hsole : constraint.soleColumn? with
    | none => simpa using h
    | some column =>
      have hnone : t.hasColumn column = false := by simpa [attaches, hsole] using hattaches
      have hsame := Column.addClauseIn_of_not_any constraint.toColumnClause hnone
      rw [h, Column.addClauseIn_gain] at hsame
      simpa [h] using hsame.symm
  · rw [hvalue, addClause, h, Column.addClauseIn_gain]
    simp [hsole]

/-- **All constraints of a list.** -/
theorem columns_attach_run (constraints : List TableConstraint) (t : Table)
    {f : String → List ColumnClause} {columns : List Column} (h : t.columns = Column.gain f columns) :
    (constraints.foldlM attach t).value.columns = Column.gain (fun n => f n ++
      (constraints.filter fun k => k.soleColumn?.any (Text.sameName n)).map
        TableConstraint.toColumnClause) columns := by
  induction constraints generalizing t f with
  | nil => simpa using h
  | cons constraint constraints ih =>
    rw [List.foldlM_cons, Noted.bind_value, ih _ (columns_attach h constraint)]
    congr 1
    funext n
    cases hn : constraint.soleColumn?.any (Text.sameName n) <;> simp [hn]

/-- The first column of each name gets the clauses that constraints become. -/
theorem columns_attachConstraints :
    t.attachConstraints.value.columns = Column.gain t.clausesFor t.columns := by
  have hnone : Table.columns { t with constraints := [] } = Column.gain (fun _ => []) t.columns := by
    simp
  exact columns_attach_run t.constraints _ hnone

end Table

/-! ## Clauses in order -/

namespace Column

/-- The clauses of a column are in the order of their ranks. -/
def InOrder (c : Column) : Prop := c.clauses.Pairwise fun a b => a.rank ≤ b.rank

instance (c : Column) : Decidable c.InOrder := inferInstanceAs (Decidable (List.Pairwise _ _))

/-- Whether a column keeps a clause: it has no primary key, or none that implies the clause. -/
def keeps (c : Column) (m : ColumnClause) : Bool := !(c.hasPrimaryKey && m.isImplied)

theorem essential_eq_filter (c : Column) : c.essential = c.clauses.filter c.keeps := by
  unfold essential keeps
  split
  · rename_i hkey
    simp [hkey]
  · rename_i hkey
    simp [hkey]

/-- A column stays in order when it gets clauses: each of them that it keeps comes behind clauses of
no higher rank, be they there before or got as well. -/
structure Takes (c : Column) (clauses : List ColumnClause) : Prop where
  behind : ∀ a ∈ c.clauses, ∀ b ∈ clauses, (c.addClauses clauses).keeps a = true →
    (c.addClauses clauses).keeps b = true → a.rank ≤ b.rank
  among : (clauses.filter (c.addClauses clauses).keeps).Pairwise fun a b => a.rank ≤ b.rank

variable {c : Column}

theorem InOrder.essential (h : c.InOrder) : c.essential.Pairwise fun a b => a.rank ≤ b.rank := by
  rw [essential_eq_filter]
  exact h.filter _

theorem InOrder.takes_iff (h : c.InOrder) (clauses : List ColumnClause) :
    ((c.addClauses clauses).essential.Pairwise fun a b => a.rank ≤ b.rank) ↔ c.Takes clauses := by
  have hold : (c.clauses.filter (c.addClauses clauses).keeps).Pairwise fun a b => a.rank ≤ b.rank :=
    h.filter _
  rw [essential_eq_filter, addClauses, List.filter_append, List.pairwise_append, ← addClauses]
  simp only [List.mem_filter]
  constructor
  · rintro ⟨-, hamong, hbehind⟩
    exact ⟨fun a ha b hb hka hkb => hbehind a ⟨ha, hka⟩ b ⟨hb, hkb⟩, hamong⟩
  · rintro ⟨hbehind, hamong⟩
    exact ⟨hold, hamong, fun a ha b hb => hbehind a ha.1 b hb.1 ha.2 hb.2⟩

theorem inOrder_normalize (table : String) (c : Column) :
    (c.normalize table).value.InOrder ↔ c.essential.Pairwise fun a b => a.rank ≤ b.rank := by
  rw [value_normalize, InOrder, List.pairwise_map]
  simp only [ColumnClause.rank, ColumnClause.kind_settled]

end Column

namespace Table

variable {t : Table}

/-- **A table in order has the clauses of its columns in order** just if each column takes the
clauses that constraints become. -/
theorem inOrder_normalize_iff (h : ∀ c ∈ t.columns, c.InOrder) :
    (∀ c ∈ t.normalize.value.columns, c.InOrder) ↔
      ∀ c, t.columns.find? (fun d => Text.sameName d.name c.name) = some c →
        c.Takes (t.clausesFor c.name) := by
  rw [value_normalize, List.forall_mem_map, columns_attachConstraints]
  simp only [Column.inOrder_normalize]
  constructor
  · intro hall c hc
    have hmem := List.mem_of_find?_eq_some hc
    exact ((h c hmem).takes_iff _).mp (hall _ (Column.mem_gain_of_find? hc))
  · intro hall c hc
    rcases Column.of_mem_gain hc with hmem | ⟨d, hd, rfl⟩
    · exact (h c hmem).essential
    · exact ((h d (List.mem_of_find?_eq_some hd)).takes_iff _).mpr (hall d hd)

/-- More storage options for keys leave the clauses where they are. -/
theorem inOrder_grown_iff (t : Table) (indexes : List Index) :
    (∀ c ∈ (t.grown indexes).columns, c.InOrder) ↔ ∀ c ∈ t.columns, c.InOrder := by
  have hranks : (t.grown indexes).columns.map (fun c => c.clauses.map ColumnClause.rank) =
      t.columns.map fun c => c.clauses.map ColumnClause.rank := by
    apply map_mapIdx
    intro i c
    apply map_mapIdx
    intro j m
    rw [ColumnClause.rank, ColumnClause.kind_mapKey, ColumnClause.rank]
  have hview (columns : List Column) : (∀ c ∈ columns, c.InOrder) ↔
      ∀ ranks ∈ columns.map (fun c => c.clauses.map ColumnClause.rank),
        ranks.Pairwise (· ≤ ·) := by
    simp only [List.forall_mem_map, List.pairwise_map, Column.InOrder]
  rw [hview, hview, hranks]

end Table

/-! ## Whole revisions -/

/-- The columns that a statement creates: those of a table, and those that a change adds to one. -/
def Statement.columns : Statement → List Column
  | .table t => t.columns
  | .alterTable a => a.adds.filterMap Addition.column?
  | _ => []

namespace Script

variable {s : Script}

/-- The tables of a script that is fully revised are those with its changes folded, each in order
and with indexes taken up by its keys. -/
theorem tables_revise_best (s : Script) :
    List.Forall₂ (fun t t' => ∃ indexes, t' = t.normalize.value.grown indexes)
      (s.revise .basic).value.tables (s.revise .best).value.tables := by
  have hdropped := s.ordered.value.tables_dropIndexes
  rwa [ordered, Noted.bind_value, tables_normalizeTables, List.forall₂_map_left_iff] at hdropped

/-- What holds of the tables of a script that is fully revised, said of its tables with changes
folded. -/
theorem forall_tables_revise_best {P Q : Table → Prop}
    (h : ∀ t ∈ (s.revise .basic).value.tables, ∀ indexes,
      P (t.normalize.value.grown indexes) ↔ Q t) :
    (∀ t ∈ (s.revise .best).value.tables, P t) ↔ ∀ t ∈ (s.revise .basic).value.tables, Q t := by
  have htables := s.tables_revise_best
  generalize (s.revise .basic).value.tables = ts at h htables ⊢
  generalize (s.revise .best).value.tables = ts' at htables ⊢
  induction htables with
  | nil => simp
  | cons hgrown _ ih =>
    obtain ⟨indexes, rfl⟩ := hgrown
    obtain ⟨hhead, htail⟩ := List.forall_mem_cons.mp h
    rw [List.forall_mem_cons, List.forall_mem_cons]
    exact and_congr (hhead indexes) (ih htail)

/-- Folding keeps the order of clauses in columns. -/
theorem inOrder_revise_basic (h : ∀ st ∈ s.statements, ∀ c ∈ st.columns, c.InOrder) :
    ∀ t ∈ (s.revise .basic).value.tables, ∀ c ∈ t.columns, c.InOrder := by
  have hkeep : ∀ st ∈ (s.revise .basic).value.statements, ∀ c ∈ st.columns, c.InOrder := by
    refine s.foldAlterations_keeps h (fun _ hst => hst) ?_ ?_ ?_
    · intro t changes ht hchanges c hc
      rcases Table.mem_columns_extended hc with hc | ⟨a, ha, c', hc', rfl⟩
      · exact ht c hc
      · have hadded : c' ∈ (Statement.alterTable a).columns :=
          List.mem_filterMap.mpr ⟨_, hc', rfl⟩
        exact hchanges a ha c' hadded
    · intro i changes _ _ c hc
      cases hc
    · intro a b _ hleft c hc
      rw [Statement.columns, (AlterTable.settled_of_left? hleft).adds] at hc
      cases hc
  intro t ht
  exact hkeep _ (mem_tables.mp ht)

/-- **A full revision keeps the order of clauses if and only if no constraint becomes a clause
behind one of a higher rank.** Let the columns that a script creates have their clauses in order.
Then so have the columns of the revised tables just if, in each table with its changes folded, the
first column of each name takes the clauses that the constraints on it alone become. -/
theorem inOrder_revise_best_iff (h : ∀ st ∈ s.statements, ∀ c ∈ st.columns, c.InOrder) :
    (∀ t ∈ (s.revise .best).value.tables, ∀ c ∈ t.columns, c.InOrder) ↔
      ∀ t ∈ (s.revise .basic).value.tables, ∀ c,
        t.columns.find? (fun d => Text.sameName d.name c.name) = some c →
          c.Takes (t.clausesFor c.name) := by
  apply forall_tables_revise_best
  intro t ht indexes
  rw [Table.inOrder_grown_iff]
  exact Table.inOrder_normalize_iff (inOrder_revise_basic h t ht)

/-- A primary key that is added to a table comes behind the type of its column, once the clauses
that it implies are left out, and so does a foreign key behind it. -/
theorem inOrder_revise_best_added_key :
    ∃ s : Script, (∀ st ∈ s.statements, ∀ c ∈ st.columns, c.InOrder) ∧
      ∀ t ∈ (s.revise .basic).value.tables, ∀ c,
        t.columns.find? (fun d => Text.sameName d.name c.name) = some c →
          c.Takes (t.clausesFor c.name) := by
  have h : ∀ st ∈ [
      .alterTable { table := "t", adds := [
        .constraint (.primaryKey {} ["id"]),
        .constraint (.foreignKey { target := ⟨"p", ["id"]⟩ } ["ID"])] },
      .table { name := "t", columns :=
        [⟨"id", "t", [.dataType ⟨"NUMBER", none⟩, .notNull none, .unique {}]⟩] }],
      ∀ c ∈ Statement.columns st, c.InOrder := by
    decide
  exact ⟨_, h, (inOrder_revise_best_iff (s := ⟨_⟩) h).mp (by decide)⟩

/-- **The order of clauses may be lost:** a primary key of a table becomes a clause behind the
foreign key of its column. -/
theorem not_inOrder_revise_best_primary_key :
    ∃ s : Script, (∀ st ∈ s.statements, ∀ c ∈ st.columns, c.InOrder) ∧
      ¬ ∀ t ∈ (s.revise .best).value.tables, ∀ c ∈ t.columns, c.InOrder := by
  refine ⟨⟨[.table
    { name := "t"
      columns := [⟨"id", "t", [.dataType ⟨"NUMBER", none⟩, .foreignKey { target := ⟨"p", ["id"]⟩ }]⟩]
      constraints := [.primaryKey { name := some "t_pk" } ["id"]] }]⟩, ?_, ?_⟩
  · decide
  · decide

end Script

end SchemaScript
