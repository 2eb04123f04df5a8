import SchemaScript.Proofs.Revision.Alterations
import SchemaScript.Proofs.Revision.Indexes
import SchemaScript.Proofs.Revision.Normal
import Mathlib.Data.List.Basic

/-!
# Revised scripts

What each stage of a revision leaves, that the later stages keep it, and that a stage which finds it
changes nothing. A revised script revised again stays as it is.

* `Script.Folded` — what is left when the changes of a script are folded.
* `Script.Normal` — what is left when the constraints of its tables are in order and its superfluous
  indexes removed as well.
* `Script.folded_foldAlterations`, `Script.foldAlterations_of_folded` — the folding of changes.
* `Script.normal_revise_best`, `Script.revise_best_leaves` — a full revision leaves a script normal.
* `Script.revise_revise` — a second revision changes nothing.
-/

set_option autoImplicit false

namespace SchemaScript

/-! ## Changes that are folded -/

namespace AlterTable

/-- A change does something, but nothing that can be folded into its table. -/
structure Settled (a : AlterTable) : Prop where
  adds : a.adds = []
  mods : ∀ m ∈ a.mods, m.option? = none
  nonempty : a.mods ≠ [] ∨ a.drops ≠ []

variable {a b : AlterTable}

theorem settled_of_left? (h : a.left? = some b) : b.Settled := by
  simp only [left?] at h
  split at h
  · cases h
  · rename_i hsome
    cases h
    refine ⟨rfl, ?_, Classical.not_and_iff_not_or_not.mp hsome⟩
    intro m hm
    simpa using (List.mem_filter.mp hm).2

theorem left?_of_settled (h : a.Settled) : a.left? = some a := by
  have hmods : (a.mods.filter fun m => m.option?.isNone) = a.mods := by
    rw [List.filter_eq_self]
    intro m hm
    rw [h.mods m hm]
    rfl
  simp only [left?]
  rw [hmods, if_neg (Classical.not_and_iff_not_or_not.mpr h.nonempty), ← h.adds]

end AlterTable

theorem Table.extended_of_settled {t : Table} {changes : List AlterTable}
    (h : ∀ a ∈ changes, a.Settled) : t.extended changes = t := by
  induction changes with
  | nil => exact t.extended_nil
  | cons a changes ih =>
    have ha := h a List.mem_cons_self
    have hmods : a.mods.filterMap Modification.option? = [] := List.filterMap_eq_nil_iff.mpr ha.mods
    have hself : t.extended [a] = t := by simp [extended, ha.adds, hmods]
    rw [← List.singleton_append, extended_append, hself,
      ih fun b hb => h b (List.mem_cons_of_mem a hb)]

namespace Script

/-- Every change that is left of a table created in the script is settled, and no change is left of
an index created in it. -/
structure Folded (s : Script) : Prop where
  tables : ∀ a, .alterTable a ∈ s.statements →
    creates Statement.tableName? a.table s.statements = true → a.Settled
  indexes : ∀ a, .alterIndex a ∈ s.statements →
    creates Statement.indexName? a.index s.statements = false

variable {s : Script}

theorem bind_tableName?_folded? (s : Script) (later : List Statement) (st : Statement) :
    (st.folded? s later).bind Statement.tableName? = st.tableName? := by
  cases st with
  | table t =>
    simp only [Statement.folded?]
    split <;> rfl
  | alterTable a =>
    simp only [Statement.folded?]
    split
    · cases a.left? <;> rfl
    · rfl
  | alterIndex a =>
    simp only [Statement.folded?]
    split <;> rfl
  | _ => rfl

theorem bind_indexName?_folded? (s : Script) (later : List Statement) (st : Statement) :
    (st.folded? s later).bind Statement.indexName? = st.indexName? := by
  cases st with
  | index i =>
    simp only [Statement.folded?]
    split <;> rfl
  | alterTable a =>
    simp only [Statement.folded?]
    split
    · cases a.left? <;> rfl
    · rfl
  | alterIndex a =>
    simp only [Statement.folded?]
    split <;> rfl
  | _ => rfl

/-- Folding keeps the names of tables and indexes. -/
theorem creates_foldAlterations (s : Script) (name : String) :
    creates Statement.tableName? name s.foldAlterations.value.statements =
      creates Statement.tableName? name s.statements ∧
    creates Statement.indexName? name s.foldAlterations.value.statements =
      creates Statement.indexName? name s.statements := by
  rw [foldAlterations_eq]
  simp only [creates_eq, filterMap_revised (bind_tableName?_folded? s),
    filterMap_revised (bind_indexName?_folded? s), and_self]

/-- **Folding leaves nothing that could be folded.** -/
theorem folded_foldAlterations (s : Script) : s.foldAlterations.value.Folded := by
  constructor
  · intro a ha hcreates
    rw [(creates_foldAlterations s a.table).1] at hcreates
    rw [foldAlterations_eq] at ha
    obtain ⟨later, x, -, hx⟩ := exists_of_mem_revised ha
    cases x with
    | alterTable b =>
      simp only [Statement.folded?] at hx
      split at hx
      · obtain ⟨b', hb', heq⟩ := Option.map_eq_some_iff.mp hx
        cases heq
        exact AlterTable.settled_of_left? hb'
      · cases hx
        contradiction
    | alterIndex b =>
      simp only [Statement.folded?] at hx
      split at hx <;> cases hx
    | _ => cases hx
  · intro a ha
    rw [(creates_foldAlterations s a.index).2]
    rw [foldAlterations_eq] at ha
    obtain ⟨later, x, -, hx⟩ := exists_of_mem_revised ha
    cases x with
    | alterTable b =>
      simp only [Statement.folded?] at hx
      split at hx
      · obtain ⟨b', -, heq⟩ := Option.map_eq_some_iff.mp hx
        cases heq
      · cases hx
    | alterIndex b =>
      simp only [Statement.folded?] at hx
      split at hx
      · cases hx
      · rename_i hnot
        cases hx
        exact Bool.eq_false_iff.mpr hnot
    | _ => cases hx

theorem Folded.settled (h : s.Folded) {t : Table} (ht : .table t ∈ s.statements) :
    ∀ a ∈ s.changesToTable t.name, a.Settled := by
  intro a ha
  obtain ⟨hmem, hname⟩ := mem_changesToTable.mp ha
  apply h.tables a hmem
  exact creates_eq_true.mpr ⟨_, ht, t.name, rfl, hname.symm⟩

theorem Folded.changesToIndex (h : s.Folded) {i : Index} (hi : .index i ∈ s.statements) :
    s.changesToIndex i.name = [] := by
  rw [List.eq_nil_iff_forall_not_mem]
  intro a ha
  obtain ⟨hmem, hname⟩ := mem_changesToIndex.mp ha
  have hcreates : creates Statement.indexName? a.index s.statements = true :=
    creates_eq_true.mpr ⟨_, hi, i.name, rfl, hname.symm⟩
  rw [h.indexes a hmem] at hcreates
  cases hcreates

/-- What is noted of a script whose changes are folded when they are folded again: each change that
is left of a table created in the script. -/
def leftNotes (s : Script) : List Warning :=
  (s.statements.filterMap Statement.alterTable?).filterMap fun a =>
    (s.lastTable? a.table).map fun t => ⟨.alterTablePromoted, [t.name]⟩

/-- **Folding a script again changes nothing.** -/
theorem foldAlterations_of_folded (h : s.Folded) : s.foldAlterations = ⟨s, s.leftNotes⟩ := by
  have hself : revised (Statement.folded? s) s.statements = s.statements := by
    apply revised_eq_self
    intro later st hst
    cases st with
    | table t =>
      simp only [Statement.folded?, Table.extended_of_settled (h.settled hst), ite_self]
    | index i =>
      simp only [Statement.folded?, h.changesToIndex hst, Index.extended_nil, ite_self]
    | alterTable a =>
      simp only [Statement.folded?]
      split
      · rename_i hcreates
        rw [AlterTable.left?_of_settled (h.tables a hst hcreates)]
        rfl
      · rfl
    | alterIndex a => simp [Statement.folded?, h.indexes a hst]
    | _ => rfl
  have hnotes : s.statements.filterMap (Statement.foldNote? s) = s.leftNotes := by
    rw [leftNotes, List.filterMap_filterMap]
    apply List.filterMap_congr
    intro st hst
    cases st with
    | alterIndex a =>
      have hnone : s.catalog.index? a.index = none := catalog_index?_eq_none.mpr (h.indexes a hst)
      simp [Statement.foldNote?, lastIndex?_eq, hnone, Statement.alterTable?]
    | _ => rfl
  rw [foldAlterations_eq, hself, hnotes]

/-- The later stages of a revision keep what the first leaves: they keep the tables by name, and add
neither indexes nor other statements. -/
theorem Folded.of_names {s' : Script} (h : s.Folded)
    (htables : s'.statements.filterMap Statement.tableName? =
      s.statements.filterMap Statement.tableName?)
    (hindexes : s'.statements.filterMap Statement.indexName? ⊆
      s.statements.filterMap Statement.indexName?)
    (hothers : ∀ st ∈ s'.statements, st.isOther = true → st ∈ s.statements) : s'.Folded := by
  constructor
  · intro a ha hcreates
    rw [creates_eq, htables, ← creates_eq] at hcreates
    exact h.tables a (hothers _ ha rfl) hcreates
  · intro a ha
    have hold := h.indexes a (hothers _ ha rfl)
    rw [creates_eq, List.any_eq_false] at hold ⊢
    intro n hn
    exact hold n (hindexes hn)

/-! ## Tables in order -/

theorem statements_normalizeTables (s : Script) :
    s.normalizeTables.value.statements = s.statements.map fun st => st.normalize.value := by
  simp only [normalizeTables, Noted.bind_value, Noted.pure_value, Noted.mapM_value]

theorem value_normalize_table (t : Table) :
    (Statement.table t).normalize.value = .table t.normalize.value := rfl

theorem Folded.normalizeTables (h : s.Folded) : s.normalizeTables.value.Folded := by
  apply h.of_names
  · rw [statements_normalizeTables, List.filterMap_map]
    congr 1
    funext st
    cases st with
    | table t =>
      rw [Function.comp_apply, value_normalize_table]
      exact congrArg some t.sameFrame_normalize.name
    | _ => rfl
  · have hname (st : Statement) : st.normalize.value.indexName? = st.indexName? := by
      cases st <;> rfl
    intro n hn
    rw [statements_normalizeTables, List.filterMap_map] at hn
    simpa only [Function.comp_def, hname] using hn
  · intro st hst hother
    rw [statements_normalizeTables] at hst
    obtain ⟨st', hst', rfl⟩ := List.mem_map.mp hst
    cases st' <;> first | exact hst' | cases hother

theorem normal_normalizeTables {t : Table} (ht : .table t ∈ s.normalizeTables.value.statements) :
    t.Normal := by
  rw [statements_normalizeTables] at ht
  obtain ⟨st, -, hst⟩ := List.mem_map.mp ht
  cases st with
  | table t' =>
    cases hst
    exact t'.normal_normalize
  | _ => cases hst

theorem normalizeTables_of_normal (h : ∀ t, .table t ∈ s.statements → t.Normal) :
    s.normalizeTables = pure s := by
  have hall : s.statements.mapM Statement.normalize = pure s.statements := by
    apply Noted.mapM_of_pure
    intro st hst
    cases st with
    | table t => rw [Statement.normalize, Table.normalize_of_normal (h t hst), pure_bind]
    | _ => rfl
  rw [normalizeTables, hall, pure_bind]

/-! ## Superfluous indexes removed -/

theorem statements_dropIndexes (s : Script) :
    s.dropIndexes.value.statements = revised (Statement.kept? s) s.statements := by
  rw [dropIndexes_eq]

theorem bind_tableName?_kept? (s : Script) (later : List Statement) (st : Statement) :
    (st.kept? s later).bind Statement.tableName? = st.tableName? := by
  cases st with
  | table t =>
    simp only [Statement.kept?]
    split <;> rfl
  | index i =>
    simp only [Statement.kept?]
    split <;> rfl
  | _ => rfl

/-- What is left is a table whose keys have grown by indexes of the script, or something that was
there. -/
theorem mem_dropIndexes {st : Statement} (h : st ∈ s.dropIndexes.value.statements) :
    (∃ t indexes, .table t ∈ s.statements ∧ indexes ⊆ s.indexes ∧ st = .table (t.grown indexes)) ∨
      (st ∈ s.statements ∧ ∀ i, st = .index i → s.isRedundant i = false) := by
  rw [statements_dropIndexes] at h
  obtain ⟨later, x, hx, hkept⟩ := exists_of_mem_revised h
  cases x with
  | table t =>
    left
    simp only [Statement.kept?, Option.some.injEq] at hkept
    split at hkept
    · exact ⟨t, [], hx, List.nil_subset _, by rw [← hkept, Table.grown_nil]⟩
    · exact ⟨t, _, hx, fun i hi => (List.mem_filter.mp hi).1, hkept.symm⟩
  | index i =>
    right
    simp only [Statement.kept?] at hkept
    split at hkept
    · cases hkept
    · rename_i hnot
      cases hkept
      refine ⟨hx, ?_⟩
      rintro i' ⟨⟩
      exact Bool.eq_false_iff.mpr hnot
  | _ =>
    right
    cases hkept
    exact ⟨hx, by rintro i ⟨⟩⟩

theorem Folded.dropIndexes (h : s.Folded) : s.dropIndexes.value.Folded := by
  apply h.of_names
  · rw [statements_dropIndexes, filterMap_revised (bind_tableName?_kept? s)]
  · intro n hn
    obtain ⟨st, hst, hname⟩ := List.mem_filterMap.mp hn
    rcases mem_dropIndexes hst with ⟨t, indexes, -, -, rfl⟩ | ⟨hold, -⟩
    · cases hname
    · exact List.mem_filterMap.mpr ⟨st, hold, hname⟩
  · intro st hst hother
    rcases mem_dropIndexes hst with ⟨t, indexes, -, -, rfl⟩ | ⟨hold, -⟩
    · cases hother
    · exact hold

end Script

namespace ColumnClause

variable {f : Key → Key} {m : ColumnClause}

theorem kind_mapKey (f : Key → Key) (m : ColumnClause) : (m.mapKey f).kind = m.kind := by
  cases m <;> rfl

theorem Normal.mapKey (hf : ∀ key, (f key).name = key.name) (h : m.Normal) :
    (m.mapKey f).Normal := by
  cases m with
  | unique key => exact fun hnone => h ((hf key).symm.trans hnone)
  | _ => exact h

end ColumnClause

theorem TableConstraint.soleColumn?_mapKey (f : Key → Key) (constraint : TableConstraint) :
    (constraint.mapKey f).soleColumn? = constraint.soleColumn? := by
  cases constraint with
  | check c | foreignKey key columns => rfl
  | primaryKey key columns | unique key columns =>
    match columns with
    | [] => rfl
    | [column] => rfl
    | _ :: _ :: _ => rfl

theorem exists_mem_of_mem_mapIdx {α β : Type} {f : Nat → α → β} {xs : List α} {b : β}
    (h : b ∈ xs.mapIdx f) : ∃ i, ∃ a ∈ xs, f i a = b := by
  obtain ⟨i, hi, rfl⟩ := List.exists_of_mem_mapIdx h
  exact ⟨i, xs[i], List.getElem_mem hi, rfl⟩

theorem Column.Normal.mapKeys {c : Column} {f : Nat → Key → Key}
    (hf : ∀ j key, (f j key).name = key.name) (h : c.Normal) :
    Column.Normal { c with clauses := c.clauses.mapIdx fun j m => m.mapKey (f j) } := by
  have hkeep : Column.hasPrimaryKey { c with clauses := c.clauses.mapIdx fun j m => m.mapKey (f j) } =
      true → ∀ m ∈ c.clauses.mapIdx fun j m => m.mapKey (f j), m.isImplied = false := by
    intro hkey m hm
    obtain ⟨key, hmem, hkey⟩ := List.any_eq_true.mp hkey
    obtain ⟨i, key', hmem', rfl⟩ := exists_mem_of_mem_mapIdx hmem
    obtain ⟨j, m', hm', rfl⟩ := exists_mem_of_mem_mapIdx hm
    rw [ColumnClause.isPrimaryKey_eq, ColumnClause.kind_mapKey, ← ColumnClause.isPrimaryKey_eq] at hkey
    rw [ColumnClause.isImplied_eq, ColumnClause.kind_mapKey, ← ColumnClause.isImplied_eq]
    exact isImplied_of_normal h (List.any_eq_true.mpr ⟨key', hmem', hkey⟩) m' hm'
  constructor
  · intro m hm
    obtain ⟨j, m', hm', rfl⟩ := exists_mem_of_mem_mapIdx hm
    exact (h.clauses m' hm').mapKey (hf j)
  · intro hkey name hm
    cases hkeep hkey _ hm
  · intro hkey key hm
    cases hkeep hkey _ hm

/-- A table stays normal when its keys get more storage options. -/
theorem Table.Normal.grown {t : Table} (h : t.Normal) (indexes : List Index) :
    (t.grown indexes).Normal := by
  constructor
  · intro c hc
    obtain ⟨i, c', hc', rfl⟩ := exists_mem_of_mem_mapIdx hc
    exact (h.columns c' hc').mapKeys fun _ _ => rfl
  · intro constraint hmem column hsole
    obtain ⟨i, k, hk, rfl⟩ := exists_mem_of_mem_mapIdx hmem
    rw [TableConstraint.soleColumn?_mapKey] at hsole
    rw [hasColumn_congr (t.map_name_grown indexes)]
    exact h.constraints k hk column hsole

namespace Script

variable {s : Script}

/-- What the last table of a name shows is the same in two scripts if it is the same for all their
tables. -/
theorem map_lastTable? {α : Type} {s' : Script} {f : Table → α}
    (h : s'.tables.map (fun t => (t.name, f t)) = s.tables.map fun t => (t.name, f t))
    (name : String) : (s'.lastTable? name).map f = (s.lastTable? name).map f := by
  have hview (s : Script) : (s.lastTable? name).map f =
      (((s.tables.map fun t => (t.name, f t)).filter fun entry =>
        Text.sameName entry.1 name).map Prod.snd).getLast? := by
    rw [lastTable?, List.filter_map, List.map_map, List.getLast?_map]
    rfl
  rw [hview, hview, h]

/-- Removing indexes keeps which indexes are superfluous. -/
theorem isRedundant_dropIndexes (s : Script) (i : Index) :
    s.dropIndexes.value.isRedundant i = s.isRedundant i := by
  have htables : s.dropIndexes.value.tables.map (fun t => (t.name, t.keyTuples)) =
      s.tables.map fun t => (t.name, t.keyTuples) := by
    unfold tables
    rw [List.map_filterMap, List.map_filterMap, statements_dropIndexes]
    apply filterMap_revised
    intro later st
    cases st with
    | table t =>
      simp only [Statement.kept?]
      split
      · rfl
      · simp [Statement.table?, Table.keyTuples_grown]
    | index i =>
      simp only [Statement.kept?]
      split <;> rfl
    | _ => rfl
  have hview (s : Script) : s.isRedundant i = ((s.lastTable? i.table).map Table.keyTuples).any
      fun tuples => tuples.contains (i.columns.map Text.lower) := by
    rw [isRedundant, Option.any_map]
  rw [hview, hview, map_lastTable? htables]

theorem dropIndexes_of_irredundant (h : ∀ i, .index i ∈ s.statements → s.isRedundant i = false) :
    s.dropIndexes = pure s := by
  have hnone (name : String) : s.redundantOn name = [] := by
    rw [redundantOn, List.filter_eq_nil_iff]
    intro i hi
    simp [h i (mem_indexes.mp hi)]
  have hself : revised (Statement.kept? s) s.statements = s.statements := by
    apply revised_eq_self
    intro later st hst
    cases st with
    | table t => simp only [Statement.kept?, hnone, Table.grown_nil, ite_self]
    | index i => simp [Statement.kept?, h i hst]
    | _ => rfl
  have hnotes : s.statements.filterMap (Statement.redundantNote? s) = [] := by
    rw [List.filterMap_eq_nil_iff]
    intro st hst
    cases st with
    | index i => simp [Statement.redundantNote?, h i hst]
    | _ => rfl
  rw [dropIndexes_eq, hself, hnotes]
  rfl

/-! ## Whole revisions -/

/-- The tables of a script are normal, its changes are folded, and no index is superfluous. -/
structure Normal (s : Script) : Prop where
  folded : s.Folded
  tables : ∀ t, .table t ∈ s.statements → t.Normal
  indexes : ∀ i, .index i ∈ s.statements → s.isRedundant i = false

/-- A full revision leaves a script normal. -/
theorem normal_revise_best (s : Script) : (s.revise .best).value.Normal := by
  rw [revise_best_eq, Noted.bind_value]
  have hfolded : s.ordered.value.Folded := s.folded_foldAlterations.normalizeTables
  have htables : ∀ t, .table t ∈ s.ordered.value.statements → t.Normal :=
    fun t ht => normal_normalizeTables ht
  constructor
  · exact hfolded.dropIndexes
  · intro t ht
    rcases mem_dropIndexes ht with ⟨t', indexes, hold, -, heq⟩ | ⟨hold, -⟩
    · cases heq
      exact (htables t' hold).grown indexes
    · exact htables t hold
  · intro i hi
    rw [isRedundant_dropIndexes]
    rcases mem_dropIndexes hi with ⟨t', indexes, -, -, heq⟩ | ⟨-, hnot⟩
    · cases heq
    · exact hnot i rfl

/-- **In a script that is fully revised, no primary key of a table stands beside a clause that it
implies, foreign keys, checks and uniqueness clauses of columns have names and not-null clauses have
none, no constraint is on one column of its table alone, no change is left that could be folded, and
no index is on columns that its table makes unique.** -/
theorem revise_best_leaves (s : Script) :
    (∀ t, .table t ∈ (s.revise .best).value.statements →
      (∀ c ∈ t.columns, (∀ m ∈ c.clauses, m.Normal) ∧ (c.hasPrimaryKey = true →
        ∀ m ∈ c.clauses, (∀ name, m ≠ .notNull name) ∧ ∀ key, m ≠ .unique key)) ∧
      ∀ constraint ∈ t.constraints, ∀ column, constraint.soleColumn? = some column →
        t.hasColumn column = false) ∧
    (∀ a, .alterTable a ∈ (s.revise .best).value.statements →
      creates Statement.tableName? a.table (s.revise .best).value.statements = true →
        a.adds = [] ∧ ∀ m ∈ a.mods, m.storage? = none) ∧
    (∀ a, .alterIndex a ∈ (s.revise .best).value.statements →
      creates Statement.indexName? a.index (s.revise .best).value.statements = false) ∧
    ∀ i, .index i ∈ (s.revise .best).value.statements →
      ∀ t, (s.revise .best).value.lastTable? i.table = some t →
        i.columns.map Text.lower ∉ t.keyTuples := by
  have h := s.normal_revise_best
  refine ⟨?_, ?_, h.folded.indexes, ?_⟩
  · intro t ht
    obtain ⟨hcolumns, hconstraints⟩ := h.tables t ht
    refine ⟨fun c hc => ⟨(hcolumns c hc).clauses, ?_⟩, hconstraints⟩
    intro hkey m hm
    constructor
    · rintro name rfl
      exact (hcolumns c hc).notNull hkey name hm
    · rintro key rfl
      exact (hcolumns c hc).unique hkey key hm
  · intro a ha hcreates
    obtain ⟨hadds, hmods, -⟩ := h.folded.tables a ha hcreates
    rw [← Modification.storage?_eq_option?] at hmods
    exact ⟨hadds, hmods⟩
  · intro i hi t ht hmem
    have hnot := h.indexes i hi
    rw [isRedundant, ht] at hnot
    simp [hmem] at hnot

/-- A column that becomes the primary key of its table loses its other clauses on uniqueness and on
null values. -/
theorem revise_best_leaves_primary_key :
    ∃ (s : Script) (t : Table) (c : Column), .table t ∈ (s.revise .best).value.statements ∧
      c ∈ t.columns ∧ c.hasPrimaryKey = true ∧
      ∀ m ∈ c.clauses, (∀ name, m ≠ .notNull name) ∧ ∀ key, m ≠ .unique key := by
  have htable : .table { name := "t", columns :=
        [⟨"id", "t", [.dataType ⟨"NUMBER", none⟩, .primaryKey ⟨none, []⟩]⟩] } ∈
      (Script.revise .best ⟨[.table
        { name := "t"
          columns := [⟨"id", "t", [.dataType ⟨"NUMBER", none⟩, .notNull none, .unique ⟨none, []⟩]⟩]
          constraints := [.primaryKey ⟨none, []⟩ ["ID"]] }]⟩).value.statements := by
    decide
  have hcolumn := ((revise_best_leaves _).1 _ htable).1 _ (List.mem_singleton_self _)
  exact ⟨_, _, _, htable, List.mem_singleton_self _, rfl, hcolumn.2 rfl⟩

/-- Columns that a change defines anew are not revised: here a not-null clause keeps its name. -/
theorem revise_best_modified_column :
    ∃ a columns, .alterTable a ∈ (Script.revise .best ⟨[.alterTable
        { table := "t"
          mods := [.modify [
            { name := "x", clauses := [.dataType ⟨"NUMBER", none⟩, .notNull (some "nn")] }]] }
        ]⟩).value.statements ∧
      .modify columns ∈ a.mods ∧ ∃ c ∈ columns, .notNull (some "nn") ∈ c.clauses := by
  refine ⟨{ table := "t", mods := [.modify
    [{ name := "x", clauses := [.dataType ⟨"NUMBER", none⟩, .notNull (some "nn")] }]] }, _, ?_,
    List.mem_singleton_self _, _, List.mem_singleton_self _, by simp⟩
  decide

/-- A normal script stays as it is. -/
theorem revise_best_of_normal (h : s.Normal) : s.revise .best = ⟨s, s.leftNotes⟩ := by
  have hordered : s.ordered = ⟨s, s.leftNotes⟩ := by
    rw [ordered, foldAlterations_of_folded h.folded]
    simp only [bind, normalizeTables_of_normal h.tables, Noted.pure_value, Noted.pure_notes,
      List.append_nil]
  rw [revise_best_eq, hordered]
  simp only [bind, dropIndexes_of_irredundant h.indexes, Noted.pure_value, Noted.pure_notes,
    List.append_nil]

/-- **A second revision, be it full or of changes only, changes nothing.** It only notes again, in
order, each change that is left of a table created in the script. -/
theorem revise_revise (s : Script) :
    (s.revise .best).value.revise .best =
      ⟨(s.revise .best).value, (s.revise .best).value.leftNotes⟩ ∧
    (s.revise .basic).value.revise .basic =
      ⟨(s.revise .basic).value, (s.revise .basic).value.leftNotes⟩ := by
  constructor
  · exact revise_best_of_normal s.normal_revise_best
  · exact foldAlterations_of_folded s.folded_foldAlterations

end Script

end SchemaScript
