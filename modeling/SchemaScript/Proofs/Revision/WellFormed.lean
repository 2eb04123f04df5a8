import SchemaScript.Proofs.Revision.Shape

/-!
# Folded scripts are well-formed

Reading establishes the shape of a script, and folding its changes keeps it.

* `Statement.names` — the names of objects, columns and constraints in a statement, and of each
  part.
* `IsPlainName` — a letter, then letters, digits, underscores and dots, that spell no reserved word.
* `Statement.WellFormed.names` — the names of a well-formed statement are such names.
* `Table.WellFormed.extended`, `Index.WellFormed.extended` — what takes up changes keeps its shape.
* `Script.wellFormed_revise_basic` — the statements of a script that has been read are well-formed,
  and so are those that it has once its changes are folded.
-/

set_option autoImplicit false

namespace SchemaScript

/-! ## Names -/

/-- A letter, then letters, digits, underscores and dots, that spell no reserved word. -/
structure IsPlainName (n : String) : Prop where
  letters : ∃ c cs, n.toList = c :: cs ∧ c.isAlpha ∧ ∀ d ∈ cs, d.isAlphanum ∨ d = '_' ∨ d = '.'
  unreserved : ∀ k : Keyword, Text.upper n = k.name → k.mayBeName

theorem IsName.isPlainName {n : String} (h : IsName n) : IsPlainName n := by
  refine ⟨?_, fun k hk => ?_⟩
  · have hword := h.isWord
    cases hn : n.toList with
    | nil => simp [hn, Scan.isWord] at hword
    | cons c cs =>
      rw [hn, Scan.isWord, Bool.and_eq_true] at hword
      refine ⟨c, cs, rfl, hword.1, fun d hd => ?_⟩
      simpa [Scan.isWordChar, or_assoc] using List.all_eq_true.mp hword.2 d hd
  · have hname := h.isName
    rw [Word.ofText_word h.isWord, Scan.wordKind, String.ofList_toList,
      Keyword.ofWord?_eq_some.mpr hk] at hname
    exact hname

/-- The names in a foreign key: its own, and what it points at. -/
def ForeignKey.names (key : ForeignKey) : List String :=
  key.name.toList ++ key.target.table :: key.target.columns

/-- The names in a clause of a column. -/
def ColumnClause.names : ColumnClause → List String
  | .dataType _ | .defaultValue _ => []
  | .notNull name => name.toList
  | .primaryKey key | .unique key => key.name.toList
  | .foreignKey key => key.names
  | .check c => c.name.toList

/-- The names in a column. -/
def Column.names (c : Column) : List String := c.name :: c.clauses.flatMap ColumnClause.names

/-- The names in a constraint of a table. -/
def TableConstraint.names : TableConstraint → List String
  | .primaryKey key columns | .unique key columns => key.name.toList ++ columns
  | .foreignKey key columns => key.names ++ columns
  | .check c => c.name.toList

/-- The names in a table. -/
def Table.names (t : Table) : List String :=
  t.name :: (t.columns.flatMap Column.names ++ t.constraints.flatMap TableConstraint.names)

/-- The names in what is added to a table. -/
def Addition.names : Addition → List String
  | .column c => c.names
  | .constraint c => c.names
  | .storage _ => []

/-- The names in a modification. -/
def Modification.names : Modification → List String
  | .rename (.table newName) => [newName]
  | .rename (.column name newName) => [name, newName]
  | .modify columns => columns.flatMap Column.names
  | .storage _ => []

/-- The names in a change to a table. -/
def AlterTable.names (a : AlterTable) : List String :=
  a.table :: (a.adds.flatMap Addition.names ++ a.mods.flatMap Modification.names ++
    a.drops.map Drop.name)

/-- The names of objects, columns and constraints in a statement. A column that is commented on is
named with its table and a dot. -/
def Statement.names : Statement → List String
  | .table t => t.names
  | .index i => i.name :: i.table :: i.columns
  | .sequence s => [s.name]
  | .synonym s => s.name :: s.target.toList
  | .alterTable a => a.names
  | .alterIndex a => [a.index]
  | .drop d => [d.name]
  | .comment (.table owner _) => [owner]
  | .comment (.column owner part _) => [owner ++ "." ++ part]
  | .insert i => i.table :: i.columns
  | .commit => []
  | .inclusion _ => []

/-! ### The names of well-formed nodes -/

theorem ForeignKey.WellFormed.names {key : ForeignKey} (h : key.WellFormed) :
    ∀ n ∈ key.names, IsName n := by
  refine List.forall_mem_append.mpr ⟨?_, List.forall_mem_cons.mpr ⟨h.table, h.columns.names⟩⟩
  exact fun n hn => h.name n (Option.mem_toList.mp hn)

theorem ColumnClause.WellFormed.names {m : ColumnClause} (h : m.WellFormed) :
    ∀ n ∈ m.names, IsName n := by
  cases m with
  | dataType t => simp [ColumnClause.names]
  | defaultValue x => simp [ColumnClause.names]
  | notNull name => exact fun n hn => h n (Option.mem_toList.mp hn)
  | primaryKey key | unique key =>
    exact fun n hn => Key.WellFormed.name h n (Option.mem_toList.mp hn)
  | foreignKey key => exact ForeignKey.WellFormed.names h
  | check c => exact fun n hn => h n (Option.mem_toList.mp hn)

theorem Column.WellFormed.names {c : Column} (h : c.WellFormed) : ∀ n ∈ c.names, IsName n := by
  refine List.forall_mem_cons.mpr ⟨h.name, fun n hn => ?_⟩
  obtain ⟨m, hm, hn⟩ := List.mem_flatMap.mp hn
  exact (h.clauses m hm).names n hn

theorem TableConstraint.WellFormed.names {c : TableConstraint} (h : c.WellFormed) :
    ∀ n ∈ c.names, IsName n := by
  cases c with
  | primaryKey key columns | unique key columns =>
    refine List.forall_mem_append.mpr ⟨?_, h.2.names⟩
    exact fun n hn => h.1.name n (Option.mem_toList.mp hn)
  | foreignKey key columns => exact List.forall_mem_append.mpr ⟨h.1.names, h.2.names⟩
  | check c => exact fun n hn => h n (Option.mem_toList.mp hn)

theorem Table.WellFormed.names {t : Table} (h : t.WellFormed) : ∀ n ∈ t.names, IsName n := by
  refine List.forall_mem_cons.mpr ⟨h.name, List.forall_mem_append.mpr ⟨?_, ?_⟩⟩
  · intro n hn
    obtain ⟨c, hc, hn⟩ := List.mem_flatMap.mp hn
    exact (h.columns c hc).1.names n hn
  · intro n hn
    obtain ⟨c, hc, hn⟩ := List.mem_flatMap.mp hn
    exact (h.constraints c hc).names n hn

theorem Addition.WellFormed.names {a : Addition} (h : a.WellFormed) : ∀ n ∈ a.names, IsName n := by
  cases a with
  | column c => exact h.1.names
  | constraint c => exact TableConstraint.WellFormed.names h
  | storage s => simp [Addition.names]

theorem AlterTable.WellFormed.names {a : AlterTable} (h : a.WellFormed) :
    ∀ n ∈ a.names, IsName n := by
  refine List.forall_mem_cons.mpr ⟨h.table, ?_⟩
  obtain ⟨table, adds, mods, drops⟩ := a
  cases h.actions with
  | adds _ hadds =>
    intro n hn
    simp only [List.flatMap_nil, List.map_nil, List.append_nil, List.mem_flatMap] at hn
    obtain ⟨a, ha, hn⟩ := hn
    exact (hadds a ha).names n hn
  | drop hname => simpa using hname
  | @rename r hrename =>
    cases r with
    | table newName => simpa [Modification.names, Rename.WellFormed] using hrename
    | column name newName => simpa [Modification.names, Rename.WellFormed] using hrename
  | modify _ hcolumns =>
    intro n hn
    simp only [List.flatMap_nil, List.map_nil, List.append_nil, List.nil_append, List.flatMap_cons,
      Modification.names, List.mem_flatMap] at hn
    obtain ⟨c, hc, hn⟩ := hn
    exact (hcolumns c hc).1.names n hn
  | storage _ _ => simp [List.flatMap_map, Modification.names]

theorem Statement.WellFormed.names {st : Statement} (h : st.WellFormed) :
    ∀ n ∈ st.names, IsName n := by
  cases st with
  | table t => exact Table.WellFormed.names h
  | index i =>
    exact List.forall_mem_cons.mpr ⟨h.name, List.forall_mem_cons.mpr ⟨h.table, h.columns.names⟩⟩
  | sequence s => exact List.forall_mem_singleton.mpr h.name
  | synonym s =>
    exact List.forall_mem_cons.mpr ⟨h.name, fun n hn => h.target n (Option.mem_toList.mp hn)⟩
  | alterTable a => exact AlterTable.WellFormed.names h
  | alterIndex a => exact List.forall_mem_singleton.mpr h.index
  | drop d =>
    have hname : IsName d.name := h
    exact List.forall_mem_singleton.mpr hname
  | comment c =>
    cases c with
    | table table text => exact List.forall_mem_singleton.mpr h.1
    | column table column text => exact List.forall_mem_singleton.mpr h.1
  | insert i =>
    refine List.forall_mem_cons.mpr ⟨h.table, ?_⟩
    rcases h.columns with hnil | hnames
    · simp [hnil]
    · exact hnames.names
  | commit => simp [Statement.names]
  | inclusion path => simp [Statement.names]

/-! ## Changes folded -/

/-- A column keeps its shape when it is given to another table. -/
theorem Column.Listed.moved {c : Column} (h : c.Listed) (table : String) :
    Column.Listed { c with table } :=
  ⟨⟨h.name, h.ne_nil, h.clauses, h.sorted⟩, h.name_ne⟩

/-- **A table that takes up changes keeps its shape.** -/
theorem Table.WellFormed.extended {t : Table} (h : t.WellFormed) {changes : List AlterTable}
    (hchanges : ∀ a ∈ changes, a.WellFormed) : (t.extended changes).WellFormed := by
  refine ⟨h.name, h.temporary, ?_, ?_, ?_, ?_⟩
  · intro c hc
    rcases Table.mem_columns_extended hc with hc | ⟨a, ha, c', hc', rfl⟩
    · exact h.columns c hc
    · have hadd : c'.Listed ∧ c'.table = "" := (hchanges a ha).adds _ hc'
      exact ⟨hadd.1.moved t.name, rfl⟩
  · intro c hc
    rcases Table.mem_constraints_extended hc with hc | ⟨a, ha, hc⟩
    · exact h.constraints c hc
    · exact (hchanges a ha).adds _ hc
  · rcases h.ne_nil with hne | hne
    · exact .inl (List.append_ne_nil_of_left_ne_nil hne _)
    · exact .inr (List.append_ne_nil_of_left_ne_nil hne _)
  · intro s hs
    rcases Table.mem_storage_extended hs with hs | ⟨a, ha, hs | hs⟩
    · exact h.storage s hs
    · exact (hchanges a ha).adds _ hs
    · exact (hchanges a ha).storage s hs

/-- An index that takes up changes keeps its shape. -/
theorem Index.WellFormed.extended {i : Index} (h : i.WellFormed) {changes : List AlterIndex}
    (hchanges : ∀ a ∈ changes, a.WellFormed) : (i.extended changes).WellFormed := by
  refine ⟨h.name, h.table, h.columns, fun s hs => ?_⟩
  rcases Index.mem_storage_extended hs with hs | ⟨a, ha, hs⟩
  · exact h.storage s hs
  · exact (hchanges a ha).storage s hs

namespace Script

theorem wellFormed_foldAlterations {s : Script} (h : ∀ st ∈ s.statements, st.WellFormed) :
    ∀ st ∈ s.foldAlterations.value.statements, st.WellFormed := by
  refine s.foldAlterations_keeps h (fun _ hst => hst) ?_ ?_ ?_
  · intro t changes ht hchanges
    exact Table.WellFormed.extended ht hchanges
  · intro i changes hi hchanges
    exact Index.WellFormed.extended hi hchanges
  · intro a b ha hleft
    rw [AlterTable.WellFormed.eq_of_left? ha hleft]
    exact ha

/-- **Reading establishes the shape of scripts, and folding changes keeps it.** Every statement of a
script that a text holds is well-formed, and its names are plain. So are the statements of the
script once its changes are folded, though columns, constraints and options then have new owners. -/
theorem wellFormed_revise_basic {text : String} {s : Script} (h : Script.parse text = .ok s) :
    (∀ st ∈ s.statements, st.WellFormed ∧ ∀ n ∈ st.names, IsPlainName n) ∧
    ∀ st ∈ (s.revise .basic).value.statements, st.WellFormed ∧ ∀ n ∈ st.names, IsPlainName n := by
  have hread : ∀ st ∈ s.statements, st.WellFormed := fun st hst => (of_parse h st hst).1
  have hnames : ∀ st : Statement, st.WellFormed →
      st.WellFormed ∧ ∀ n ∈ st.names, IsPlainName n :=
    fun st hst => ⟨hst, fun n hn => (hst.names n hn).isPlainName⟩
  constructor
  · intro st hst
    exact hnames st (hread st hst)
  · intro st hst
    exact hnames st (wellFormed_foldAlterations hread st hst)

/-- A table takes up a constraint from a change before it. -/
theorem wellFormed_revise_basic_constraint :
    ∃ s t,
      Script.parse "ALTER TABLE t ADD CONSTRAINT k UNIQUE (b); CREATE TABLE t (PRIMARY KEY (a));" =
        .ok s ∧
      (s.revise .basic).value.statements = [.table t] ∧
      t.names = ["t", "a", "k", "b"] ∧ t.WellFormed ∧ ∀ n ∈ t.names, IsPlainName n := by
  have hparse : Script.parse
      "ALTER TABLE t ADD CONSTRAINT k UNIQUE (b); CREATE TABLE t (PRIMARY KEY (a));" = .ok ⟨[
      .alterTable { table := "t", adds := [.constraint (.unique ⟨some "k", []⟩ ["b"])] },
      .table { name := "t", columns := [], constraints := [.primaryKey ⟨none, []⟩ ["a"]] }]⟩ := by
    decide +kernel
  have hvalue : (Script.revise .basic ⟨[
      .alterTable { table := "t", adds := [.constraint (.unique ⟨some "k", []⟩ ["b"])] },
      .table { name := "t", columns := [], constraints := [.primaryKey ⟨none, []⟩ ["a"]] }]⟩
      ).value.statements =
      [.table
        { name := "t", columns := []
          constraints := [.primaryKey ⟨none, []⟩ ["a"], .unique ⟨some "k", []⟩ ["b"]] }] := by
    decide
  have hrevised := (wellFormed_revise_basic hparse).2 _ (hvalue ▸ List.mem_singleton_self _)
  exact ⟨_, _, hparse, hvalue, rfl, hrevised⟩

end Script

end SchemaScript
