import SchemaScript.Proofs.Revision.Shape
import SchemaScript.Proofs.Script.RoundTrip

/-!
# What is written for a revised script

A revision can leave the clauses of a column out of order. They are written in order, so a revised
script is written like the same script with its columns tidied, which has a shape that is read back.
This fails only where a key has taken up storage options that no key is read with.

* `Script.tidied` — a script with the clauses of the columns of its tables in order.
* `Target.script_tidied` — a script and its tidied form are written alike.
* `Key.isRestorable` — whether the storage options of a key are read back.
* `Script.parse_convert_best` — what is written for a revised script is read back.
-/

set_option autoImplicit false

namespace SchemaScript

variable {t : Target} {o : WriteOptions}

/-! ## Columns tidied -/

/-- A column with its clauses in order. -/
def Column.tidied (c : Column) : Column := { Column.ofClauses c.name c.clauses with table := c.table }

/-- A table with the clauses of its columns in order. -/
def Table.tidied (table : Table) : Table := { table with columns := table.columns.map Column.tidied }

/-- A statement with the clauses of the columns of a table in order. -/
def Statement.tidied : Statement → Statement
  | .table x => .table x.tidied
  | st => st

/-- A script with the clauses of the columns of its tables in order. -/
def Script.tidied (s : Script) : Script := ⟨s.statements.map Statement.tidied⟩

/-! ## What is written -/

namespace Target

theorem sorted_tidied (c : Column) : (t.writer o).sorted ColumnClause.kind c.tidied.clauses =
    (t.writer o).sorted ColumnClause.kind c.clauses := by
  rw [sorted_eq_ofClauses c.name, sorted_eq_ofClauses c.name]
  refine congrArg Except.ok ?_
  apply (Column.clauses_ofClauses_eq_iff c.name c.tidied.clauses).mpr
  exact (Column.stablySorted_ofClauses c.name c.clauses).sorted

theorem column_tidied (n width : Nat) (c : Column) :
    (t.writer o).column n width c.tidied = (t.writer o).column n width c := by
  unfold Writer.column
  rw [sorted_tidied]
  rfl

theorem table_tidied (n : Nat) (table : Table) :
    (t.writer o).table n table.tidied = (t.writer o).table n table := by
  have hmargin : Writer.margin n (table.columns.map Column.tidied) = Writer.margin n table.columns := by
    rw [Writer.margin, List.map_map]
    rfl
  have hcolumns : (table.columns.map Column.tidied).mapM
      ((t.writer o).column (n + Writer.tab) (Writer.margin n table.columns)) =
      table.columns.mapM ((t.writer o).column (n + Writer.tab) (Writer.margin n table.columns)) :=
    mapM_map_congr fun c _ => column_tidied _ _ c
  simp only [Writer.table, Table.tidied, hmargin, hcolumns]
  rfl

/-- **A script and its tidied form are written alike.** -/
theorem script_tidied (s : Script) :
    (t.writer o).script s.tidied = (t.writer o).script s := by
  have hkind : ∀ st : Statement, st.tidied.kind = st.kind := by
    intro st
    cases st <;> rfl
  have harranged : s.tidied.arranged t o = (s.arranged t o).map Statement.tidied := by
    unfold Script.arranged
    split
    · refine (List.map_mergeSort fun a _ b _ => ?_).symm
      rw [hkind, hkind]
    · rfl
  rw [script_eq, script_eq, harranged, mapM_map_congr]
  intro st _
  cases st with
  | table x => exact table_tidied 0 x
  | _ => rfl

end Target

/-! ## What is read back -/

/-- Whether a key can be read back once it is written: it has at most a tablespace for its index. -/
def Key.isRestorable (key : Key) : Bool :=
  match key.storage with
  | [] | [.indexTablespace _] => true
  | _ => false

/-- The primary keys and uniqueness clauses of a table. -/
def Table.keys (table : Table) : List Key :=
  table.constraints.filterMap TableConstraint.key? ++
    table.columns.flatMap fun c => c.clauses.filterMap ColumnClause.key?

/-- The primary keys and uniqueness clauses of the tables of a script. -/
def Script.keys (s : Script) : List Key := s.tables.flatMap Table.keys

theorem Key.Sound.wellFormed {key : Key} (h : key.Sound) (hkey : key.isRestorable) :
    key.WellFormed := by
  refine ⟨h.name, ?_⟩
  unfold isRestorable at hkey
  split at hkey
  · rename_i hnil
    exact .inl hnil
  · rename_i n hn
    exact .inr ⟨_, hn, .indexTablespace (h.spaces n (hn ▸ List.mem_singleton_self _))⟩
  · cases hkey

theorem Key.writable_leaves (key : Key) : ∀ l ∈ key.leaves, l.Writable t := by
  intro l hl
  obtain ⟨option, -, rfl⟩ := List.mem_map.mp hl
  exact .of_calls_eq_nil trivial rfl

theorem ColumnClause.Sound.restore {m : ColumnClause} (h : m.Sound t)
    (hkeys : ∀ key ∈ m.key?, key.isRestorable) : m.WellFormed ∧ ∀ l ∈ m.leaves, l.Writable t := by
  cases m with
  | primaryKey key | unique key =>
    exact ⟨Key.Sound.wellFormed h (hkeys key rfl), key.writable_leaves⟩
  | defaultValue x => exact ⟨trivial, List.forall_mem_singleton.mpr h⟩
  | check c => exact ⟨h.1, List.forall_mem_singleton.mpr h.2⟩
  | notNull name => exact ⟨h, by simp [ColumnClause.leaves]⟩
  | dataType d | foreignKey key =>
    exact ⟨h, List.forall_mem_singleton.mpr (.of_calls_eq_nil trivial rfl)⟩

theorem TableConstraint.Sound.restore {c : TableConstraint} (h : c.Sound t)
    (hkeys : ∀ key ∈ c.key?, key.isRestorable) : c.WellFormed ∧ ∀ l ∈ c.leaves, l.Writable t := by
  cases c with
  | primaryKey key columns | unique key columns =>
    exact ⟨⟨h.1.wellFormed (hkeys key rfl), h.2⟩, key.writable_leaves⟩
  | foreignKey key columns =>
    exact ⟨h, List.forall_mem_singleton.mpr (.of_calls_eq_nil trivial rfl)⟩
  | check c => exact ⟨h.1, List.forall_mem_singleton.mpr h.2⟩

theorem Column.Sound.restore {c : Column} (h : c.Sound t)
    (hkeys : ∀ m ∈ c.clauses, ∀ key ∈ m.key?, key.isRestorable) :
    c.tidied.Listed ∧ ∀ l ∈ c.tidied.leaves, l.Writable t := by
  have hclauses : ∀ m ∈ c.clauses, m.WellFormed ∧ ∀ l ∈ m.leaves, l.Writable t :=
    fun m hm => (h.clauses m hm).restore (hkeys m hm)
  obtain ⟨hname, hne, hwf, hsorted⟩ :=
    Column.wellFormed_ofClauses h.name h.ne_nil fun m hm => (hclauses m hm).1
  refine ⟨⟨⟨hname, hne, hwf, hsorted⟩, h.name_ne⟩, fun l hl => ?_⟩
  obtain ⟨m, hm, hl⟩ := (Column.leaves_ofClauses c.name c.clauses l).mp hl
  exact (hclauses m hm).2 l hl

/-- A table of the shape that is kept can be read back once it is tidied, given that its keys can.
-/
theorem Table.Sound.restore {table : Table} (h : table.Sound t)
    (hkeys : ∀ key ∈ table.keys, key.isRestorable) : (Statement.table table.tidied).Faithful t := by
  have hcolumns : ∀ c ∈ table.columns, c.tidied.Listed ∧ ∀ l ∈ c.tidied.leaves, l.Writable t := by
    intro c hc
    apply (h.columns c hc).1.restore
    intro m hm key hkey
    apply hkeys
    exact List.mem_append_right _
      (List.mem_flatMap.mpr ⟨c, hc, List.mem_filterMap.mpr ⟨m, hm, hkey⟩⟩)
  have hconstraints : ∀ c ∈ table.constraints, c.WellFormed ∧ ∀ l ∈ c.leaves, l.Writable t := by
    intro c hc
    apply (h.constraints c hc).restore
    intro key hkey
    exact hkeys key (List.mem_append_left _ (List.mem_filterMap.mpr ⟨c, hc, hkey⟩))
  refine ⟨⟨h.name, h.temporary, ?_, fun c hc => (hconstraints c hc).1, ?_, h.storage⟩, trivial, ?_⟩
  · intro c hc
    obtain ⟨c', hc', rfl⟩ := List.mem_map.mp hc
    exact ⟨(hcolumns c' hc').1, (h.columns c' hc').2⟩
  · simpa [Table.tidied] using h.ne_nil
  · simp only [Statement.leaves, Table.leaves, List.forall_mem_append]
    refine ⟨⟨?_, ?_⟩, ?_⟩
    · intro l hl
      obtain ⟨c, hc, hl⟩ := List.mem_flatMap.mp hl
      obtain ⟨c', hc', rfl⟩ := List.mem_map.mp hc
      exact (hcolumns c' hc').2 l hl
    · intro l hl
      obtain ⟨c, hc, hl⟩ := List.mem_flatMap.mp hl
      exact (hconstraints c hc).2 l hl
    · intro l hl
      obtain ⟨option, -, rfl⟩ := List.mem_map.mp hl
      exact .of_calls_eq_nil trivial rfl

namespace Script

/-- A script that has been read is faithful, given that it can be read back. -/
theorem faithful_of_parse {text : String} {s : Script} (h : Script.parse text = .ok s)
    (hs : s.Restorable) (hcalls : ∀ call ∈ s.calls, t.NamesSequence call) :
    ∀ st ∈ s.statements, st.Faithful t := by
  intro st hst
  obtain ⟨hwf, hleaves⟩ := writable_of_parse h hcalls st hst
  exact ⟨hwf, hs st hst, hleaves⟩

theorem faithful_tidied {s : Script} (h : ∀ st ∈ s.statements, st.Sound t)
    (hkeys : ∀ key ∈ s.keys, key.isRestorable) : ∀ st ∈ s.tidied.statements, st.Faithful t := by
  intro st hst
  obtain ⟨x, hx, rfl⟩ := List.mem_map.mp hst
  have hsound := h x hx
  cases x with
  | table table =>
    apply Table.Sound.restore hsound
    intro key hkey
    exact hkeys key (List.mem_flatMap.mpr ⟨table, mem_tables.mpr hx, hkey⟩)
  | _ => exact hsound

/-- **What is written for a revised script is read back, as a script that is written as the same
text,** provided that no key has taken up storage options that it is not read with. -/
theorem parse_convert_best {text : String} {s : Script} (t : Target) (o : WriteOptions)
    (hparse : Script.parse text = .ok s) (hs : s.Restorable)
    (hcalls : ∀ call ∈ s.calls, t.NamesSequence call)
    (hkeys : ∀ key ∈ (s.revise .best).value.keys, key.isRestorable) :
    ∃ out s', convert .best t o text = .ok ⟨out, (s.revise .best).notes⟩ ∧
      Script.parse out = .ok s' ∧ s'.writeFor t o = .ok out := by
  have hfaithful := faithful_tidied (sound_revise (faithful_of_parse hparse hs hcalls)) hkeys
  obtain ⟨out, hout, hback, hagain, -⟩ := Target.parse_native (o := o)
    (fun st hst => ⟨(hfaithful st hst).wellFormed, (hfaithful st hst).writable⟩)
    fun st hst => (hfaithful st hst).restorable
  rw [Target.script_tidied, ← writeFor_eq] at hout
  rw [← writeFor_eq] at hagain
  refine ⟨out, _, ?_, hback, hagain⟩
  simp only [convert, hparse, hout, bind, Except.bind, Except.mapError]
  rfl

/-- A uniqueness clause takes up the tablespace of an index, and is read back with it. -/
theorem parse_convert_best_tablespace :
    ∃ s out s', Script.parse
      "CREATE TABLE t (a DATE); ALTER TABLE t ADD UNIQUE (a); CREATE INDEX i ON t (a) TABLESPACE x;" =
        .ok s ∧
      s.Restorable ∧ (∀ call ∈ s.calls, Target.oracle.NamesSequence call) ∧
      (s.revise .best).value.keys = [⟨some "a_uq", [.indexTablespace "x"]⟩] ∧
      convert .best .oracle {}
      "CREATE TABLE t (a DATE); ALTER TABLE t ADD UNIQUE (a); CREATE INDEX i ON t (a) TABLESPACE x;" =
        .ok ⟨out, (s.revise .best).notes⟩ ∧
      Script.parse out = .ok s' ∧ s'.writeFor .oracle {} = .ok out := by
  have hparse : Script.parse
      "CREATE TABLE t (a DATE); ALTER TABLE t ADD UNIQUE (a); CREATE INDEX i ON t (a) TABLESPACE x;" =
      .ok ⟨[
        .table { name := "t", columns := [⟨"a", "t", [.dataType ⟨"DATE", none⟩]⟩] },
        .alterTable { table := "t", adds := [.constraint (.unique ⟨none, []⟩ ["a"])] },
        .index { name := "i", table := "t", columns := ["a"], storage := [.tablespace "x"] }]⟩ := by
    decide +kernel
  generalize hs : Script.mk _ = s at hparse
  have hrestorable : s.Restorable := by
    simp [← hs, Script.Restorable, Statement.Restorable, Addition.Announced]
  have hcalls : ∀ call ∈ s.calls, Target.oracle.NamesSequence call := by
    rw [← hs]
    intro call hcall
    cases hcall
  have hkeys : (s.revise .best).value.keys = [⟨some "a_uq", [.indexTablespace "x"]⟩] := by
    rw [← hs]
    decide
  obtain ⟨out, s', hout, hback, hagain⟩ :=
    parse_convert_best .oracle {} hparse hrestorable hcalls (by rw [hkeys]; decide)
  exact ⟨s, out, s', hparse, hrestorable, hcalls, hkeys, hout, hback, hagain⟩

/-- A primary key that takes up another storage option of an index is not read back. -/
theorem parse_convert_best_nologging :
    ∃ s out notes error,
      Script.parse "CREATE TABLE t (id NUMBER PRIMARY KEY);\nCREATE INDEX i ON t (id) NOLOGGING;" =
        .ok s ∧ s.Restorable ∧ s.calls = [] ∧
      convert .best .oracle {}
          "CREATE TABLE t (id NUMBER PRIMARY KEY);\nCREATE INDEX i ON t (id) NOLOGGING;" =
        .ok ⟨out, notes⟩ ∧
      Script.parse out = .error error := by
  have hparse :
      Script.parse "CREATE TABLE t (id NUMBER PRIMARY KEY);\nCREATE INDEX i ON t (id) NOLOGGING;" =
      .ok ⟨[
      .table
        { name := "t"
          columns := [⟨"id", "t", [.dataType ⟨"NUMBER", none⟩, .primaryKey ⟨none, []⟩]⟩] },
      .index { name := "i", table := "t", columns := ["id"], storage := [.logging false] }]⟩ := by
    -- sorting does not evaluate, so both sides keep the clauses as a column sorts them
    rw [← (Column.clauses_ofClauses_eq_iff "id"
      [.dataType ⟨"NUMBER", none⟩, .primaryKey ⟨none, []⟩]).mpr (by decide)]
    with_unfolding_all rfl
  have hrevise : Script.revise .best ⟨[
      .table
        { name := "t"
          columns := [⟨"id", "t", [.dataType ⟨"NUMBER", none⟩, .primaryKey ⟨none, []⟩]⟩] },
      .index { name := "i", table := "t", columns := ["id"], storage := [.logging false] }]⟩ =
      ⟨⟨[.table
        { name := "t"
          columns := [⟨"id", "t",
            [.dataType ⟨"NUMBER", none⟩, .primaryKey ⟨none, [.logging false]⟩]⟩] }]⟩,
        [⟨.redundantIndex, ["i", Warning.anonymous, "t"]⟩]⟩ := by
    decide
  have hsorted : (Target.oracle.writer {}).sorted ColumnClause.kind
      [.dataType ⟨"NUMBER", none⟩, .primaryKey ⟨none, [.logging false]⟩] =
      .ok [.dataType ⟨"NUMBER", none⟩, .primaryKey ⟨none, [.logging false]⟩] := by
    rw [Target.sorted_eq_ofClauses "id", (Column.clauses_ofClauses_eq_iff ..).mpr (by decide)]
  have hwrite : Script.writeFor .oracle {} ⟨[.table
        { name := "t"
          columns := [⟨"id", "t",
            [.dataType ⟨"NUMBER", none⟩, .primaryKey ⟨none, [.logging false]⟩]⟩] }]⟩ =
      .ok "CREATE TABLE t\n(\n    id  NUMBER PRIMARY KEY\n            NOLOGGING\n)\n;\n" := by
    rw [writeFor_eq, Target.script_eq, arranged, if_neg (by decide)]
    simp only [List.mapM_cons, Writer.statement, Writer.table, Writer.column, hsorted]
    decide +kernel
  have hread : Script.parse
      "CREATE TABLE t\n(\n    id  NUMBER PRIMARY KEY\n            NOLOGGING\n)\n;\n" =
      .error (.unexpected 4 13 "NOLOGGING" "NOLOGGING" "            NOLOGGING") := by
    decide +kernel
  refine ⟨_, _, [⟨.redundantIndex, ["i", Warning.anonymous, "t"]⟩], _, hparse, ?_, rfl, ?_, hread⟩
  · simp [Script.Restorable, Statement.Restorable]
  · simp only [convert, hparse, hrevise, hwrite, bind, Except.bind, Except.mapError]
    rfl

end Script

end SchemaScript
