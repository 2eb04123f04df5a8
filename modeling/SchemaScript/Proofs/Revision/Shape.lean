import SchemaScript.Proofs.Revision.Revised
import SchemaScript.Proofs.Statement.Native

/-!
# The shape of a revised script

What a revision keeps of the shape of a script that has been read. Two things it does not keep: the
clauses of a column may be out of order, and a key may have storage options that are not read back.

* `IsName.generated` — the names that are made for clauses are names.
* `Key.Sound`, `ColumnClause.Sound`, `Column.Sound`, `Table.Sound` — the shape that is kept.
* `Table.Sound.extended`, `Table.Sound.normalize`, `Table.Sound.grown` — each stage keeps it of a
  table.
* `Statement.Faithful` — a statement that is read back once it is written.
* `Script.sound_revise` — a full revision keeps the shape of a script of such statements.
-/

set_option autoImplicit false

namespace SchemaScript

variable {t : Target}

/-! ## Names -/

/-- The ends of the names that are made for foreign keys, checks and uniqueness clauses. -/
def nameEnds : List String := ["_fk", "_ck", "_uq"]

/-- No keyword ends like a name that is made. -/
theorem Keyword.name_ne_generated {e : String} (he : e ∈ nameEnds) (k : Keyword) :
    ¬ (Text.upper e).toList <:+ k.name.toList := by
  have hall : ∀ e ∈ nameEnds, ∀ k ∈ all, ¬ (Text.upper e).toList <:+ k.name.toList := by
    decide +kernel
  exact hall e he k (mem_all k)

/-- **A name with such an end is a name.** -/
theorem IsName.generated {n e : String} (h : IsName n) (he : e ∈ nameEnds) : IsName (n ++ e) := by
  have hend : ∀ e ∈ nameEnds, e.toList.all Scan.isWordChar := by decide
  have hword : Scan.isWord (n ++ e).toList := by
    have hn := h.isWord
    rw [String.toList_append]
    cases hcs : n.toList with
    | nil => simp [hcs, Scan.isWord] at hn
    | cons c cs =>
      rw [hcs, Scan.isWord, Bool.and_eq_true] at hn
      rw [List.cons_append, Scan.isWord, List.all_append, hn.1, hn.2, hend e he]
      rfl
  refine ⟨hword, ?_⟩
  rw [Word.ofText_word hword, Scan.wordKind]
  cases hk : Keyword.ofWord? (String.ofList (n ++ e).toList) with
  | none => rfl
  | some k =>
    rw [String.ofList_toList, Keyword.ofWord?_eq_some] at hk
    refine absurd ?_ (Keyword.name_ne_generated he k)
    rw [← hk]
    simp [Text.upper]

/-! ## Keys, clauses and constraints -/

/-- The shape that is kept of a key. -/
structure Key.Sound (key : Key) : Prop where
  name : ∀ n ∈ key.name, IsName n
  spaces : ∀ n, .indexTablespace n ∈ key.storage → IsSpace n

/-- The shape that is kept of a clause, whose values can be written. -/
def ColumnClause.Sound (t : Target) : ColumnClause → Prop
  | .dataType d => d.WellFormed
  | .defaultValue x => (Leaf.value x).Writable t
  | .notNull name => ∀ n ∈ name, IsName n
  | .primaryKey key | .unique key => key.Sound
  | .foreignKey key => key.WellFormed
  | .check c => (∀ n ∈ c.name, IsName n) ∧ (Leaf.condition c.condition).Writable t

/-- The shape that is kept of a column. -/
structure Column.Sound (t : Target) (c : Column) : Prop where
  name : IsName c.name
  name_ne : (Word.ofText c.name).kind ≠ .keyword .constraint
  ne_nil : c.clauses ≠ []
  clauses : ∀ m ∈ c.clauses, m.Sound t

/-- The shape that is kept of a constraint, whose condition can be written. -/
def TableConstraint.Sound (t : Target) : TableConstraint → Prop
  | .primaryKey key columns | .unique key columns => key.Sound ∧ AreNames columns
  | .foreignKey key columns => key.WellFormed ∧ AreNames columns
  | .check c => (∀ n ∈ c.name, IsName n) ∧ (Leaf.condition c.condition).Writable t

/-- The shape that is kept of the columns and constraints of a table. -/
structure Table.SoundParts (t : Target) (table : Table) : Prop where
  columns : ∀ c ∈ table.columns, c.Sound t ∧ c.table = table.name
  constraints : ∀ c ∈ table.constraints, c.Sound t

/-- The shape that is kept of a table. -/
structure Table.Sound (t : Target) (table : Table) : Prop extends Table.SoundParts t table where
  name : IsName table.name
  temporary : table.isGlobal → table.temporary
  ne_nil : table.columns ≠ [] ∨ table.constraints ≠ []
  storage : ∀ s ∈ table.storage, s.OfTable

/-- A leaf without calls can be written if it can be read. -/
theorem Leaf.Writable.of_calls_eq_nil {l : Leaf} (hread : l.Readable) (hcalls : l.calls = []) :
    l.Writable t :=
  ⟨hread, by simp [hcalls]⟩

/-! ### Shapes that are read -/

theorem Key.WellFormed.sound {key : Key} (h : key.WellFormed) : key.Sound := by
  refine ⟨h.name, fun n hn => ?_⟩
  rcases h.storage with hnil | ⟨s, hs, hkey⟩
  · rw [hnil] at hn
    cases hn
  · rw [hs, List.mem_singleton] at hn
    subst hn
    cases hkey with
    | indexTablespace hspace => exact hspace

theorem ColumnClause.WellFormed.sound {m : ColumnClause} (h : m.WellFormed)
    (hleaves : ∀ l ∈ m.leaves, l.Writable t) : m.Sound t := by
  cases m with
  | defaultValue x => exact hleaves _ (List.mem_singleton_self _)
  | primaryKey key | unique key => exact Key.WellFormed.sound h
  | check c => exact ⟨h, hleaves _ (List.mem_singleton_self _)⟩
  | _ => exact h

theorem Column.Listed.sound {c : Column} (h : c.Listed) (hleaves : ∀ l ∈ c.leaves, l.Writable t) :
    c.Sound t := by
  refine ⟨h.name, h.name_ne, h.ne_nil, fun m hm => (h.clauses m hm).sound fun l hl => ?_⟩
  exact hleaves l (List.mem_flatMap.mpr ⟨m, hm, hl⟩)

theorem TableConstraint.WellFormed.sound {c : TableConstraint} (h : c.WellFormed)
    (hleaves : ∀ l ∈ c.leaves, l.Writable t) : c.Sound t := by
  cases c with
  | primaryKey key columns | unique key columns => exact ⟨h.1.sound, h.2⟩
  | foreignKey key columns => exact h
  | check c => exact ⟨h, hleaves _ (List.mem_singleton_self _)⟩

theorem Table.WellFormed.sound {table : Table} (h : table.WellFormed)
    (hleaves : ∀ l ∈ table.leaves, l.Writable t) : table.Sound t := by
  simp only [Table.leaves, List.forall_mem_append, List.mem_flatMap, forall_exists_index,
    and_imp] at hleaves
  refine ⟨⟨?_, ?_⟩, h.name, h.temporary, h.ne_nil, h.storage⟩
  · intro c hc
    exact ⟨(h.columns c hc).1.sound fun l hl => hleaves.1.1 l c hc hl, (h.columns c hc).2⟩
  · intro c hc
    exact (h.constraints c hc).sound fun l hl => hleaves.1.2 l c hc hl

/-! ## Changes folded -/

namespace AlterTable

variable {a : AlterTable}

theorem WellFormed.adds (h : a.WellFormed) : ∀ x ∈ a.adds, x.WellFormed := by
  cases a
  cases h.actions with
  | adds _ hadds => exact hadds
  | _ => simp

theorem WellFormed.storage (h : a.WellFormed) :
    ∀ s ∈ a.mods.filterMap Modification.option?, s.OfTable := by
  cases a
  cases h.actions with
  | storage _ hoptions =>
    intro s hs
    obtain ⟨m, hm, hstorage⟩ := List.mem_filterMap.mp hs
    obtain ⟨s', hs', rfl⟩ := List.mem_map.mp hm
    cases hstorage
    exact hoptions s hs'
  | _ => simp [Modification.option?]

/-- A change that has been read does one thing, so that it is left as it is if it is left at all. -/
theorem WellFormed.eq_of_left? {b : AlterTable} (h : a.WellFormed) (hleft : a.left? = some b) :
    b = a := by
  cases a
  cases h.actions with
  | storage _ _ => simp [left?, Modification.option?] at hleft
  | _ => simp_all [left?, Modification.option?]

end AlterTable

/-- A table keeps its shape when changes are folded into it. -/
theorem Table.Sound.extended {table : Table} (h : table.Sound t) {changes : List AlterTable}
    (hchanges : ∀ a ∈ changes, a.WellFormed ∧ ∀ l ∈ a.leaves, l.Writable t) :
    (table.extended changes).Sound t := by
  have hadds : ∀ a ∈ changes, ∀ x ∈ a.adds, x.WellFormed ∧ ∀ l ∈ x.leaves, l.Writable t := by
    intro a ha x hx
    refine ⟨(hchanges a ha).1.adds x hx, fun l hl => (hchanges a ha).2 l ?_⟩
    simp only [AlterTable.leaves, List.mem_append, List.mem_flatMap]
    exact .inl (.inl ⟨x, hx, hl⟩)
  refine ⟨⟨?_, ?_⟩, h.name, h.temporary, ?_, ?_⟩
  · intro c hc
    rcases Table.mem_columns_extended hc with hc | ⟨a, ha, c', hc', rfl⟩
    · exact h.columns c hc
    · have hsound := Column.Listed.sound (hadds a ha _ hc').1.1 (hadds a ha _ hc').2
      exact ⟨⟨hsound.name, hsound.name_ne, hsound.ne_nil, hsound.clauses⟩, rfl⟩
  · intro c hc
    rcases Table.mem_constraints_extended hc with hc | ⟨a, ha, hc⟩
    · exact h.constraints c hc
    · exact TableConstraint.WellFormed.sound (hadds a ha _ hc).1 (hadds a ha _ hc).2
  · rcases h.ne_nil with hne | hne
    · exact .inl (List.append_ne_nil_of_left_ne_nil hne _)
    · exact .inr (List.append_ne_nil_of_left_ne_nil hne _)
  · intro s hs
    rcases Table.mem_storage_extended hs with hs | ⟨a, ha, hs | hs⟩
    · exact h.storage s hs
    · exact (hadds a ha _ hs).1
    · exact (hchanges a ha).1.storage s hs

/-! ## Constraints put in order -/

theorem TableConstraint.Sound.toColumnClause {c : TableConstraint} (h : c.Sound t) :
    c.toColumnClause.Sound t := by
  cases c <;> exact h.1

theorem Column.Sound.addClauseIn {name table : String} {clause : ColumnClause}
    (hclause : clause.Sound t) {columns : List Column}
    (h : ∀ c ∈ columns, c.Sound t ∧ c.table = table) :
    ∀ c ∈ Column.addClauseIn name clause columns, c.Sound t ∧ c.table = table := by
  induction columns with
  | nil => simp [Column.addClauseIn]
  | cons c columns ih =>
    obtain ⟨hc, hcolumns⟩ := List.forall_mem_cons.mp h
    unfold Column.addClauseIn
    split
    · refine List.forall_mem_cons.mpr ⟨⟨⟨hc.1.name, hc.1.name_ne, ?_, ?_⟩, hc.2⟩, hcolumns⟩
      · exact List.append_ne_nil_of_right_ne_nil _ (List.cons_ne_nil _ _)
      · intro m hm
        rcases List.mem_append.mp hm with hm | hm
        · exact hc.1.clauses m hm
        · rw [List.mem_singleton] at hm
          exact hm ▸ hclause
    · exact List.forall_mem_cons.mpr ⟨hc, ih hcolumns⟩

/-- One constraint more. -/
theorem Table.SoundParts.attach {table : Table} (h : table.SoundParts t) {c : TableConstraint}
    (hc : c.Sound t) : (table.attach c).value.SoundParts t := by
  rcases table.attach_cases c with ⟨-, hvalue⟩ | ⟨-, column, -, -, hvalue⟩
  · rw [hvalue]
    refine ⟨h.columns, fun c' hc' => ?_⟩
    rcases List.mem_append.mp hc' with hc' | hc'
    · exact h.constraints c' hc'
    · rw [List.mem_singleton] at hc'
      exact hc' ▸ hc
  · rw [hvalue]
    exact ⟨Column.Sound.addClauseIn hc.toColumnClause h.columns, h.constraints⟩

theorem ColumnClause.Sound.settled {m : ColumnClause} (h : m.Sound t) (table : String)
    {column : String} (hcolumn : IsName column) : (m.settled table column).Sound t := by
  cases m with
  | notNull name =>
    have hsettled : (ColumnClause.notNull name).settled table column = .notNull none := by
      cases name <;> rfl
    rw [hsettled]
    intro n hn
    cases hn
  | unique key =>
    obtain ⟨name, storage⟩ := key
    cases name with
    | none =>
      refine ⟨fun n hn => ?_, h.spaces⟩
      cases hn
      exact hcolumn.generated (by decide)
    | some name => exact h
  | foreignKey key =>
    obtain ⟨name, target, onDelete, deferrable⟩ := key
    cases name with
    | none =>
      refine ⟨fun n hn => ?_, h.table, h.columns⟩
      cases hn
      exact hcolumn.generated (by decide)
    | some name => exact h
  | check c =>
    obtain ⟨name, condition⟩ := c
    cases name with
    | none =>
      refine ⟨fun n hn => ?_, h.2⟩
      cases hn
      exact hcolumn.generated (by decide)
    | some name => exact h
  | _ => exact h

theorem Column.Sound.normalize {c : Column} (h : c.Sound t) (table : String) :
    (c.normalize table).value.Sound t := by
  have hsub : ∀ m ∈ c.essential, m ∈ c.clauses := by
    unfold Column.essential
    split
    · intro m hm
      exact (List.mem_filter.mp hm).1
    · exact fun m hm => hm
  have hne : c.essential ≠ [] := by
    unfold Column.essential
    split
    · rename_i hkey
      obtain ⟨m, hm, hprimary⟩ := List.any_eq_true.mp hkey
      have hkeep : m.isImplied = false := by
        cases m <;> first | rfl | cases hprimary
      exact List.ne_nil_of_mem (List.mem_filter.mpr ⟨hm, by simp [hkeep]⟩)
    · exact h.ne_nil
  rw [Column.value_normalize]
  refine ⟨h.name, h.name_ne, by simpa using hne, fun m hm => ?_⟩
  obtain ⟨m', hm', rfl⟩ := List.mem_map.mp hm
  exact (h.clauses m' (hsub m' hm')).settled table h.name

/-- A table keeps its shape when its constraints are put in order. -/
theorem Table.Sound.normalize {table : Table} (h : table.Sound t) :
    table.normalize.value.Sound t := by
  obtain ⟨hname, hglobal, htemporary, hstorage⟩ := table.sameFrame_normalize
  have hparts : table.attachConstraints.value.SoundParts t := by
    apply Noted.foldlM_keeps
    · intro table' h' c hc
      exact h'.attach (h.constraints c hc)
    · exact ⟨h.columns, by simp⟩
  refine ⟨⟨?_, ?_⟩, hname ▸ h.name, ?_, ?_, hstorage ▸ h.storage⟩
  · intro c hc
    rw [value_normalize] at hc ⊢
    obtain ⟨c', hc', rfl⟩ := List.mem_map.mp hc
    obtain ⟨hsound, htable⟩ := hparts.columns c' hc'
    refine ⟨hsound.normalize _, ?_⟩
    rw [Column.value_normalize]
    exact htable
  · rw [value_normalize]
    exact hparts.constraints
  · rw [hglobal, htemporary]
    exact h.temporary
  · cases hcolumns : table.columns with
    | cons c columns =>
      -- the columns keep their names, so there are as many as before
      left
      intro hnil
      have hnames := table.map_name_normalize
      simp [hnil, hcolumns] at hnames
    | nil =>
      -- without columns nothing can become a clause
      right
      have hkept : (table.constraints.filter fun k => !table.attaches k) = table.constraints := by
        rw [List.filter_eq_self]
        intro k _
        cases hsole : k.soleColumn? <;> simp [attaches, hsole, hasColumn, hcolumns]
      rw [value_normalize, constraints_attachConstraints, hkept]
      exact h.ne_nil.resolve_left fun hne => hne hcolumns

/-! ## Superfluous indexes removed -/

theorem Index.WellFormed.spaces {i : Index} (h : i.WellFormed) :
    ∀ n, .indexTablespace n ∈ i.keyStorage → IsSpace n := by
  intro n hn
  obtain ⟨s, hs, heq⟩ := List.mem_map.mp hn
  cases h.storage s hs with
  | tablespace hspace =>
    cases heq
    exact hspace
  | _ => cases heq

section Keys

variable {f : Key → Key} (hf : ∀ key, key.Sound → (f key).Sound)

include hf

theorem ColumnClause.Sound.mapKey {m : ColumnClause} (h : m.Sound t) : (m.mapKey f).Sound t := by
  cases m with
  | primaryKey key | unique key => exact hf key h
  | _ => exact h

theorem TableConstraint.Sound.mapKey {c : TableConstraint} (h : c.Sound t) :
    (c.mapKey f).Sound t := by
  cases c with
  | primaryKey key columns | unique key columns => exact ⟨hf key h.1, h.2⟩
  | _ => exact h

end Keys

theorem Table.Sound.mapKeys {table : Table} (h : table.Sound t) {f : KeyPlace → Key → Key}
    (hf : ∀ place key, key.Sound → (f place key).Sound) : (table.mapKeys f).Sound t := by
  refine ⟨⟨?_, ?_⟩, h.name, h.temporary, ?_, h.storage⟩
  · intro c hc
    obtain ⟨i, c', hc', rfl⟩ := exists_mem_of_mem_mapIdx hc
    obtain ⟨hsound, htable⟩ := h.columns c' hc'
    refine ⟨⟨hsound.name, hsound.name_ne, ?_, ?_⟩, htable⟩
    · simpa using hsound.ne_nil
    · intro m hm
      obtain ⟨j, m', hm', rfl⟩ := exists_mem_of_mem_mapIdx hm
      exact (hsound.clauses m' hm').mapKey (hf _)
  · intro c hc
    obtain ⟨i, c', hc', rfl⟩ := exists_mem_of_mem_mapIdx hc
    exact (h.constraints c' hc').mapKey (hf _)
  · simpa [Table.mapKeys] using h.ne_nil

/-- A table keeps its shape when its keys get the storage options of indexes. -/
theorem Table.Sound.grown {table : Table} (h : table.Sound t) {indexes : List Index}
    (hindexes : ∀ i ∈ indexes, i.WellFormed) : (table.grown indexes).Sound t := by
  apply h.mapKeys
  intro place key hkey
  refine ⟨hkey.name, fun n hn => ?_⟩
  rcases List.mem_append.mp hn with hn | hn
  · exact hkey.spaces n hn
  · obtain ⟨i, hi, hn⟩ := List.mem_flatMap.mp hn
    exact (hindexes i (List.mem_filter.mp hi).1).spaces n hn

/-! ## Scripts -/

/-- A statement that can be written for a target and read back. -/
structure Statement.Faithful (t : Target) (st : Statement) : Prop where
  wellFormed : st.WellFormed
  restorable : st.Restorable
  writable : ∀ l ∈ st.leaves, l.Writable t

/-- The shape that is kept of a statement. -/
def Statement.Sound (t : Target) : Statement → Prop
  | .table x => x.Sound t
  | st => st.Faithful t

theorem Statement.Faithful.sound {st : Statement} (h : st.Faithful t) : st.Sound t := by
  cases st with
  | table x => exact Table.WellFormed.sound h.wellFormed h.writable
  | _ => exact h

namespace Script

variable {s : Script}

theorem sound_foldAlterations (h : ∀ st ∈ s.statements, st.Faithful t) :
    ∀ st ∈ s.foldAlterations.value.statements, st.Sound t := by
  refine s.foldAlterations_keeps h ?_ ?_ ?_ ?_
  · exact fun st hst => hst.sound
  · intro table changes htable hchanges
    have hsound : table.Sound t := htable.sound
    exact hsound.extended fun a ha => ⟨(hchanges a ha).wellFormed, (hchanges a ha).writable⟩
  · intro i changes hi hchanges
    have hwf : i.WellFormed := hi.wellFormed
    refine ⟨⟨hwf.name, hwf.table, hwf.columns, ?_⟩, trivial, ?_⟩
    · intro option hoption
      rcases Index.mem_storage_extended hoption with hoption | ⟨a, ha, hoption⟩
      · exact hwf.storage option hoption
      · exact (hchanges a ha).wellFormed.storage option hoption
    · intro l hl
      obtain ⟨option, -, rfl⟩ := List.mem_map.mp hl
      exact .of_calls_eq_nil trivial rfl
  · intro a b ha hleft
    rw [AlterTable.WellFormed.eq_of_left? ha.wellFormed hleft]
    exact ha

theorem sound_normalizeTables (h : ∀ st ∈ s.statements, st.Sound t) :
    ∀ st ∈ s.normalizeTables.value.statements, st.Sound t := by
  intro st hst
  rw [statements_normalizeTables] at hst
  obtain ⟨x, hx, rfl⟩ := List.mem_map.mp hst
  have hxs := h x hx
  cases x with
  | table table => exact Table.Sound.normalize hxs
  | _ => exact hxs

theorem sound_dropIndexes (h : ∀ st ∈ s.statements, st.Sound t) :
    ∀ st ∈ s.dropIndexes.value.statements, st.Sound t := by
  intro st hst
  rcases mem_dropIndexes hst with ⟨table, indexes, htable, hindexes, rfl⟩ | ⟨hold, -⟩
  · have hsound : table.Sound t := h _ htable
    apply hsound.grown
    intro i hi
    have hindex : (Statement.index i).Faithful t := h _ (mem_indexes.mp (hindexes hi))
    exact hindex.wellFormed
  · exact h st hold

/-- **A full revision keeps the shape of a script.** -/
theorem sound_revise (h : ∀ st ∈ s.statements, st.Faithful t) :
    ∀ st ∈ (s.revise .best).value.statements, st.Sound t := by
  rw [revise_best_eq, ordered, Noted.bind_value, Noted.bind_value]
  exact sound_dropIndexes (sound_normalizeTables (sound_foldAlterations h))

end Script

end SchemaScript
