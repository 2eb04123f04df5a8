import SchemaScript.Proofs.Table.Reading
import SchemaScript.Proofs.Value.Spelling

/-!
# Native tables

The native form of a table for a target: the table that is read back once it is written. Types,
values and conditions become native, storage options that the dialect has no words for go, and
foreign keys become deferrable where the options ask for it.

* `Leaf.Writable`, `Leaf.Native` — what is asked of a leaf before and after.
* `Target.typeOf` — the native types, by the word for a type.
* `Table.native`, `Table.WellFormed.native`, `Table.native_leaves` — the native form, its shape and
  its leaves.
-/

set_option autoImplicit false

namespace SchemaScript

/-! ## Leaves -/

namespace Target

/-- Whether a dialect has words for the nodes of a kind. -/
def writes (t : Target) (kind : Kind) : Bool := t.dialect.treatment? kind ≠ some .leaveOut

/-- A type under its native name, in capital letters. -/
def nativeDataType (t : Target) (d : DataType) : DataType :=
  ⟨Text.upper (t.dialect.nativeType d).name, (t.dialect.nativeType d).precision⟩

/-- Whether every foreign key is written as deferrable. -/
def defers (t : Target) (o : WriteOptions) : Bool := o.deferrable && t.dialect.writesDeferrable

end Target

/-- A leaf of a script that can be written for a target. -/
def Leaf.Writable (t : Target) (l : Leaf) : Prop :=
  l.Readable ∧ ∀ call ∈ l.calls, t.NamesSequence call

/-- A leaf that is written as it is. -/
def Leaf.Native (t : Target) (o : WriteOptions) : Leaf → Prop
  | .dataType d => t.nativeDataType d = d
  | .value x => SchemaScript.Canonical .value [x] ∧ t.Spellable x
  | .condition ts => SchemaScript.Canonical .condition ts ∧ t.Spellable (.expression ts)
  | .storage s => t.writes s.kind
  | .foreignKey key => t.defers o → key.deferrable
  | .sequenceOption option => t.writes option.kind
  | .synonym => t.writes .synonym
  | .text s => Text.collapse s = s

theorem Leaf.Native.canonical {t : Target} {o : WriteOptions} {l : Leaf} (h : l.Native t o) :
    l.Canonical := by
  cases l with
  | value x => exact h.1
  | condition ts => exact h.1
  | _ => trivial

/-! ## Types -/

theorem DataType.WellFormed.upper_name {d : DataType} (h : d.WellFormed) :
    ∃ k : Keyword, Text.upper d.name = k.name ∧ k.isType := by
  obtain ⟨k, hk, htype⟩ := h.isType
  refine ⟨k, ?_, htype⟩
  simp only [Word.ofText_word h.isWord] at hk
  have hof := Target.wordKind_eq_keyword hk
  rw [String.ofList_toList] at hof
  exact Keyword.ofWord?_eq_some.mp hof

theorem Keyword.isWord_name (k : Keyword) : Scan.isWord k.name.toList := by
  have h : ∀ k ∈ Keyword.all, Scan.isWord k.name.toList := by decide +kernel
  exact h k (Keyword.mem_all k)

theorem DataType.wellFormed_keyword {k : Keyword} (hk : k.isType) {precision : Option String}
    (hp : ∀ p ∈ precision, IsPrecision p) : DataType.WellFormed ⟨k.name, precision⟩ := by
  have hkind : (Word.ofText k.name).kind = .keyword k := by
    rw [show Word.ofText k.name = k.word from (Keyword.inline_word k).ofText_eq, Keyword.word_kind]
  exact ⟨k.isWord_name, ⟨k, hkind, hk⟩, hp⟩

namespace Target

/-- The native type for a type under a word. -/
def typeOf : Target → Keyword → Option String → Keyword × Option String
  | .oracle, .numeric, p => (.number, p)
  | .oracle, .smallint, _ => (.number, some "5")
  | .oracle, .integer, _ => (.number, some "10")
  | .oracle, .bigint, _ => (.number, some "19")
  | .oracle, .varchar, p => (.varchar2, p)
  | .oracle, .bytea, _ => (.blob, none)
  | .oracle, .text, _ => (.clob, none)
  | .oracle, .timestamptz, _ => (.date, none)
  | .postgres, .varchar2, some p => (.varchar, some p)
  | .postgres, .varchar2, none => (.text, none)
  | .postgres, .date, _ => (.timestamptz, none)
  | .postgres, .blob, _ => (.bytea, none)
  | .postgres, .clob, _ => (.text, none)
  | .postgres, .number, none => (.numeric, none)
  | .postgres, .number, some p =>
    match Postgres.decimal? (Text.trimChars Text.isBlank p.toList) with
    | some digits =>
      if digits = 0 then (.numeric, some p)
      else if digits ≤ 5 then (.smallint, none)
      else if digits ≤ 10 then (.integer, none)
      else if digits ≤ 19 then (.bigint, none)
      else (.numeric, some p)
    | none => (.numeric, some p)
  | _, k, p => (k, p)

theorem number_eq (p : Option String) : Postgres.number p =
    ⟨(postgres.typeOf .number p).1.name, (postgres.typeOf .number p).2⟩ := by
  cases p with
  | none => rfl
  | some p =>
    simp only [Postgres.number, typeOf]
    cases Postgres.decimal? (Text.trimChars Text.isBlank p.toList) with
    | none => rfl
    | some digits =>
      dsimp only
      repeat' split
      all_goals rfl

variable (t : Target)

theorem nativeDataType_eq {d : DataType} {k : Keyword} (hk : Text.upper d.name = k.name)
    (htype : k.isType) : t.nativeDataType d =
      ⟨(t.typeOf k d.precision).1.name, (t.typeOf k d.precision).2⟩ := by
  obtain ⟨name, precision⟩ := d
  cases t with
  | oracle =>
    have hnames : Text.upper "NUMBER" = "NUMBER" ∧ Text.upper "VARCHAR2" = "VARCHAR2" ∧
        Text.upper "BLOB" = "BLOB" ∧ Text.upper "CLOB" = "CLOB" ∧ Text.upper "DATE" = "DATE" := by
      decide
    rw [nativeDataType, show oracle.dialect.nativeType = Oracle.nativeType from rfl,
      Oracle.nativeType]
    cases k <;> first
      | exact absurd htype (by decide)
      | simp [hk, Keyword.name, typeOf, hnames]
  | postgres =>
    have hnames : Text.upper "VARCHAR" = "VARCHAR" ∧ Text.upper "TEXT" = "TEXT" ∧
        Text.upper "TIMESTAMPTZ" = "TIMESTAMPTZ" ∧ Text.upper "BYTEA" = "BYTEA" := by decide
    rw [nativeDataType, show postgres.dialect.nativeType = Postgres.nativeType from rfl,
      Postgres.nativeType]
    cases k with
    | number =>
      have hnumber : Text.upper name = "NUMBER" := hk
      simp only [hnumber, number_eq, Keyword.upper_name]
    | varchar2 => cases precision <;> simp [hk, Keyword.name, typeOf, hnames]
    | _ => first
      | exact absurd htype (by decide)
      | simp [hk, Keyword.name, typeOf, hnames]

/-- What a native type can be: a type of the same precision, or one of a fixed precision, under a
word that stays as it is. -/
theorem typeOf_cases {k : Keyword} (hk : k.isType) (p : Option String) :
    (t.typeOf k p).1.isType ∧ ((t.typeOf k p).2 = p ∨ (t.typeOf k p).2 ∈ [none, some "5", some "10",
      some "19"]) ∧ ∀ q, (t.typeOf k p).2 = q → t.typeOf (t.typeOf k p).1 q = ((t.typeOf k p).1, q) := by
  cases t with
  | oracle =>
    cases k <;> first
      | exact absurd hk (by decide)
      | simp [typeOf, Keyword.isType]
  | postgres =>
    cases k with
    | number =>
      cases p with
      | none => simp [typeOf, Keyword.isType]
      | some p =>
        simp only [typeOf]
        repeat' split
        all_goals simp [Keyword.isType]
    | varchar2 => cases p <;> simp [typeOf, Keyword.isType]
    | _ => first
      | exact absurd hk (by decide)
      | simp [typeOf, Keyword.isType]

theorem nativeDataType_wellFormed {d : DataType} (h : d.WellFormed) :
    (t.nativeDataType d).WellFormed := by
  obtain ⟨k, hk, htype⟩ := h.upper_name
  obtain ⟨hnative, hprecision, -⟩ := t.typeOf_cases htype d.precision
  rw [t.nativeDataType_eq hk htype]
  refine DataType.wellFormed_keyword hnative fun p hp => ?_
  rcases hprecision with heq | hmem
  · exact h.precision p (heq ▸ hp)
  · rw [Option.mem_def.mp hp] at hmem
    simp only [List.mem_cons, reduceCtorEq, Option.some.injEq, List.not_mem_nil, or_false,
      false_or] at hmem
    rcases hmem with rfl | rfl | rfl <;> exact .one (by decide)

theorem nativeDataType_nativeDataType {d : DataType} (h : d.WellFormed) :
    t.nativeDataType (t.nativeDataType d) = t.nativeDataType d := by
  obtain ⟨k, hk, htype⟩ := h.upper_name
  obtain ⟨hnative, -, hfixed⟩ := t.typeOf_cases htype d.precision
  rw [t.nativeDataType_eq hk htype]
  generalize t.typeOf k d.precision = native at hnative hfixed
  have hagain := t.nativeDataType_eq (d := ⟨native.1.name, native.2⟩)
    (Keyword.upper_name native.1) hnative
  rw [hagain, hfixed _ rfl]

end Target

/-! ## Native tables -/

variable (t : Target) (o : WriteOptions)

/-- The storage options that a dialect has words for. -/
def Target.nativeStorage (options : List Storage) : List Storage :=
  options.filter fun s => t.writes s.kind

/-- The native form of a key. -/
def Key.native (key : Key) : Key := { key with storage := t.nativeStorage key.storage }

/-- The native form of a foreign key. -/
def ForeignKey.native (key : ForeignKey) : ForeignKey :=
  { key with deferrable := key.deferrable || t.defers o }

/-- The native form of a condition. -/
def Check.native (c : Check) : Check := { c with condition := t.nativeTerms c.condition }

/-- The native form of a column clause. -/
def ColumnClause.native : ColumnClause → ColumnClause
  | .dataType d => .dataType (t.nativeDataType d)
  | .defaultValue x => .defaultValue (t.nativeTerm x)
  | .notNull name => .notNull name
  | .primaryKey key => .primaryKey (key.native t)
  | .unique key => .unique (key.native t)
  | .foreignKey key => .foreignKey (key.native t o)
  | .check c => .check (c.native t)

/-- The native form of a column. -/
def Column.native (c : Column) : Column := { c with clauses := c.clauses.map (·.native t o) }

/-- The native form of a table constraint. -/
def TableConstraint.native : TableConstraint → TableConstraint
  | .primaryKey key columns => .primaryKey (key.native t) columns
  | .unique key columns => .unique (key.native t) columns
  | .foreignKey key columns => .foreignKey (key.native t o) columns
  | .check c => .check (c.native t)

/-- The native form of a table. -/
def Table.native (table : Table) : Table :=
  { table with
    columns := table.columns.map (·.native t o)
    constraints := table.constraints.map (·.native t o)
    storage := t.nativeStorage table.storage }

variable {t o}

/-! ### Shape -/

theorem Key.WellFormed.native {key : Key} (h : key.WellFormed) : (key.native t).WellFormed := by
  refine ⟨h.name, ?_⟩
  rcases h.storage with heq | ⟨s, heq, hs⟩
  · exact .inl (by simp [Key.native, Target.nativeStorage, heq])
  · by_cases hw : t.writes s.kind
    · exact .inr ⟨s, by simp [Key.native, Target.nativeStorage, heq, hw], hs⟩
    · exact .inl (by simp [Key.native, Target.nativeStorage, heq, hw])

theorem ForeignKey.WellFormed.native {key : ForeignKey} (h : key.WellFormed) :
    (key.native t o).WellFormed :=
  ⟨h.name, h.table, h.columns⟩

theorem ColumnClause.WellFormed.native {c : ColumnClause} (h : c.WellFormed) :
    (c.native t o).WellFormed := by
  cases c with
  | dataType d => exact t.nativeDataType_wellFormed h
  | defaultValue x => trivial
  | notNull name => exact h
  | primaryKey key => exact Key.WellFormed.native h
  | unique key => exact Key.WellFormed.native h
  | foreignKey key => exact ForeignKey.WellFormed.native h
  | check c => exact h

@[simp] theorem ColumnClause.kind_native (c : ColumnClause) : (c.native t o).kind = c.kind := by
  cases c <;> rfl

@[simp] theorem ColumnClause.rank_native (c : ColumnClause) : (c.native t o).rank = c.rank := by
  rw [rank, kind_native, rank]

theorem Column.WellFormed.native {c : Column} (h : c.WellFormed) : (c.native t o).WellFormed := by
  refine ⟨h.name, ?_, ?_, ?_⟩
  · simpa [Column.native] using h.ne_nil
  · intro clause hclause
    obtain ⟨c', hc', rfl⟩ := List.mem_map.mp hclause
    exact (h.clauses c' hc').native
  · rw [Column.native, List.pairwise_map]
    simpa using h.sorted

theorem TableConstraint.WellFormed.native {c : TableConstraint} (h : c.WellFormed) :
    (c.native t o).WellFormed := by
  cases c with
  | primaryKey key columns => exact ⟨Key.WellFormed.native h.1, h.2⟩
  | unique key columns => exact ⟨Key.WellFormed.native h.1, h.2⟩
  | foreignKey key columns => exact ⟨ForeignKey.WellFormed.native h.1, h.2⟩
  | check c => exact h

theorem Column.Listed.native {c : Column} (h : c.Listed) : (c.native t o).Listed :=
  ⟨h.toWellFormed.native, h.name_ne⟩

theorem Table.WellFormed.native {table : Table} (h : table.WellFormed) :
    (table.native t o).WellFormed := by
  refine ⟨h.name, h.temporary, ?_, ?_, ?_, ?_⟩
  · intro c hc
    obtain ⟨c', hc', rfl⟩ := List.mem_map.mp hc
    exact ⟨(h.columns c' hc').1.native, (h.columns c' hc').2⟩
  · intro c hc
    obtain ⟨c', hc', rfl⟩ := List.mem_map.mp hc
    exact (h.constraints c' hc').native
  · simpa [Table.native] using h.ne_nil
  · exact fun s hs => h.storage s (List.mem_filter.mp hs).1

/-! ### Leaves -/

theorem Target.nativeStorage_leaves (options : List Storage) :
    ∀ l ∈ (t.nativeStorage options).map Leaf.storage, l.Native t o := by
  intro l hl
  obtain ⟨s, hs, rfl⟩ := List.mem_map.mp hl
  exact (List.mem_filter.mp hs).2

theorem Leaf.native_foreignKey (key : ForeignKey) :
    (Leaf.foreignKey (key.native t o)).Native t o := by
  intro h
  simp [ForeignKey.native, h]

theorem Leaf.native_condition {ts : Expression} (h : (Leaf.condition ts).Writable t) :
    (Leaf.condition (t.nativeTerms ts)).Native t o :=
  t.spellable_nativeTerms h.1 h.2

theorem ColumnClause.native_leaves {c : ColumnClause} (hwf : c.WellFormed)
    (h : ∀ l ∈ c.leaves, l.Writable t) : ∀ l ∈ (c.native t o).leaves, l.Native t o := by
  cases c with
  | dataType d =>
    simp only [ColumnClause.native, leaves, List.forall_mem_singleton]
    exact t.nativeDataType_nativeDataType hwf
  | defaultValue x =>
    simp only [ColumnClause.native, leaves, List.forall_mem_singleton] at h ⊢
    exact t.spellable_nativeTerm h.1 h.2
  | notNull name =>
    intro l hl
    cases hl
  | primaryKey key => exact Target.nativeStorage_leaves key.storage
  | unique key => exact Target.nativeStorage_leaves key.storage
  | foreignKey key =>
    simp only [ColumnClause.native, leaves, List.forall_mem_singleton]
    exact Leaf.native_foreignKey key
  | check c =>
    simp only [ColumnClause.native, leaves, List.forall_mem_singleton] at h ⊢
    exact Leaf.native_condition h

theorem Column.native_leaves {c : Column} (hwf : c.WellFormed) (h : ∀ l ∈ c.leaves, l.Writable t) :
    ∀ l ∈ (c.native t o).leaves, l.Native t o := by
  intro l hl
  obtain ⟨clause, hclause, hl⟩ := List.mem_flatMap.mp hl
  obtain ⟨c', hc', rfl⟩ := List.mem_map.mp hclause
  exact ColumnClause.native_leaves (hwf.clauses c' hc')
    (fun l hl => h l (List.mem_flatMap.mpr ⟨c', hc', hl⟩)) l hl

theorem TableConstraint.native_leaves {c : TableConstraint} (h : ∀ l ∈ c.leaves, l.Writable t) :
    ∀ l ∈ (c.native t o).leaves, l.Native t o := by
  cases c with
  | primaryKey key columns => exact Target.nativeStorage_leaves key.storage
  | unique key columns => exact Target.nativeStorage_leaves key.storage
  | foreignKey key columns =>
    simp only [TableConstraint.native, leaves, List.forall_mem_singleton]
    exact Leaf.native_foreignKey key
  | check c =>
    simp only [TableConstraint.native, leaves, List.forall_mem_singleton] at h ⊢
    exact Leaf.native_condition h

theorem Table.native_leaves {table : Table} (hwf : table.WellFormed)
    (h : ∀ l ∈ table.leaves, l.Writable t) : ∀ l ∈ (table.native t o).leaves, l.Native t o := by
  simp only [leaves, List.forall_mem_append, List.mem_flatMap, forall_exists_index, and_imp] at h
  intro l hl
  simp only [leaves, List.mem_append, List.mem_flatMap] at hl
  rcases hl with (⟨_, hmem, hl⟩ | ⟨_, hmem, hl⟩) | hl
  · obtain ⟨c, hc, rfl⟩ := List.mem_map.mp hmem
    exact Column.native_leaves (hwf.columns c hc).1.toWellFormed
      (fun l hl => h.1.1 l c hc hl) l hl
  · obtain ⟨c, hc, rfl⟩ := List.mem_map.mp hmem
    exact TableConstraint.native_leaves (fun l hl => h.1.2 l c hc hl) l hl
  · exact Target.nativeStorage_leaves table.storage l hl

end SchemaScript
