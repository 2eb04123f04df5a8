import SchemaScript.Proofs.Table.Native

/-!
# Spelling tables

What is written for a table, and how it relates to the table's native form.

* `Target.table_native` — a table and its native form are written alike.
* `Target.spells_table` — a native table spells its own words.

Each is proved for the parts of a table first.
-/

set_option autoImplicit false

namespace SchemaScript

open Text (Tidy indent)
open Writer (newLine tab)

namespace Target

variable {t : Target} {o : WriteOptions}

/-! ## A table and its native form -/

theorem write_leaveOut {kind : Kind} (h : t.writes kind = false) (form : Layout → Written) :
    (t.writer o).write kind form = .ok "" := by
  rw [writes, decide_eq_false_iff_not, Decidable.not_not] at h
  rw [Writer.write, show (t.writer o).dialect = t.dialect from rfl, h]

theorem join_filter (texts : List String) :
    String.join (texts.filter (· ≠ "")) = String.join texts := by
  induction texts with
  | nil => rfl
  | cons a as ih =>
    by_cases h : a = ""
    · rw [List.filter_cons_of_neg (by simp [h]), ih, String.join_cons, h, String.empty_append]
    · rw [List.filter_cons_of_pos (by simp [h]), String.join_cons, String.join_cons, ih]

/-- Nodes that come out empty make no difference to what is written of a list in one piece. -/
theorem join_mapM_filterMap {α : Type} {f : α → Written} {g : α → Option α} {xs : List α}
    (hnone : ∀ x ∈ xs, g x = none → f x = .ok "")
    (hsome : ∀ x ∈ xs, ∀ y, g x = some y → f y = f x) :
    ((xs.filterMap g).mapM f).map String.join = (xs.mapM f).map String.join := by
  have hjoin : ∀ texts : Except WriteError (List String),
      texts.map String.join = Except.map String.join (texts.map (List.filter (· ≠ ""))) := by
    intro texts
    cases texts with
    | error e => rfl
    | ok texts => exact congrArg Except.ok (join_filter texts).symm
  rw [hjoin, mapM_filterMap hnone hsome, ← hjoin]

theorem nativeStorage_eq (options : List Storage) :
    t.nativeStorage options = options.filterMap (Option.guard fun s => t.writes s.kind) :=
  congrFun List.filterMap_eq_filter.symm options

theorem storage_native (n : Nat) (s : Storage) :
    (Option.guard (fun s => t.writes s.kind) s = none → (t.writer o).storage n s = .ok "") ∧
      ∀ y, Option.guard (fun s => t.writes s.kind) s = some y →
        (t.writer o).storage n y = (t.writer o).storage n s := by
  constructor
  · intro hnone
    refine write_leaveOut ?_ _
    simpa [Option.guard] using hnone
  · intro y hsome
    simp only [Option.guard] at hsome
    split at hsome
    · rw [Option.some.inj hsome]
    · cases hsome

/-- The storage options that come out non-empty are those of the native form. -/
theorem mapM_nativeStorage (n : Nat) (options : List Storage) :
    ((t.nativeStorage options).mapM ((t.writer o).storage n)).map (List.filter (· ≠ "")) =
      (options.mapM ((t.writer o).storage n)).map (List.filter (· ≠ "")) := by
  rw [nativeStorage_eq]
  exact mapM_filterMap (fun s _ => (storage_native n s).1) fun s _ => (storage_native n s).2

theorem storages_native (n : Nat) (options : List Storage) :
    (t.writer o).storages n (t.nativeStorage options) = (t.writer o).storages n options := by
  have hjoin : ∀ options : List Storage, (t.writer o).storages n options =
      (options.mapM ((t.writer o).storage n)).map String.join := by
    intro options
    rw [Writer.storages]
    cases options.mapM ((t.writer o).storage n) <;> rfl
  rw [hjoin, hjoin, nativeStorage_eq]
  exact join_mapM_filterMap (fun s _ => (storage_native n s).1) fun s _ => (storage_native n s).2

theorem references_native (n : Nat) (key : ForeignKey) :
    (t.writer o).references n (key.native t o) = (t.writer o).references n key := by
  have hdefers : ((t.writer o).options.deferrable && (t.writer o).dialect.writesDeferrable) =
      t.defers o := rfl
  simp only [Writer.references, ForeignKey.native, hdefers, Bool.or_assoc, Bool.or_self]

theorem condition_native {c : Check} (h : (Leaf.condition c.condition).Writable t) :
    (t.writer o).condition (c.native t) = (t.writer o).condition c := by
  have hterm := t.term_nativeTerm o (.expression c.condition) h.1.isText h.2
  rw [nativeTerm] at hterm
  rw [Writer.condition, Writer.condition, Check.native, hterm]

theorem typeName_nativeDataType (d : DataType) :
    Writer.typeName (t.dialect.nativeType d) = Writer.typeName (t.nativeDataType d) := by
  simp [Writer.typeName, nativeDataType]

theorem typeName_native {d : DataType} (h : d.WellFormed) :
    Writer.typeName (t.dialect.nativeType (t.nativeDataType d)) =
      Writer.typeName (t.dialect.nativeType d) := by
  rw [typeName_nativeDataType, typeName_nativeDataType, t.nativeDataType_nativeDataType h]

/-! ### Column clauses -/

section Clauses

variable (n : Nat)

theorem columnClause_dataType (d : DataType) : (t.writer o).columnClause n (.dataType d) =
    .ok (Text.collapse (Writer.typeName (t.dialect.nativeType d))) := by
  cases t <;> rfl

theorem columnClause_defaultValue (x : Term) : (t.writer o).columnClause n (.defaultValue x) =
    (do return newLine (n + tab) ++ "DEFAULT (" ++ (← (t.writer o).term x) ++ ")" :
      Written).map Text.collapse := by
  cases t <;> rfl

theorem columnClause_notNull (name : Option String) : (t.writer o).columnClause n (.notNull name) =
    .ok (Text.collapse (Writer.constraintName name " " ++ "NOT NULL")) := by
  cases t <;> rfl

theorem columnClause_primaryKey (key : Key) : (t.writer o).columnClause n (.primaryKey key) =
    ((t.writer o).columnKey n "PRIMARY KEY" key).map Text.collapse := by
  cases t <;> rfl

theorem columnClause_unique (key : Key) : (t.writer o).columnClause n (.unique key) =
    ((t.writer o).columnKey n "UNIQUE" key).map Text.collapse := by
  cases t <;> rfl

theorem columnClause_foreignKey (key : ForeignKey) : (t.writer o).columnClause n (.foreignKey key) =
    (do return newLine (n + tab) ++ Writer.constraintName key.name (newLine (n + 2 * tab)) ++
      (← (t.writer o).references n key) : Written).map Text.collapse := by
  cases t <;> rfl

theorem columnClause_check (c : Check) : (t.writer o).columnClause n (.check c) =
    (do return newLine (n + tab) ++ Writer.constraintName c.name (newLine (n + 2 * tab)) ++
      (← (t.writer o).condition c) : Written).map Text.collapse := by
  cases t <;> rfl

theorem columnKey_native (words : String) (key : Key) :
    (t.writer o).columnKey n words (key.native t) = (t.writer o).columnKey n words key := by
  simp only [Writer.columnKey, Key.native, storages_native]
  rfl

theorem columnClause_native {c : ColumnClause} (hwf : c.WellFormed)
    (h : ∀ l ∈ c.leaves, l.Writable t) :
    (t.writer o).columnClause n (c.native t o) = (t.writer o).columnClause n c := by
  cases c with
  | dataType d =>
    rw [ColumnClause.native, columnClause_dataType, columnClause_dataType, typeName_native hwf]
  | defaultValue x =>
    have hx := h (.value x) (by simp [ColumnClause.leaves])
    have htext := hx.1.isText
    rw [show Term.rowLiterals [x] = x.literals from List.append_nil x.literals] at htext
    rw [ColumnClause.native, columnClause_defaultValue, columnClause_defaultValue,
      t.term_nativeTerm o x htext hx.2]
  | notNull name => rfl
  | primaryKey key =>
    rw [ColumnClause.native, columnClause_primaryKey, columnClause_primaryKey, columnKey_native]
  | unique key => rw [ColumnClause.native, columnClause_unique, columnClause_unique, columnKey_native]
  | foreignKey key =>
    rw [ColumnClause.native, columnClause_foreignKey, columnClause_foreignKey, references_native]
    rfl
  | check c =>
    have hc := h (.condition c.condition) (by simp [ColumnClause.leaves])
    rw [ColumnClause.native, columnClause_check, columnClause_check, condition_native hc]
    rfl

end Clauses

/-! ### Columns, constraints and tables -/

/-- The clauses of a well-formed column are written in their order. -/
theorem sorted_clauses {c : Column} (h : c.WellFormed) :
    (t.writer o).sorted ColumnClause.kind c.clauses = .ok c.clauses := by
  rw [sorted_eq_ofClauses c.name, (Column.clauses_ofClauses_eq_iff c.name c.clauses).mpr h.sorted]

theorem mapM_map_congr {α β ε : Type} {f : α → Except ε β} {g : α → α} {xs : List α}
    (h : ∀ x ∈ xs, f (g x) = f x) : (xs.map g).mapM f = xs.mapM f := by
  induction xs with
  | nil => rfl
  | cons x xs ih =>
    rw [List.map_cons, List.mapM_cons, List.mapM_cons, h x (by simp), ih fun y hy => h y (by simp [hy])]

theorem columnClauses_native (n width : Nat) {clauses : List ColumnClause}
    (h : ∀ c ∈ clauses, c.WellFormed ∧ ∀ l ∈ c.leaves, l.Writable t) :
    (t.writer o).columnClauses n width (clauses.map (·.native t o)) =
      (t.writer o).columnClauses n width clauses := by
  cases clauses with
  | nil => rfl
  | cons c cs =>
    have hothers : (cs.map (·.native t o)).mapM ((t.writer o).columnClause (n + width)) =
        cs.mapM ((t.writer o).columnClause (n + width)) :=
      mapM_map_congr fun c hc => columnClause_native _ (h c (by simp [hc])).1 (h c (by simp [hc])).2
    simp only [List.map_cons, Writer.columnClauses, hothers,
      columnClause_native n (h c (by simp)).1 (h c (by simp)).2]

theorem column_eq (n width : Nat) {c : Column} (h : c.WellFormed) :
    (t.writer o).column n width c = (do
      let clauses ← (t.writer o).columnClauses n width c.clauses
      return indent n ++ c.name ++ indent (max (width - c.name.length) 1) ++ " ".intercalate clauses
        : Written).map Text.collapse := by
  have hsorted := sorted_clauses (t := t) (o := o) h
  rw [Writer.column, Writer.write]
  cases t <;>
  · simp only [writer, dialect] at hsorted
    simp only [writer, dialect, Dialect.oracle, Dialect.postgres] at hsorted ⊢
    rw [hsorted]
    rfl

theorem column_native (n width : Nat) {c : Column} (hwf : c.WellFormed)
    (h : ∀ l ∈ c.leaves, l.Writable t) :
    (t.writer o).column n width (c.native t o) = (t.writer o).column n width c := by
  have hclauses : ∀ clause ∈ c.clauses, clause.WellFormed ∧ ∀ l ∈ clause.leaves, l.Writable t :=
    fun clause hc => ⟨hwf.clauses clause hc, fun l hl => h l (List.mem_flatMap.mpr ⟨clause, hc, hl⟩)⟩
  rw [column_eq n width hwf.native, column_eq n width hwf, Column.native,
    columnClauses_native n width hclauses]

section Constraints

variable (n : Nat)

theorem tableConstraint_primaryKey (key : Key) (columns : List String) :
    (t.writer o).tableConstraint n (.primaryKey key columns) =
      ((t.writer o).tableKey n "PRIMARY KEY" key columns).map Text.collapse := by
  cases t <;> rfl

theorem tableConstraint_unique (key : Key) (columns : List String) :
    (t.writer o).tableConstraint n (.unique key columns) =
      ((t.writer o).tableKey n "UNIQUE" key columns).map Text.collapse := by
  cases t <;> rfl

theorem tableConstraint_foreignKey (key : ForeignKey) (columns : List String) :
    (t.writer o).tableConstraint n (.foreignKey key columns) =
      (do return indent n ++ Writer.constraintName key.name " " ++ "FOREIGN KEY " ++
        Writer.names columns ++ newLine (n + tab) ++ (← (t.writer o).references n key) :
          Written).map Text.collapse := by
  cases t <;> rfl

theorem tableConstraint_check (c : Check) : (t.writer o).tableConstraint n (.check c) =
    (do return indent n ++ Writer.constraintName c.name (newLine (n + tab)) ++
      (← (t.writer o).condition c) : Written).map Text.collapse := by
  cases t <;> rfl

theorem tableKey_native (words : String) (key : Key) (columns : List String) :
    (t.writer o).tableKey n words (key.native t) columns =
      (t.writer o).tableKey n words key columns := by
  have hwritten : ∀ key : Key, (t.writer o).tableKey n words key columns = (do
      let written ← (key.storage.mapM ((t.writer o).storage (n + tab))).map (List.filter (· ≠ ""))
      return indent n ++ Writer.constraintName key.name " " ++ words ++ " " ++
        Writer.names columns ++ String.join (written.map (" " ++ ·)) : Written) := by
    intro key
    rw [Writer.tableKey]
    cases key.storage.mapM ((t.writer o).storage (n + tab)) <;> rfl
  rw [hwritten, hwritten, Key.native, mapM_nativeStorage]

theorem tableConstraint_native {c : TableConstraint} (h : ∀ l ∈ c.leaves, l.Writable t) :
    (t.writer o).tableConstraint n (c.native t o) = (t.writer o).tableConstraint n c := by
  cases c with
  | primaryKey key columns =>
    rw [TableConstraint.native, tableConstraint_primaryKey, tableConstraint_primaryKey,
      tableKey_native]
  | unique key columns =>
    rw [TableConstraint.native, tableConstraint_unique, tableConstraint_unique, tableKey_native]
  | foreignKey key columns =>
    rw [TableConstraint.native, tableConstraint_foreignKey, tableConstraint_foreignKey,
      references_native]
    rfl
  | check c =>
    have hc := h (.condition c.condition) (by simp [TableConstraint.leaves])
    rw [TableConstraint.native, tableConstraint_check, tableConstraint_check, condition_native hc]
    rfl

end Constraints

theorem margin_native (n : Nat) (columns : List Column) :
    Writer.margin n (columns.map (·.native t o)) = Writer.margin n columns := by
  rw [Writer.margin, List.map_map]
  rfl

/-- **A table and its native form are written alike.** -/
theorem table_native (n : Nat) {table : Table} (hwf : table.WellFormed)
    (h : ∀ l ∈ table.leaves, l.Writable t) :
    (t.writer o).table n (table.native t o) = (t.writer o).table n table := by
  simp only [Table.leaves, List.forall_mem_append, List.mem_flatMap, forall_exists_index,
    and_imp] at h
  have hcolumns : (table.columns.map (·.native t o)).mapM
      ((t.writer o).column (n + tab) (Writer.margin n table.columns)) =
      table.columns.mapM ((t.writer o).column (n + tab) (Writer.margin n table.columns)) :=
    mapM_map_congr fun c hc => column_native _ _ (hwf.columns c hc).1.toWellFormed
      fun l hl => h.1.1 l c hc hl
  have hconstraints : (table.constraints.map (·.native t o)).mapM
      ((t.writer o).tableConstraint (n + tab)) =
      table.constraints.mapM ((t.writer o).tableConstraint (n + tab)) :=
    mapM_map_congr fun c hc => tableConstraint_native _ fun l hl => h.1.2 l c hc hl
  simp only [Writer.table, Table.native, margin_native, hcolumns, hconstraints, storages_native]
  rfl

end Target

/-! ## Native tables spell their words -/

theorem IsName.spells {n : String} (h : IsName n) : Spells n [Word.ofText n] := spells_word h.isWord

theorem IsName.solid {n : String} (h : IsName n) : Solid n := by
  have hword := h.isWord
  unfold Solid
  cases hn : n.toList with
  | nil => simp [hn, Scan.isWord] at hword
  | cons c cs =>
    rw [hn, Scan.isWord, Bool.and_eq_true] at hword
    simp [Text.isBlank_of_isAlpha hword.1]

theorem spells_numeral {d : String} (h : Scan.isNumeral d.toList) : Spells d [Word.ofText d] := by
  have hinline : Word.Inline ⟨.digits, d⟩ := ⟨.digits h rfl, nofun⟩
  rw [show Word.ofText d = ⟨.digits, d⟩ from hinline.ofText_eq]
  exact hinline.spells (Text.tidy_of_no_newline (Scan.isNumeral_no_newline h))

theorem IsSpace.spells {n : String} (h : IsSpace n) : Spells n [Word.ofText n] := by
  rcases h with h | h
  · exact h.spells
  · have hinline : Word.Inline ⟨.placeholder, n⟩ := ⟨.placeholder h rfl, nofun⟩
    rw [show Word.ofText n = ⟨.placeholder, n⟩ from hinline.ofText_eq]
    exact hinline.spells (Text.tidy_of_no_newline (Scan.isPlaceholder_no_newline h))

theorem AreNames.opens {ns : List String} (h : AreNames ns) :
    Opens (Writer.names ns) (nameWords ns) := by
  have hnames := opens_names (g := id) fun n hn => (h.names n hn).spells
  rw [List.map_id] at hnames
  exact hnames

theorem opens_constraintName {name : Option String} (h : ∀ n ∈ name, IsName n) {gap : String}
    (hgap : Opens gap []) (hparted : Parted gap) :
    Opens (Writer.constraintName name gap) (constraintWords name) := by
  cases name with
  | none => exact opens_empty
  | some n =>
    have hword : Opens "CONSTRAINT " [Keyword.constraint.word] := opens_phrase [.constraint] rfl
    exact (hword.append_spells (h n rfl).spells).append_opens hgap hparted

theorem Solid.constraintName {s : String} (h : Solid s) (name : Option String) (gap : String) :
    Solid (Writer.constraintName name gap ++ s) := by
  cases name with
  | none =>
    rw [Writer.constraintName, String.empty_append]
    exact h
  | some n => exact (((Solid.append (by decide) n).append gap).append s)

/-- What is written for a storage option, on a line of its own. -/
def Storage.text : Storage → String
  | .tablespace n => "TABLESPACE " ++ n
  | .indexTablespace n => "USING INDEX TABLESPACE " ++ n
  | .logging true => "LOGGING"
  | .logging false => "NOLOGGING"
  | .parallel false _ => "NOPARALLEL"
  | .parallel true none => "PARALLEL"
  | .parallel true (some d) => "PARALLEL " ++ d
  | .rowMovement true => "ENABLE ROW MOVEMENT"
  | .rowMovement false => "DISABLE ROW MOVEMENT"
  | .onCommit true => "ON COMMIT PRESERVE ROWS"
  | .onCommit false => "ON COMMIT DELETE ROWS"

theorem Storage.spells_text {s : Storage} (h : s.OfTable ∨ s.OfKey) : Spells s.text s.words := by
  rcases h with (h | ⟨enabled⟩ | ⟨preserve⟩) | h
  · cases h with
    | tablespace hn => exact (opens_phrase [.tablespace] rfl).append_spells hn.spells
    | logging enabled =>
      cases enabled with
      | true => exact spells_phrase [] .logging rfl
      | false => exact spells_phrase [] .nologging rfl
    | parallel => exact spells_phrase [] .parallel rfl
    | degree hd => exact (opens_phrase [.parallel] rfl).append_spells (spells_numeral hd)
    | noparallel => exact spells_phrase [] .noparallel rfl
  · cases enabled with
    | true => exact spells_phrase [.enable, .row] .movement rfl
    | false => exact spells_phrase [.disable, .row] .movement rfl
  · cases preserve with
    | true => exact spells_phrase [.on, .commit, .preserve] .rows rfl
    | false => exact spells_phrase [.on, .commit, .delete] .rows rfl
  · cases h with
    | indexTablespace hn =>
      exact (opens_phrase [.using_, .index, .tablespace] rfl).append_spells hn.spells

theorem Storage.solid_text (s : Storage) : Solid s.text := by
  unfold Storage.text
  split <;> first | decide | exact Solid.append (by decide) _

namespace Target

variable {t : Target} {o : WriteOptions}

/-- A storage option that a dialect has words for. -/
theorem storage_eq (n : Nat) {s : Storage} (hw : t.writes s.kind) :
    (t.writer o).storage n s = .ok (Text.collapse (newLine n ++ s.text)) := by
  have hassoc : ∀ a b : String, newLine n ++ a ++ b = newLine n ++ (a ++ b) :=
    fun _ _ => String.append_assoc
  have hwrite : ∀ text, (t.writer o).storage n s = .ok (Text.collapse text) →
      text = newLine n ++ s.text →
      (t.writer o).storage n s = .ok (Text.collapse (newLine n ++ s.text)) :=
    fun _ h heq => heq ▸ h
  cases s with
  | tablespace name => cases t with
    | oracle => exact hwrite _ rfl (hassoc _ _)
    | postgres => cases hw
  | indexTablespace name => cases t with
    | oracle => exact hwrite _ rfl (hassoc _ _)
    | postgres => cases hw
  | logging enabled => cases t with
    | oracle => cases enabled <;> rfl
    | postgres => cases hw
  | parallel enabled degree => cases t with
    | oracle =>
      cases enabled with
      | false => rfl
      | true =>
        cases degree with
        | none => rfl
        | some degree => exact hwrite _ rfl (hassoc _ _)
    | postgres => cases hw
  | rowMovement enabled => cases t with
    | oracle => cases enabled <;> exact hwrite _ rfl (hassoc _ _)
    | postgres => cases hw
  | onCommit preserve =>
    cases t <;> cases preserve <;>
      exact hwrite _ rfl ((congrArg (· ++ _) (hassoc _ _)).trans (hassoc _ _))

section Storage

variable {options : List Storage} (h : ∀ s ∈ options, (s.OfTable ∨ s.OfKey) ∧ t.writes s.kind)

include h

/-- Storage options, each on a line of its own. -/
theorem mapM_storage (n : Nat) :
    options.mapM ((t.writer o).storage n) = .ok (options.map fun s => newLine n ++ s.text) ∧
      ∀ s ∈ options, Spells (newLine n ++ s.text) s.words := by
  have hspells : ∀ s ∈ options, Spells (newLine n ++ s.text) s.words := fun s hs =>
    (Storage.spells_text (h s hs).1).newLine s.solid_text.onLine n
  refine ⟨mapM_ok fun s hs => ?_, hspells⟩
  rw [storage_eq n (h s hs).2, (hspells s hs).tidy.collapsed]

theorem spells_storages (n : Nat) :
    ∃ text, (t.writer o).storages n options = .ok text ∧
      Spells text (options.flatMap Storage.words) ∧ Detached text := by
  obtain ⟨hmapM, hspells⟩ := mapM_storage (o := o) h n
  obtain ⟨hjoin, hdetached⟩ := spells_join hspells fun s _ => (parted_newLine n).append s.text
  refine ⟨_, ?_, hjoin, hdetached⟩
  rw [Writer.storages, hmapM]
  rfl

end Storage

theorem spells_onDelete (n : Nat) (rule : OnDelete) :
    ∃ text, (t.writer o).onDelete n rule = .ok text ∧ Spells text rule.words := by
  have hcascade : Spells (newLine (n + tab) ++ "ON DELETE " ++ "CASCADE") OnDelete.cascade.words :=
    ((opens_newLine n).append (opens_phrase [.on, .delete] rfl)).append_spells
      (spells_phrase [] .cascade rfl)
  have hsetNull : Spells (newLine (n + tab) ++ "ON DELETE " ++ "SET NULL") OnDelete.setNull.words :=
    ((opens_newLine n).append (opens_phrase [.on, .delete] rfl)).append_spells
      (spells_phrase [.set] .null rfl)
  have hkind : t.dialect.treatment? rule.kind = some (.write .onDelete) := by
    cases t <;> cases rule <;> rfl
  cases rule with
  | cascade => exact ⟨_, write_eq .onDelete hkind rfl hcascade.tidy, hcascade⟩
  | setNull => exact ⟨_, write_eq .onDelete hkind rfl hsetNull.tidy, hsetNull⟩

theorem spells_references (n : Nat) {key : ForeignKey} (h : key.WellFormed)
    (hnative : (Leaf.foreignKey key).Native t o) :
    ∃ text, (t.writer o).references n key = .ok text ∧
      Spells text (Keyword.references.word :: key.words) ∧ Solid text := by
  obtain ⟨name, ⟨table, columns⟩, rule, deferrable⟩ := key
  have hdefers : (deferrable || t.defers o) = deferrable := by
    cases hd : t.defers o with
    | false => rw [Bool.or_false]
    | true => rw [show deferrable = true from hnative hd, Bool.true_or]
  have htarget : Opens ("REFERENCES " ++ table ++ " " ++ Writer.names columns)
      (Keyword.references.word :: Word.ofText table :: nameWords columns) :=
    (((opens_phrase [.references] rfl).append_spells h.table.spells).append_opens opens_space
      (by decide)).append h.columns.opens
  have hwritten : ∃ text, (t.writer o).references n ⟨name, ⟨table, columns⟩, rule, deferrable⟩ =
      .ok ("REFERENCES " ++ table ++ " " ++ Writer.names columns ++ text ++
        if (deferrable || t.defers o) then " DEFERRABLE" else "") ∧
      Spells text ((rule.map OnDelete.words).getD []) := by
    cases rule with
    | none => exact ⟨"", rfl, spells_empty⟩
    | some rule =>
      obtain ⟨text, htext, hspells⟩ := spells_onDelete (t := t) (o := o) (n + tab) rule
      refine ⟨" " ++ text, ?_, opens_space.append_spells hspells⟩
      simp only [Writer.references, htext]
      rfl
  obtain ⟨text, htext, hspells⟩ := hwritten
  rw [hdefers] at htext
  have hlast : Spells (if deferrable then " DEFERRABLE" else "")
      (if deferrable then [Keyword.deferrable.word] else []) ∧
      Detached (if deferrable then " DEFERRABLE" else "") := by
    cases deferrable with
    | false => exact ⟨spells_empty, rfl⟩
    | true => exact ⟨opens_space.append_spells (spells_phrase [] .deferrable rfl), by decide⟩
  refine ⟨_, htext, ?_, ?_⟩
  · have hall := (htarget.append_spells hspells).append hlast.1 hlast.2
    simpa [ForeignKey.words] using hall
  · exact ((((Solid.append (by decide) _).append _).append _).append _).append _

theorem spells_condition {c : Check} (h : (Leaf.condition c.condition).Native t o) :
    ∃ text, (t.writer o).condition c = .ok text ∧
      Opens text (Keyword.check.word :: c.words) ∧ Solid text := by
  obtain ⟨text, htext, hspells⟩ := t.spells_term o (.expression c.condition) h.2
  have hopen : Opens "CHECK (" [Keyword.check.word, Word.lparen] :=
    (opens_phrase [.check] rfl).append opens_lparen
  refine ⟨"CHECK (" ++ text ++ ")", ?_, ?_, ?_⟩
  · rw [Writer.condition, htext]
    rfl
  · have hall := (hopen.append_spells hspells).append_opens opens_rparen (by decide)
    simpa [Check.words, Term.words, Term.wordLists_eq, Term.rowWords, List.flatMap] using hall
  · exact (Solid.append (by decide) _).append _

end Target

theorem Spells.words_eq {s : String} {ws : List Word} (h : Spells s ws) :
    Scan.words s.toList = ws := by
  have hscan := h.scan [] nofun
  rwa [List.append_nil, Scan.words_nil, List.append_nil] at hscan

theorem IsPrecision.spells {p : String} (h : IsPrecision p) : Spells p (Scan.words p.toList) := by
  have hspells : ∃ ws, Spells p ws := by
    cases h with
    | one ha => exact ⟨_, spells_numeral ha⟩
    | two ha hb =>
      exact ⟨_, ((spells_numeral ha).append_opens opens_comma (by decide)).append_spells
        (spells_numeral hb)⟩
  obtain ⟨ws, hws⟩ := hspells
  rwa [hws.words_eq]

theorem DataType.WellFormed.spells {d : DataType} (h : d.WellFormed)
    (hupper : Text.upper d.name = d.name) : Spells (Writer.typeName d) d.words := by
  obtain ⟨name, precision⟩ := d
  rw [Writer.typeName, hupper, DataType.words]
  cases precision with
  | none =>
    have hname := (spells_word h.isWord).append spells_empty rfl
    exact hname
  | some p =>
    have hp : Opens ("(" ++ p ++ ")") (precisionWords (some p)) :=
      (opens_lparen.append_spells (h.precision p rfl).spells).append_opens opens_rparen (by decide)
    have hparted : Parted ("(" ++ p ++ ")") := (Parted.append (by decide) p).append ")"
    exact (spells_word h.isWord).append hp.spells hparted.detached

theorem Key.WellFormed.ofKey {key : Key} (h : key.WellFormed) {s : Storage} (hs : s ∈ key.storage) :
    s.OfKey := by
  rcases h.storage with heq | ⟨s', heq, hs'⟩
  · rw [heq] at hs
    cases hs
  · rw [heq, List.mem_singleton] at hs
    exact hs ▸ hs'

namespace Target

variable {t : Target} {o : WriteOptions}

theorem spells_dataType {d : DataType} (h : d.WellFormed) (hnative : t.nativeDataType d = d) :
    Spells (Writer.typeName (t.dialect.nativeType d)) d.words := by
  obtain ⟨k, hk, htype⟩ := h.upper_name
  have hname : Text.upper d.name = d.name := by
    rw [t.nativeDataType_eq hk htype] at hnative
    rw [← hnative]
    exact Keyword.upper_name _
  rw [typeName_nativeDataType, hnative]
  exact h.spells hname

/-- A primary key or uniqueness clause, given the words that it stands for. -/
theorem spells_columnKey (n : Nat) {words : String} {ks : List Word} (hwords : Spells words ks)
    {key : Key} (h : key.WellFormed) (hnative : ∀ l ∈ key.leaves, l.Native t o) :
    ∃ text, (t.writer o).columnKey n words key = .ok text ∧
      Spells text (constraintWords key.name ++ ks ++ key.words) := by
  obtain ⟨text, htext, hspells, hdetached⟩ := spells_storages (o := o)
    (fun s hs => ⟨.inr (h.ofKey hs), hnative _ (List.mem_map_of_mem hs)⟩) (n + tab)
  have hopening : Opens (if key.name.isSome then newLine (n + tab) else "") [] := by
    split
    · exact opens_newLine n
    · exact opens_empty
  have hname := opens_constraintName h.name opens_space (by decide)
  refine ⟨_, ?_, ((hopening.append hname).append_spells hwords).append hspells hdetached⟩
  rw [Writer.columnKey, htext]
  rfl

theorem opens_hanging (n : Nat) {name : Option String} (h : ∀ x ∈ name, IsName x) :
    Opens (newLine (n + tab) ++ Writer.constraintName name (newLine (n + 2 * tab)))
      (constraintWords name) := by
  have hgap : n + 2 * tab = n + tab + tab := by rw [Nat.two_mul, Nat.add_assoc]
  rw [hgap]
  exact (opens_newLine n).append (opens_constraintName h (opens_newLine _) (parted_newLine _))

/-- A native column clause spells its words. -/
theorem spells_columnClause (n : Nat) {c : ColumnClause} (h : c.WellFormed)
    (hnative : ∀ l ∈ c.leaves, l.Native t o) :
    ∃ text, (t.writer o).columnClause n c = .ok text ∧ Spells text c.words := by
  have hfinish : ∀ text : String, (t.writer o).columnClause n c = .ok (Text.collapse text) →
      Spells text c.words →
      ∃ text, (t.writer o).columnClause n c = .ok text ∧ Spells text c.words := by
    intro text heq hspells
    exact ⟨text, by rw [heq, hspells.tidy.collapsed], hspells⟩
  cases c with
  | dataType d =>
    exact hfinish _ (columnClause_dataType n d) (spells_dataType h (hnative (.dataType d) (by
      simp [ColumnClause.leaves])))
  | defaultValue x =>
    have hx : (Leaf.value x).Native t o := hnative _ (by simp [ColumnClause.leaves])
    obtain ⟨text, htext, hspells⟩ := t.spells_term o x hx.2
    have hopen : Opens "DEFAULT (" [Keyword.default.word, Word.lparen] :=
      (opens_phrase [.default] rfl).append opens_lparen
    refine hfinish (newLine (n + tab) ++ "DEFAULT (" ++ text ++ ")") ?_ ?_
    · rw [columnClause_defaultValue, htext]
      rfl
    · exact ((((opens_newLine n).append hopen).append_spells hspells).append_opens opens_rparen
        (by decide)).spells
  | notNull name =>
    exact hfinish _ (columnClause_notNull n name)
      ((opens_constraintName h opens_space (by decide)).append_spells (spells_phrase [.not] .null rfl))
  | primaryKey key =>
    obtain ⟨text, htext, hspells⟩ :=
      spells_columnKey n (spells_phrase [.primary] .key rfl : Spells "PRIMARY KEY" _) h hnative
    refine hfinish text ?_ ?_
    · rw [columnClause_primaryKey, htext]
      rfl
    · simpa [ColumnClause.words] using hspells
  | unique key =>
    obtain ⟨text, htext, hspells⟩ :=
      spells_columnKey n (spells_phrase [] .unique rfl : Spells "UNIQUE" _) h hnative
    refine hfinish text ?_ ?_
    · rw [columnClause_unique, htext]
      rfl
    · simpa [ColumnClause.words] using hspells
  | foreignKey key =>
    obtain ⟨text, htext, hspells, -⟩ := spells_references n h (hnative _ (by
      simp [ColumnClause.leaves]))
    refine hfinish _ ?_ ((opens_hanging n h.name).append_spells hspells)
    rw [columnClause_foreignKey, htext]
    rfl
  | check c =>
    obtain ⟨text, htext, hspells, -⟩ := spells_condition (o := o) (c := c) (hnative _ (by
      simp [ColumnClause.leaves]))
    refine hfinish _ ?_ ((opens_hanging n h).append_spells hspells.spells)
    rw [columnClause_check, htext]
    rfl

theorem spells_columnClauses (n width : Nat) {clauses : List ColumnClause}
    (h : ∀ c ∈ clauses, c.WellFormed ∧ ∀ l ∈ c.leaves, l.Native t o) :
    ∃ texts, (t.writer o).columnClauses n width clauses = .ok texts ∧
      Spells (" ".intercalate texts) (clauses.flatMap ColumnClause.words) := by
  cases clauses with
  | nil => exact ⟨[], rfl, spells_empty⟩
  | cons c cs =>
    obtain ⟨text, htext, hspells⟩ := spells_columnClause n (h c (by simp)).1 (h c (by simp)).2
    obtain ⟨g, hothers, hg⟩ := mapM_eq_ok fun c hc => spells_columnClause (o := o) (n + width)
      (h c (List.mem_cons_of_mem _ hc)).1 (h c (List.mem_cons_of_mem _ hc)).2
    obtain ⟨hjoin, hdetached⟩ := spells_join (g := fun c => " " ++ g c)
      (fun c hc => opens_space.append_spells (hg c hc)) fun c _ => Parted.append (by decide) (g c)
    refine ⟨text :: cs.map g, ?_, ?_⟩
    · rw [Writer.columnClauses, htext, hothers]
      rfl
    · rw [intercalate_cons, List.map_map, List.flatMap_cons]
      exact hspells.append hjoin hdetached

/-- A native column spells its words, on a line of its own. -/
theorem spells_column (n width : Nat) {c : Column} (h : c.WellFormed)
    (hnative : ∀ l ∈ c.leaves, l.Native t o) :
    ∃ text, (t.writer o).column n width c = .ok (indent n ++ text) ∧ Spells text c.words ∧
      Solid text := by
  obtain ⟨texts, htexts, hclauses⟩ := spells_columnClauses (o := o) n width fun clause hc =>
    ⟨h.clauses clause hc, fun l hl => hnative l (List.mem_flatMap.mpr ⟨clause, hc, hl⟩)⟩
  have hpad : Parted (indent (max (width - c.name.length) 1)) := by
    obtain ⟨m, hm⟩ : ∃ m, max (width - c.name.length) 1 = m + 1 :=
      Nat.exists_eq_succ_of_ne_zero (by omega)
    rw [hm]
    simp [Parted, indent, List.replicate_succ, Scan.isDelimiter]
  have hcolumn : Spells (c.name ++ indent (max (width - c.name.length) 1) ++ " ".intercalate texts)
      c.words := (h.name.spells.append_opens (opens_indent _) hpad).append_spells hclauses
  refine ⟨_, ?_, hcolumn, (h.name.solid.append _).append _⟩
  have htidy := ((opens_indent n).append_spells hcolumn).tidy
  rw [column_eq n width h, htexts, ← htidy.collapsed]
  simp only [← String.append_assoc]
  rfl

/-- A primary key or uniqueness constraint, given the words that it stands for. -/
theorem spells_tableKey (n : Nat) {words : String} {ks : List Word} (hwords : Spells words ks)
    (hsolid : Solid words) {key : Key} {columns : List String} (h : key.WellFormed)
    (hcolumns : AreNames columns) (hnative : ∀ l ∈ key.leaves, l.Native t o) :
    ∃ text, (t.writer o).tableKey n words key columns = .ok (indent n ++ text) ∧
      Spells text (constraintWords key.name ++ ks ++ nameWords columns ++ key.words) ∧ Solid text := by
  have hoptions : ∀ s ∈ key.storage, (s.OfTable ∨ s.OfKey) ∧ t.writes s.kind :=
    fun s hs => ⟨.inr (h.ofKey hs), hnative _ (List.mem_map_of_mem hs)⟩
  obtain ⟨hmapM, hspells⟩ := mapM_storage (o := o) hoptions (n + tab)
  obtain ⟨hjoin, hdetached⟩ := spells_join (g := fun s => " " ++ (newLine (n + tab) ++ s.text))
    (fun s hs => opens_space.append_spells (hspells s hs)) fun s _ => Parted.append (by decide) _
  have hkept : ((key.storage.map fun s => newLine (n + tab) ++ s.text).filter (· ≠ "")) =
      key.storage.map fun s => newLine (n + tab) ++ s.text := by
    rw [List.filter_eq_self]
    intro text htext
    obtain ⟨s, -, rfl⟩ := List.mem_map.mp htext
    simp [newLine]
  have hname := (opens_constraintName h.name opens_space (by decide)).append_spells hwords
  have hall := ((hname.append_opens opens_space (by decide)).append hcolumns.opens).append_spells hjoin
  rw [List.append_nil] at hall
  refine ⟨_, ?_, hall, (((hsolid.constraintName _ _).append _).append _).append _⟩
  rw [Writer.tableKey, hmapM]
  refine congrArg Except.ok ?_
  rw [hkept, List.map_map]
  simp only [String.append_assoc]
  rfl

/-- A native table constraint spells its words, on a line of its own. -/
theorem spells_tableConstraint (n : Nat) {c : TableConstraint} (h : c.WellFormed)
    (hnative : ∀ l ∈ c.leaves, l.Native t o) :
    ∃ text, (t.writer o).tableConstraint n c = .ok (indent n ++ text) ∧ Spells text c.words ∧
      Solid text := by
  have hfinish : ∀ text : String,
      (t.writer o).tableConstraint n c = .ok (Text.collapse (indent n ++ text)) →
      Spells text c.words → Solid text → ∃ text, (t.writer o).tableConstraint n c =
        .ok (indent n ++ text) ∧ Spells text c.words ∧ Solid text := by
    intro text heq hspells hsolid
    exact ⟨text, by rw [heq, ((opens_indent n).append_spells hspells).tidy.collapsed], hspells, hsolid⟩
  cases c with
  | primaryKey key columns =>
    obtain ⟨text, htext, hspells, hsolid⟩ := spells_tableKey n
      (spells_phrase [.primary] .key rfl : Spells "PRIMARY KEY" _) (by decide) h.1 h.2 hnative
    refine hfinish text ?_ (by simpa [TableConstraint.words] using hspells) hsolid
    rw [tableConstraint_primaryKey, htext]
    rfl
  | unique key columns =>
    obtain ⟨text, htext, hspells, hsolid⟩ := spells_tableKey n
      (spells_phrase [] .unique rfl : Spells "UNIQUE" _) (by decide) h.1 h.2 hnative
    refine hfinish text ?_ (by simpa [TableConstraint.words] using hspells) hsolid
    rw [tableConstraint_unique, htext]
    rfl
  | foreignKey key columns =>
    obtain ⟨text, htext, hspells, -⟩ := spells_references n h.1 (hnative _ (by
      simp [TableConstraint.leaves]))
    have hopen := ((opens_constraintName h.1.name opens_space (by decide)).append
      (opens_phrase [.foreign, .key] rfl : Opens "FOREIGN KEY " _)).append h.2.opens
    have hall := (hopen.append (opens_newLine n)).append_spells hspells
    refine hfinish _ ?_ (by simpa [TableConstraint.words] using hall) ?_
    · rw [tableConstraint_foreignKey, htext]
      simp only [← String.append_assoc]
      rfl
    · exact (((Solid.constraintName (by decide) _ _).append _).append _).append _
  | check c =>
    obtain ⟨text, htext, hspells, hsolid⟩ := spells_condition (o := o) (c := c) (hnative _ (by
      simp [TableConstraint.leaves]))
    refine hfinish _ ?_ ((opens_constraintName h (opens_newLine n) (parted_newLine _)).append
      hspells).spells (hsolid.constraintName _ _)
    rw [tableConstraint_check, htext]
    simp only [← String.append_assoc]
    rfl

/-- A native entry of a table: what it is written as, and its words. -/
structure Entry (entry : String × List Word) : Prop where
  spells : Spells entry.1 entry.2
  onLine : OnLine entry.1

theorem entry_indent {text : String} {ws : List Word} (n : Nat) (h : Spells text ws)
    (hs : Solid text) : Entry (indent n ++ text, ws) :=
  ⟨(opens_indent n).append_spells h, hs.onLine.indent n⟩

/-- The entries of a native table spell their words. -/
theorem spells_entries (n : Nat) {table : Table} (h : table.WellFormed)
    (hnative : ∀ l ∈ table.leaves, l.Native t o) :
    ∃ columns constraints : List (String × List Word),
      table.columns.mapM ((t.writer o).column (n + tab) (Writer.margin n table.columns)) =
        .ok (columns.map Prod.fst) ∧
      table.constraints.mapM ((t.writer o).tableConstraint (n + tab)) =
        .ok (constraints.map Prod.fst) ∧
      (columns ++ constraints).map Prod.snd = table.elements.map TableElement.words ∧
      ∀ e ∈ columns ++ constraints, Entry e := by
  simp only [Table.leaves, List.forall_mem_append, List.mem_flatMap, forall_exists_index,
    and_imp] at hnative
  have hcolumn : ∀ c ∈ table.columns, ∃ text,
      (t.writer o).column (n + tab) (Writer.margin n table.columns) c = .ok text ∧
      Entry (text, c.words) := by
    intro c hc
    obtain ⟨text, htext, hspells, hsolid⟩ := spells_column (o := o) (n + tab)
      (Writer.margin n table.columns) (h.columns c hc).1.toWellFormed fun l hl => hnative.1.1 l c hc hl
    exact ⟨_, htext, entry_indent _ hspells hsolid⟩
  have hconstraint : ∀ c ∈ table.constraints, ∃ text,
      (t.writer o).tableConstraint (n + tab) c = .ok text ∧ Entry (text, c.words) := by
    intro c hc
    obtain ⟨text, htext, hspells, hsolid⟩ := spells_tableConstraint (o := o) (n + tab)
      (h.constraints c hc) fun l hl => hnative.1.2 l c hc hl
    exact ⟨_, htext, entry_indent _ hspells hsolid⟩
  obtain ⟨f, hcolumns, hf⟩ := mapM_eq_ok (P := fun c text => Entry (text, Column.words c)) hcolumn
  obtain ⟨g, hconstraints, hg⟩ :=
    mapM_eq_ok (P := fun c text => Entry (text, TableConstraint.words c)) hconstraint
  refine ⟨table.columns.map fun c => (f c, c.words), table.constraints.map fun c => (g c, c.words),
    ?_, ?_, ?_, ?_⟩
  · rw [hcolumns, List.map_map]
    rfl
  · rw [hconstraints, List.map_map]
    rfl
  · simp only [Table.elements, List.map_append, List.map_map]
    rfl
  · intro e he
    rcases List.mem_append.mp he with he | he
    · obtain ⟨c, hc, rfl⟩ := List.mem_map.mp he
      exact hf c hc
    · obtain ⟨c, hc, rfl⟩ := List.mem_map.mp he
      exact hg c hc

/-- The body of a table, between its parentheses. -/
theorem spells_body {entries : List (String × List Word)} (hne : entries ≠ [])
    (h : ∀ e ∈ entries, Entry e) :
    Spells ("\n" ++ ",\n".intercalate (entries.map Prod.fst))
      ([Word.comma].intercalate (entries.map Prod.snd)) := by
  have hsep : ∀ e ∈ entries, Spells (",\n" ++ e.1) ([Word.comma] ++ e.2) := by
    intro e he
    rw [show (",\n" : String) = "," ++ "\n" from rfl, String.append_assoc]
    exact opens_comma.append_spells ((h e he).spells.newline (h e he).onLine)
  have hbody := spells_intercalate ",\n" (fun e he => (h e he).spells) hsep (by decide)
  refine hbody.newline ?_
  obtain ⟨e, es, rfl⟩ := List.exists_cons_of_ne_nil hne
  rw [List.map_cons, intercalate_cons]
  exact (h e (by simp)).onLine.append _

/-- **A native table spells its own words.** -/
theorem spells_table (n : Nat) {table : Table} (h : table.WellFormed)
    (hnative : ∀ l ∈ table.leaves, l.Native t o) :
    ∃ text, (t.writer o).table n table = .ok text ∧
      Opens text (Keyword.create.word :: ((if table.isGlobal then [Keyword.global.word] else []) ++
        (if table.temporary then [Keyword.temporary.word] else []) ++
        Keyword.table.word :: table.words)) ∧ Solid text := by
  obtain ⟨columns, constraints, hcolumns, hconstraints, hwords, hentries⟩ := spells_entries n h hnative
  have hwritten : ∀ s ∈ table.storage, (s.OfTable ∨ s.OfKey) ∧ t.writes s.kind :=
    fun s hs => ⟨.inl (h.storage s hs), hnative (.storage s) (by simp [Table.leaves, hs])⟩
  obtain ⟨options, hoptions, hstorage, hdetached⟩ := spells_storages (o := o) hwritten n
  have hne : columns ++ constraints ≠ [] := by
    intro hnil
    rw [hnil, List.map_nil, eq_comm, List.map_eq_nil_iff, Table.elements] at hwords
    simp only [List.append_eq_nil_iff, List.map_eq_nil_iff] at hwords
    exact h.ne_nil.elim (· hwords.1) (· hwords.2)
  have hglobal : Opens (if table.isGlobal then "GLOBAL " else "")
      (if table.isGlobal then [Keyword.global.word] else []) := by
    split
    · exact opens_phrase [.global] rfl
    · exact opens_empty
  have htemporary : Opens (if table.temporary then "TEMPORARY " else "")
      (if table.temporary then [Keyword.temporary.word] else []) := by
    split
    · exact opens_phrase [.temporary] rfl
    · exact opens_empty
  have hcreate : Opens "CREATE " [Keyword.create.word] := opens_phrase [.create] rfl
  have htable : Opens "TABLE " [Keyword.table.word] := opens_phrase [.table] rfl
  have hhead := ((((hcreate.append hglobal).append htemporary).append htable).append_spells
    h.name.spells).append_opens (opens_lparen.newline (by decide)) (by decide)
  have hclosed := ((hhead.append_spells (spells_body hne hentries)).append_opens
    (opens_rparen.newline (by decide)) (by decide)).append_spells hstorage
  have hall := hclosed.append_opens (opens_semicolon.newline (by decide)) (by decide)
  refine ⟨_, write_eq .table (by cases t <;> rfl) ?_ hall.tidy, ?_, ?_⟩
  · simp only [hcolumns, hconstraints, hoptions]
    refine congrArg Except.ok ?_
    rw [show ("\n(\n" : String) = "\n" ++ "(" ++ "\n" from rfl,
      show ("\n)" : String) = "\n" ++ ")" from rfl, show ("\n;" : String) = "\n" ++ ";" from rfl]
    simp only [List.map_append, String.append_assoc]
  · rw [hwords] at hall
    simpa [Table.words] using hall
  · simp only [String.append_assoc]
    exact Solid.append (by decide) _

end Target

end SchemaScript
