import SchemaScript.Proofs.Dialect.Completeness
import SchemaScript.Proofs.Script.Leaves

/-!
# Deferrable foreign keys

A writer that makes every foreign key deferrable writes what it would write without that option for
the script in which every foreign key is marked.

* `Script.mapForeignKeys` — a script with all its foreign keys replaced.
* `Writer.marked`, `Writer.unmarking` — a foreign key as a writer marks it, and the writer that
  marks none.
* `Writer.script_marked` — for any writer, marking in the script and marking while writing are the
  same.
* `Script.writeFor_deferrable` — what follows for the targets.
-/

set_option autoImplicit false

namespace SchemaScript

/-! ## The foreign keys of a script -/

section MapForeignKeys

variable (f : ForeignKey → ForeignKey)

/-- A column clause with its foreign key replaced. -/
def ColumnClause.mapForeignKeys : ColumnClause → ColumnClause
  | .foreignKey key => .foreignKey (f key)
  | clause => clause

/-- A column with all its foreign keys replaced. -/
def Column.mapForeignKeys (c : Column) : Column :=
  { c with clauses := c.clauses.map (·.mapForeignKeys f) }

/-- A table constraint with its foreign key replaced. -/
def TableConstraint.mapForeignKeys : TableConstraint → TableConstraint
  | .foreignKey key columns => .foreignKey (f key) columns
  | constraint => constraint

/-- A table with all its foreign keys replaced. -/
def Table.mapForeignKeys (t : Table) : Table :=
  { t with
    columns := t.columns.map (·.mapForeignKeys f)
    constraints := t.constraints.map (·.mapForeignKeys f) }

/-- An addition with all its foreign keys replaced. -/
def Addition.mapForeignKeys : Addition → Addition
  | .column c => .column (c.mapForeignKeys f)
  | .constraint c => .constraint (c.mapForeignKeys f)
  | .storage s => .storage s

/-- A modification with all its foreign keys replaced. -/
def Modification.mapForeignKeys : Modification → Modification
  | .modify columns => .modify (columns.map (·.mapForeignKeys f))
  | modification => modification

/-- A change to a table with all its foreign keys replaced. -/
def AlterTable.mapForeignKeys (a : AlterTable) : AlterTable :=
  { a with adds := a.adds.map (·.mapForeignKeys f), mods := a.mods.map (·.mapForeignKeys f) }

/-- A statement with all its foreign keys replaced. -/
def Statement.mapForeignKeys : Statement → Statement
  | .table t => .table (t.mapForeignKeys f)
  | .alterTable a => .alterTable (a.mapForeignKeys f)
  | statement => statement

/-- A script with all its foreign keys replaced. -/
def Script.mapForeignKeys (s : Script) : Script := ⟨s.statements.map (·.mapForeignKeys f)⟩

/-- A leaf that is a foreign key replaced, and any other leaf as it is. -/
def Leaf.mapForeignKey : Leaf → Leaf
  | .foreignKey key => .foreignKey (f key)
  | leaf => leaf

theorem map_leaves {α : Type} {leaf : α → Leaf} (h : ∀ a, (leaf a).mapForeignKey f = leaf a)
    (xs : List α) : xs.map leaf = (xs.map leaf).map (Leaf.mapForeignKey f) := by
  rw [List.map_map]
  exact congrArg (List.map · xs) (funext h).symm

theorem flatMap_leaves {α : Type} {g : α → α} {leaves : α → List Leaf}
    (h : ∀ a, leaves (g a) = (leaves a).map (Leaf.mapForeignKey f)) (xs : List α) :
    (xs.map g).flatMap leaves = (xs.flatMap leaves).map (Leaf.mapForeignKey f) := by
  rw [List.flatMap_map, List.map_flatMap]
  exact congrArg (List.flatMap · xs) (funext h)

@[simp] theorem ColumnClause.kind_mapForeignKeys (c : ColumnClause) :
    (c.mapForeignKeys f).kind = c.kind := by
  cases c <;> rfl

@[simp] theorem Statement.kind_mapForeignKeys (s : Statement) :
    (s.mapForeignKeys f).kind = s.kind := by
  cases s <;> rfl

theorem AlterTable.isEmpty_mapForeignKeys (a : AlterTable) :
    (a.mapForeignKeys f).isEmpty = a.isEmpty := by
  simp [isEmpty, size, mapForeignKeys]

theorem ColumnClause.leaves_mapForeignKeys (c : ColumnClause) :
    (c.mapForeignKeys f).leaves = c.leaves.map (·.mapForeignKey f) := by
  cases c with
  | primaryKey key => exact map_leaves f (fun _ => rfl) key.storage
  | unique key => exact map_leaves f (fun _ => rfl) key.storage
  | _ => rfl

theorem Column.leaves_mapForeignKeys (c : Column) :
    (c.mapForeignKeys f).leaves = c.leaves.map (·.mapForeignKey f) :=
  flatMap_leaves f (ColumnClause.leaves_mapForeignKeys f) c.clauses

theorem TableConstraint.leaves_mapForeignKeys (c : TableConstraint) :
    (c.mapForeignKeys f).leaves = c.leaves.map (·.mapForeignKey f) := by
  cases c with
  | primaryKey key _ => exact map_leaves f (fun _ => rfl) key.storage
  | unique key _ => exact map_leaves f (fun _ => rfl) key.storage
  | _ => rfl

theorem Table.leaves_mapForeignKeys (t : Table) :
    (t.mapForeignKeys f).leaves = t.leaves.map (·.mapForeignKey f) := by
  rw [leaves, leaves, List.map_append, List.map_append, ← map_leaves f fun _ => rfl,
    ← flatMap_leaves f (Column.leaves_mapForeignKeys f),
    ← flatMap_leaves f (TableConstraint.leaves_mapForeignKeys f)]
  rfl

theorem Addition.leaves_mapForeignKeys (a : Addition) :
    (a.mapForeignKeys f).leaves = a.leaves.map (·.mapForeignKey f) := by
  cases a with
  | column c => exact c.leaves_mapForeignKeys f
  | constraint c => exact c.leaves_mapForeignKeys f
  | storage s => rfl

theorem Modification.leaves_mapForeignKeys (m : Modification) :
    (m.mapForeignKeys f).leaves = m.leaves.map (·.mapForeignKey f) := by
  cases m with
  | modify columns => exact flatMap_leaves f (Column.leaves_mapForeignKeys f) columns
  | _ => rfl

theorem Drop.leaves_mapForeignKey (d : Drop) : d.leaves = d.leaves.map (·.mapForeignKey f) := by
  rw [leaves]
  split <;> rfl

theorem AlterTable.leaves_mapForeignKeys (a : AlterTable) :
    (a.mapForeignKeys f).leaves = a.leaves.map (·.mapForeignKey f) := by
  have hdrops := flatMap_leaves f (g := id) (Drop.leaves_mapForeignKey f) a.drops
  rw [List.map_id] at hdrops
  rw [leaves, leaves, List.map_append, List.map_append, ← hdrops,
    ← flatMap_leaves f (Addition.leaves_mapForeignKeys f),
    ← flatMap_leaves f (Modification.leaves_mapForeignKeys f)]
  rfl

theorem Statement.leaves_mapForeignKeys (s : Statement) :
    (s.mapForeignKeys f).leaves = s.leaves.map (·.mapForeignKey f) := by
  cases s with
  | table t => exact t.leaves_mapForeignKeys f
  | alterTable a => exact a.leaves_mapForeignKeys f
  | index i => exact map_leaves f (fun _ => rfl) i.storage
  | alterIndex a => exact map_leaves f (fun _ => rfl) a.storage
  | sequence s => exact map_leaves f (fun _ => rfl) s.options
  | insert i => exact map_leaves f (fun _ => rfl) i.values
  | drop d => exact d.leaves_mapForeignKey f
  | comment c => cases c <;> rfl
  | _ => rfl

/-- The foreign keys that are replaced are all there are. -/
theorem Script.leaves_mapForeignKeys (s : Script) :
    (s.mapForeignKeys f).leaves = s.leaves.map (·.mapForeignKey f) :=
  flatMap_leaves f (Statement.leaves_mapForeignKeys f) s.statements

end MapForeignKeys

/-! ## Writing -/

theorem mapM_comp {α β γ ε : Type} {g : α → β} {f' : β → Except ε γ} {f : α → Except ε γ}
    (h : ∀ x, f' (g x) = f x) (xs : List α) : (xs.map g).mapM f' = xs.mapM f := by
  rw [List.mapM_map, show f' ∘ g = f from funext h]

theorem mapM_map {α β γ ε : Type} {f : α → Except ε β} {g : β → γ} (xs : List α) :
    xs.mapM (fun x => (f x).map g) = (xs.mapM f).map (List.map g) := by
  induction xs with
  | nil => rfl
  | cons x xs ih =>
    rw [List.mapM_cons, List.mapM_cons, ih]
    cases f x with
    | error e => rfl
    | ok y => cases xs.mapM f <;> rfl

namespace Writer

variable (w : Writer)

/-- The writer that leaves foreign keys as they are. -/
def unmarking : Writer := { w with options := { w.options with deferrable := false } }

/-- A foreign key as a writer marks it. -/
def marked (key : ForeignKey) : ForeignKey :=
  { key with
    deferrable := key.deferrable || (w.options.deferrable && w.dialect.writesDeferrable) }

/-! ### Values -/

mutual

theorem term_unmarking : ∀ t : Term, w.unmarking.term t = w.term t
  | .literal _ => rfl
  | .call function args => by
    have hargs := terms_unmarking args
    rw [term.eq_def, term.eq_def]
    refine congrArg (w.write .function) (funext fun layout => ?_)
    cases layout with
    | call => simp only [hargs]
    | sequenceCall =>
      -- Only the first argument is written for the next value of a sequence.
      cases args with
      | nil => rfl
      | cons first rest =>
        have hfirst := term_unmarking first
        cases first with
        | literal _ => simp only [hargs]
        | _ => simp only [hargs]; rw [hfirst]
    | _ => rfl
  | .expression terms => by
    have hterms := terms_unmarking terms
    rw [term, term]
    refine congrArg (w.write .expression) (funext fun layout => ?_)
    cases layout with
    | expression => simp only [hterms]
    | _ => rfl

theorem terms_unmarking : ∀ ts : List Term, w.unmarking.terms ts = w.terms ts
  | [] => rfl
  | t :: ts => by rw [terms, terms, term_unmarking t, terms_unmarking ts]

end

/-! ### Tables -/

theorem references_marked (n : Nat) (key : ForeignKey) :
    w.unmarking.references n (w.marked key) = w.references n key := by
  simp only [references, unmarking, marked, Bool.false_and, Bool.or_false]
  rfl

theorem condition_unmarking (check : Check) :
    w.unmarking.condition check = w.condition check := by
  rw [condition, condition, term_unmarking]

theorem columnClause_marked (n : Nat) (c : ColumnClause) :
    w.unmarking.columnClause n (c.mapForeignKeys w.marked) = w.columnClause n c := by
  cases c with
  | foreignKey key =>
    refine congrArg (w.write .columnForeignKey) (funext fun layout => ?_)
    cases layout with
    | columnForeignKey => simp only [ColumnClause.mapForeignKeys, references_marked]; rfl
    | _ => rfl
  | defaultValue value =>
    refine congrArg (w.write .defaultValue) (funext fun layout => ?_)
    cases layout with
    | defaultValue => simp only [ColumnClause.mapForeignKeys, term_unmarking]
    | _ => rfl
  | check c =>
    refine congrArg (w.write .columnCheck) (funext fun layout => ?_)
    cases layout with
    | columnCheck => simp only [ColumnClause.mapForeignKeys, condition_unmarking]
    | _ => rfl
  | _ => exact congrArg (w.write _) (funext fun layout => by cases layout <;> rfl)

theorem tableConstraint_marked (n : Nat) (c : TableConstraint) :
    w.unmarking.tableConstraint n (c.mapForeignKeys w.marked) = w.tableConstraint n c := by
  cases c with
  | foreignKey key columns =>
    refine congrArg (w.write .foreignKey) (funext fun layout => ?_)
    cases layout with
    | foreignKey => simp only [TableConstraint.mapForeignKeys, references_marked]; rfl
    | _ => rfl
  | check c =>
    refine congrArg (w.write .check) (funext fun layout => ?_)
    cases layout with
    | check => simp only [TableConstraint.mapForeignKeys, condition_unmarking]
    | _ => rfl
  | _ => exact congrArg (w.write _) (funext fun layout => by cases layout <;> rfl)

/-- Items whose kinds stay the same are sorted alike. -/
theorem sorted_map {α : Type} {kind : α → Kind} {f : α → α} (h : ∀ a, kind (f a) = kind a)
    (items : List α) : w.unmarking.sorted kind (items.map f) = List.map f <$> w.sorted kind items := by
  have hranked : (items.map f).mapM (fun a => return (← w.unmarking.rank (kind a), a)) =
      (items.mapM fun a => return (← w.rank (kind a), a)).map (List.map (Prod.map id f)) := by
    rw [← mapM_map, List.mapM_map]
    refine congrArg (List.mapM · items) (funext fun a => ?_)
    show (return (← w.rank (kind (f a)), f a)) = _
    rw [h]
    cases w.rank (kind a) <;> rfl
  rw [sorted, sorted, hranked]
  cases items.mapM fun a => return (← w.rank (kind a), a) with
  | error e => rfl
  | ok ranked =>
    have hsort : (ranked.mergeSort fun a b => a.1 ≤ b.1).map (Prod.map id f) =
        (ranked.map (Prod.map id f)).mergeSort fun a b => a.1 ≤ b.1 :=
      List.map_mergeSort fun _ _ _ _ => rfl
    refine congrArg Except.ok ?_
    rw [← hsort, List.map_map, List.map_map]
    rfl

theorem columnClauses_marked (n width : Nat) (clauses : List ColumnClause) :
    w.unmarking.columnClauses n width (clauses.map (·.mapForeignKeys w.marked)) =
      w.columnClauses n width clauses := by
  cases clauses with
  | nil => rfl
  | cons first others =>
    rw [List.map_cons, columnClauses, columnClauses, columnClause_marked,
      mapM_comp (w.columnClause_marked _)]

theorem column_marked (n width : Nat) (c : Column) :
    w.unmarking.column n width (c.mapForeignKeys w.marked) = w.column n width c := by
  simp only [column, Column.mapForeignKeys, w.sorted_map (ColumnClause.kind_mapForeignKeys w.marked)]
  simp only [bind_map_left, w.columnClauses_marked]
  rfl

theorem margin_mapForeignKeys (f : ForeignKey → ForeignKey) (n : Nat) (columns : List Column) :
    margin n (columns.map (·.mapForeignKeys f)) = margin n columns := by
  rw [margin, margin, List.map_map]
  rfl

theorem table_marked (n : Nat) (t : Table) :
    w.unmarking.table n (t.mapForeignKeys w.marked) = w.table n t := by
  simp only [table, Table.mapForeignKeys, margin_mapForeignKeys, mapM_comp (w.column_marked _ _),
    mapM_comp (w.tableConstraint_marked _)]
  rfl

/-! ### Changes and scripts -/

theorem addition_marked (n : Nat) (a : Addition) :
    w.unmarking.addition n (a.mapForeignKeys w.marked) = w.addition n a := by
  cases a with
  | column c => exact w.column_marked n 0 c
  | constraint c => exact w.tableConstraint_marked n c
  | storage s => rfl

theorem modify_marked (n : Nat) (columns : List Column) :
    w.unmarking.modify n (columns.map (·.mapForeignKeys w.marked)) = w.modify n columns := by
  simp only [modify, margin_mapForeignKeys, mapM_comp (w.column_marked _ _)]
  rfl

theorem modification_marked (n : Nat) (m : Modification) :
    w.unmarking.modification n (m.mapForeignKeys w.marked) = w.modification n m := by
  cases m with
  | modify columns => exact w.modify_marked n columns
  | _ => rfl

theorem additions_marked (n : Nat) (adds : List Addition) :
    w.unmarking.additions n (adds.map (·.mapForeignKeys w.marked)) = w.additions n adds := by
  rw [additions, additions, mapM_comp (w.addition_marked 0)]

theorem alterTable_marked (n : Nat) (a : AlterTable) :
    w.unmarking.alterTable n (a.mapForeignKeys w.marked) = w.alterTable n a := by
  rw [alterTable, alterTable, a.isEmpty_mapForeignKeys, AlterTable.mapForeignKeys, additions_marked,
    mapM_comp (w.modification_marked _)]
  rfl

theorem insert_unmarking (n : Nat) (i : Insert) : w.unmarking.insert n i = w.insert n i := by
  simp only [insert, terms_unmarking]
  rfl

theorem statement_marked (n : Nat) (s : Statement) :
    w.unmarking.statement n (s.mapForeignKeys w.marked) = w.statement n s := by
  cases s with
  | table t => exact w.table_marked n t
  | alterTable a => exact w.alterTable_marked n a
  | insert i => exact w.insert_unmarking n i
  | _ => rfl

theorem ordered_marked (s : Script) : w.unmarking.ordered (s.mapForeignKeys w.marked) =
    List.map (·.mapForeignKeys w.marked) <$> w.ordered s := by
  rw [ordered, ordered]
  cases hsort : w.options.sort with
  | false => simp only [unmarking, hsort]; rfl
  | true =>
    simp only [unmarking, hsort]
    exact w.sorted_map (Statement.kind_mapForeignKeys w.marked) s.statements

/-- **Foreign keys that are marked in a script are written as those that the writer marks.** -/
theorem script_marked (s : Script) :
    w.unmarking.script (s.mapForeignKeys w.marked) = w.script s := by
  rw [script, script, ordered_marked, bind_map_left]
  simp only [mapM_comp (w.statement_marked 0)]

end Writer

/-! ## The targets -/

theorem Target.writeFor_marked (t : Target) (o : WriteOptions) (s : Script) :
    (s.mapForeignKeys (t.writer o).marked).writeFor t { o with deferrable := false } =
      s.writeFor t o := by
  rw [Script.writeFor, Script.writeFor, ofDialect_eq, ofDialect_eq]
  exact (t.writer o).script_marked s

/-- A foreign key that is deferrable. -/
def ForeignKey.deferred (key : ForeignKey) : ForeignKey := { key with deferrable := true }

/-- A script all of whose foreign keys are deferrable. -/
def Script.deferred (s : Script) : Script := s.mapForeignKeys ForeignKey.deferred

theorem Postgres.writeFor_deferred (sort : Bool) (s : Script) :
    s.deferred.writeFor .postgres ⟨sort, false⟩ = s.writeFor .postgres ⟨sort, true⟩ := by
  have hmarked : (Target.postgres.writer ⟨sort, true⟩).marked = ForeignKey.deferred :=
    funext fun key => congrArg (ForeignKey.mk _ _ _) (Bool.or_true key.deferrable)
  rw [← Target.writeFor_marked _ ⟨sort, true⟩, hmarked, Script.deferred]

theorem Oracle.writeFor_unmarked (sort deferrable : Bool) (s : Script) :
    s.writeFor .oracle ⟨sort, deferrable⟩ = s.writeFor .oracle ⟨sort, false⟩ := by
  -- Neither writer marks a foreign key, so both write what the one that marks none does.
  have hmarked : (Target.oracle.writer ⟨sort, deferrable⟩).marked =
      (Target.oracle.writer ⟨sort, false⟩).marked :=
    funext fun key => congrArg (fun d => ForeignKey.mk _ _ _ (key.deferrable || d))
      (Bool.and_false deferrable)
  have hwritten := Target.oracle.writeFor_marked ⟨sort, deferrable⟩ s
  rw [hmarked] at hwritten
  exact hwritten.symm.trans (Target.oracle.writeFor_marked ⟨sort, false⟩ s)

/-- **The option that makes foreign keys deferrable writes what is written without it for the script
in which every foreign key is deferrable.** The leaves of that script are those of the first, in
order, each foreign key with the mark. For Oracle the option changes nothing. -/
theorem Script.writeFor_deferrable (sort : Bool) (s : Script) :
    s.deferred.leaves = s.leaves.map (·.mapForeignKey ForeignKey.deferred) ∧
    (∃ text, s.writeFor .postgres ⟨sort, true⟩ = .ok text ∧
      s.deferred.writeFor .postgres ⟨sort, false⟩ = .ok text) ∧
    ∃ text, ∀ deferrable, s.writeFor .oracle ⟨sort, deferrable⟩ = .ok text := by
  refine ⟨s.leaves_mapForeignKeys _, ?_, ?_⟩
  · obtain ⟨text, htext⟩ := Target.postgres.exists_writeFor ⟨sort, true⟩ s
    exact ⟨text, htext, (Postgres.writeFor_deferred sort s).trans htext⟩
  · obtain ⟨text, htext⟩ := Target.oracle.exists_writeFor ⟨sort, false⟩ s
    exact ⟨text, fun deferrable => (Oracle.writeFor_unmarked sort deferrable s).trans htext⟩

end SchemaScript
