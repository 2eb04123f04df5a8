import SchemaScript.Proofs.Table.Spelling
import SchemaScript.Script.Convert

/-!
# Completeness of dialects

Whether a dialect can write every script is decided when its writer is made.

* `Kind.layouts` — the layouts that are made for the nodes of a kind.
* `Dialect.Misfit` — an error that can come of a dialect only where it gives a kind the layout of
  another.
* `FailsOnly` — a computation has errors of one class only, with a rule for each way to combine
  computations.
* `Dialect.Complete` — a dialect that treats every kind and orders those that are sorted.
* `Dialect.Complete.node`, `Dialect.Complete.script` — its writer fails on misfits only.
* `Writer.ofDialect_decides` — the writers that are made are those of complete dialects, the first
  gap is told of any other dialect, and what follows for writing.
-/

set_option autoImplicit false

namespace SchemaScript

/-! ## Layouts that fit -/

/-- The layouts that are made for the nodes of a kind. -/
def Kind.layouts : Kind → List Layout
  | .table => [.table]
  | .index => [.index]
  | .sequence => [.sequence]
  | .synonym => [.synonym]
  | .alterTable => [.alterTable]
  | .alterIndex => [.alterIndex]
  | .drop => [.drop, .dropKnown]
  | .tableComment | .columnComment => [.comment]
  | .insert => [.insert]
  | .commit => [.commit]
  | .inclusion => [.atInclusion, .backslashInclusion]
  | .column => [.column]
  | .dataType => [.dataType]
  | .defaultValue => [.defaultValue]
  | .notNull => [.notNull]
  | .columnPrimaryKey => [.columnPrimaryKey]
  | .columnUnique => [.columnUnique]
  | .columnForeignKey => [.columnForeignKey]
  | .columnCheck => [.columnCheck]
  | .primaryKey => [.primaryKey]
  | .unique => [.unique]
  | .foreignKey => [.foreignKey]
  | .check => [.check]
  | .onDeleteCascade | .onDeleteSetNull => [.onDelete]
  | .tablespace => [.tablespace]
  | .indexTablespace => [.indexTablespace]
  | .logging => [.logging]
  | .parallel => [.parallel]
  | .rowMovement => [.rowMovement]
  | .onCommit => [.onCommit]
  | .startWith => [.startWith]
  | .order => [.order]
  | .rename => [.rename]
  | .modify => [.modify]
  | .expression => [.expression]
  | .function => [.call, .sequenceCall]
  | .literal => [.literal]

/-- The error of a layout that a dialect gives to a kind it is not made for. -/
def Dialect.Misfit (d : Dialect) (e : WriteError) : Prop :=
  ∃ kind layout, d.treatment? kind = some (.write layout) ∧ layout ∉ kind.layouts ∧
    e = .mismatch layout.kind kind

/-! ## Classes of errors -/

/-- Whatever error a computation ends in belongs to a class. -/
def FailsOnly {α : Type} (E : WriteError → Prop) (x : Except WriteError α) : Prop :=
  ∀ e, x = .error e → E e

namespace FailsOnly

variable {α β : Type} {E : WriteError → Prop} {x : Except WriteError α}

theorem ok (a : α) : FailsOnly E (.ok a) := by
  intro e h
  cases h

theorem bind {f : α → Except WriteError β} (hx : FailsOnly E x) (hf : ∀ a, FailsOnly E (f a)) :
    FailsOnly E (x >>= f) := by
  intro e h
  cases x with
  | error e' =>
    cases h
    exact hx e rfl
  | ok a => exact hf a e h

/-- Nothing is added to the errors of a computation by what is made of its result. -/
theorem result (hx : FailsOnly E x) (f : α → β) : FailsOnly E (x >>= fun a => pure (f a)) :=
  hx.bind fun a => ok (f a)

theorem map (hx : FailsOnly E x) (f : α → β) : FailsOnly E (x.map f) := by
  intro e h
  cases x with
  | error e' =>
    cases h
    exact hx e rfl
  | ok a => cases h

theorem mapM {f : α → Except WriteError β} (hf : ∀ a, FailsOnly E (f a)) (xs : List α) :
    FailsOnly E (xs.mapM f) := by
  induction xs with
  | nil => exact ok []
  | cons x xs ih =>
    rw [List.mapM_cons]
    exact (hf x).bind fun b => ih.result (b :: ·)

/-- A computation that has no error to fail on succeeds. -/
theorem exists_ok (hx : FailsOnly (fun _ => False) x) : ∃ a, x = .ok a := by
  cases x with
  | error e => exact absurd rfl (hx e)
  | ok a => exact ⟨a, rfl⟩

end FailsOnly

/-! ## Complete dialects -/

/-- A dialect treats every kind, and orders the kinds of statements and of column clauses. -/
structure Dialect.Complete (d : Dialect) : Prop where
  treated : ∀ k ∈ Kind.all, d.treatment? k ≠ none
  ordered : ∀ k ∈ Writer.orderedKinds, k ∈ d.order

theorem Statement.kind_mem (s : Statement) : s.kind ∈ Kind.statements := by
  cases s with
  | comment c => cases c <;> simp [kind, Comment.kind, Kind.statements]
  | _ => simp [kind, Kind.statements]

namespace Dialect.Complete

open Writer (orderedKinds refuse withArguments)

variable {w : Writer} (hw : w.dialect.Complete)

include hw

/-- A node is written without an error of its own if each layout writes it or refuses it, and no
layout made for its kind refuses it. -/
theorem write {kind : Kind} {form : Layout → Written}
    (hform : ∀ layout, FailsOnly w.dialect.Misfit (form layout) ∨
      layout ∉ kind.layouts ∧ form layout = refuse layout kind) :
    FailsOnly w.dialect.Misfit (w.write kind form) := by
  unfold Writer.write
  cases htreat : w.dialect.treatment? kind with
  | none => exact absurd htreat (hw.treated kind (Kind.mem_all kind))
  | some treatment =>
    cases treatment with
    | leaveOut => exact .ok ""
    | write layout =>
      refine FailsOnly.map ?_ w.finish
      rcases hform layout with hfails | ⟨hlayout, hrefuse⟩
      · exact hfails
      · rw [hrefuse]
        intro e he
        cases he
        exact ⟨kind, layout, htreat, hlayout, rfl⟩

/-- The same for a kind that one layout is made for, where all others refuse. -/
theorem write_only {kind : Kind} (only : Layout) {form : Layout → Written}
    (hkind : kind.layouts = [only]) (hform : FailsOnly w.dialect.Misfit (form only))
    (hothers : ∀ layout, layout ≠ only → form layout = refuse layout kind) :
    FailsOnly w.dialect.Misfit (w.write kind form) := by
  refine hw.write fun layout => ?_
  by_cases hlayout : layout = only
  · exact .inl (hlayout ▸ hform)
  · exact .inr ⟨by simpa [hkind] using hlayout, hothers layout hlayout⟩

theorem sorted {α : Type} {kind : α → Kind} (hkind : ∀ a, kind a ∈ orderedKinds) (items : List α) :
    FailsOnly w.dialect.Misfit (w.sorted kind items) := by
  have hranked : ∀ a ∈ items, (w.dialect.rank? (kind a)).isSome := fun a _ =>
    (w.dialect.rank?_isSome _).mpr (hw.ordered _ (hkind a))
  rw [w.sorted_eq kind hranked]
  exact .ok _

/-! ## Values -/

omit hw in
theorem terms_of_term {E : WriteError → Prop} {xs : List Term}
    (h : ∀ x ∈ xs, FailsOnly E (w.term x)) :
    FailsOnly E (w.terms xs) := by
  induction xs with
  | nil => exact .ok []
  | cons x xs ih =>
    have hrest := ih fun y hy => h y (List.mem_cons_of_mem x hy)
    exact (h x List.mem_cons_self).bind fun text => hrest.result (text :: ·)

theorem literal (text : String) : FailsOnly w.dialect.Misfit (w.term (.literal text)) := by
  refine hw.write_only .literal rfl ?_ fun _ _ => by simp
  exact .ok _

theorem call (function : String) {args : List Term}
    (hargs : ∀ x ∈ args, FailsOnly w.dialect.Misfit (w.term x)) :
    FailsOnly w.dialect.Misfit (w.term (.call function args)) := by
  have hcall : FailsOnly w.dialect.Misfit
      (do return withArguments function (← w.terms args)) :=
    (terms_of_term hargs).result (withArguments function)
  rw [Writer.term.eq_def]
  refine hw.write fun layout => ?_
  split
  · exact .inl hcall
  · left
    split
    · split
      · exact .ok _
      · exact (hargs _ List.mem_cons_self).result _
      · exact .ok _
    · exact hcall
  · rename_i hcalls hsequences
    exact .inr ⟨by simp [Kind.layouts]; exact ⟨hcalls, hsequences⟩, rfl⟩

theorem expression {xs : List Term} (hxs : ∀ x ∈ xs, FailsOnly w.dialect.Misfit (w.term x)) :
    FailsOnly w.dialect.Misfit (w.term (.expression xs)) := by
  refine hw.write_only .expression rfl ?_ fun _ _ => by simp
  exact (terms_of_term hxs).result _

omit hw in
mutual

theorem term (hw : w.dialect.Complete) : ∀ x : Term, FailsOnly w.dialect.Misfit (w.term x)
  | .literal text => hw.literal text
  | .call function args => hw.call function (row hw args)
  | .expression xs => hw.expression (row hw xs)

theorem row (hw : w.dialect.Complete) :
    ∀ xs : List Term, ∀ x ∈ xs, FailsOnly w.dialect.Misfit (w.term x)
  | [] => by simp
  | x :: xs => List.forall_mem_cons.mpr ⟨term hw x, row hw xs⟩

end

theorem terms (xs : List Term) : FailsOnly w.dialect.Misfit (w.terms xs) :=
  terms_of_term (hw.row xs)

/-! ## Tables -/

theorem storage (n : Nat) (s : Storage) : FailsOnly w.dialect.Misfit (w.storage n s) := by
  refine hw.write fun layout => ?_
  split
  any_goals exact .inl (.ok _)
  refine .inr ⟨?_, rfl⟩
  cases s with
  | parallel enabled degree =>
    cases enabled <;> cases degree <;> simp_all [Storage.kind, Kind.layouts]
  | _ => simp_all [Storage.kind, Kind.layouts]

theorem storages (n : Nat) (options : List Storage) :
    FailsOnly w.dialect.Misfit (w.storages n options) :=
  (FailsOnly.mapM (hw.storage n) options).result _

theorem onDelete (n : Nat) (rule : OnDelete) : FailsOnly w.dialect.Misfit (w.onDelete n rule) := by
  refine hw.write_only .onDelete (by cases rule <;> rfl) ?_ fun _ _ => by simp
  exact .ok _

theorem references (n : Nat) (key : ForeignKey) :
    FailsOnly w.dialect.Misfit (w.references n key) := by
  unfold Writer.references
  cases key.onDelete with
  | none => exact .ok _
  | some rule => exact (hw.onDelete _ rule).result _

theorem condition (check : Check) : FailsOnly w.dialect.Misfit (w.condition check) :=
  (hw.term _).result _

theorem columnKey (n : Nat) (words : String) (key : Key) :
    FailsOnly w.dialect.Misfit (w.columnKey n words key) :=
  (hw.storages _ key.storage).result _

theorem columnClause (n : Nat) (clause : ColumnClause) :
    FailsOnly w.dialect.Misfit (w.columnClause n clause) := by
  refine hw.write fun layout => ?_
  split
  · exact .inl (.ok _)
  · exact .inl ((hw.term _).result _)
  · exact .inl (.ok _)
  · exact .inl (hw.columnKey n _ _)
  · exact .inl (hw.columnKey n _ _)
  · exact .inl ((hw.references n _).result _)
  · exact .inl ((hw.condition _).result _)
  · refine .inr ⟨?_, rfl⟩
    cases clause <;> simp_all [ColumnClause.kind, Kind.layouts]

theorem tableKey (n : Nat) (words : String) (key : Key) (columns : List String) :
    FailsOnly w.dialect.Misfit (w.tableKey n words key columns) :=
  (FailsOnly.mapM (hw.storage _) key.storage).result _

theorem tableConstraint (n : Nat) (constraint : TableConstraint) :
    FailsOnly w.dialect.Misfit (w.tableConstraint n constraint) := by
  refine hw.write fun layout => ?_
  split
  · exact .inl (hw.tableKey n _ _ _)
  · exact .inl (hw.tableKey n _ _ _)
  · exact .inl ((hw.references n _).result _)
  · exact .inl ((hw.condition _).result _)
  · refine .inr ⟨?_, rfl⟩
    cases constraint <;> simp_all [TableConstraint.kind, Kind.layouts]

theorem columnClauses (n width : Nat) (clauses : List ColumnClause) :
    FailsOnly w.dialect.Misfit (w.columnClauses n width clauses) := by
  cases clauses with
  | nil => exact .ok []
  | cons first others =>
    exact (hw.columnClause n first).bind fun text =>
      (FailsOnly.mapM (hw.columnClause _) others).result _

theorem column (n width : Nat) (c : Column) : FailsOnly w.dialect.Misfit (w.column n width c) := by
  have hordered : ∀ clause : ColumnClause, clause.kind ∈ orderedKinds := fun clause =>
    List.mem_append_right _ clause.kind_mem
  refine hw.write_only .column rfl ?_ fun _ _ => by simp
  exact (hw.sorted hordered c.clauses).bind fun clauses =>
    (hw.columnClauses n width clauses).result _

theorem table (n : Nat) (t : Table) : FailsOnly w.dialect.Misfit (w.table n t) := by
  refine hw.write_only .table rfl ?_ fun _ _ => by simp
  exact (FailsOnly.mapM (hw.column _ _) t.columns).bind fun columns =>
    (FailsOnly.mapM (hw.tableConstraint _) t.constraints).bind fun constraints =>
      (hw.storages n t.storage).result _

/-! ## Statements -/

theorem index (n : Nat) (i : Index) : FailsOnly w.dialect.Misfit (w.index n i) := by
  refine hw.write_only .index rfl ?_ fun _ _ => by simp
  exact (hw.storages _ i.storage).result _

theorem sequenceOption (option : SequenceOption) :
    FailsOnly w.dialect.Misfit (w.sequenceOption option) := by
  refine hw.write fun layout => ?_
  split
  · exact .inl (.ok _)
  · exact .inl (.ok _)
  · refine .inr ⟨?_, rfl⟩
    cases option <;> simp_all [SequenceOption.kind, Kind.layouts]

theorem sequence (s : Sequence) : FailsOnly w.dialect.Misfit (w.sequence s) := by
  refine hw.write_only .sequence rfl ?_ fun _ _ => by simp
  exact (FailsOnly.mapM hw.sequenceOption s.options).result _

theorem synonym (s : Synonym) : FailsOnly w.dialect.Misfit (w.synonym s) := by
  refine hw.write_only .synonym rfl ?_ fun _ _ => by simp
  dsimp only
  split <;> exact .ok _

theorem drop (d : Drop) : FailsOnly w.dialect.Misfit (w.drop d) := by
  refine hw.write fun layout => ?_
  split
  · exact .inl (.ok _)
  · exact .inl (.ok _)
  · rename_i hdrop hknown
    exact .inr ⟨by simp [Kind.layouts]; exact ⟨hdrop, hknown⟩, rfl⟩

theorem rename (r : Rename) : FailsOnly w.dialect.Misfit (w.rename r) := by
  refine hw.write_only .rename rfl ?_ fun _ _ => by simp
  cases r <;> exact .ok _

theorem modify (n : Nat) (columns : List Column) :
    FailsOnly w.dialect.Misfit (w.modify n columns) := by
  refine hw.write_only .modify rfl ?_ fun _ _ => by simp
  exact (FailsOnly.mapM (hw.column _ _) columns).result _

theorem addition (n : Nat) (a : Addition) : FailsOnly w.dialect.Misfit (w.addition n a) := by
  cases a with
  | column c => exact hw.column n 0 c
  | constraint c => exact hw.tableConstraint n c
  | storage s => exact hw.storage n s

theorem modification (n : Nat) (m : Modification) :
    FailsOnly w.dialect.Misfit (w.modification n m) := by
  cases m with
  | rename r => exact hw.rename r
  | modify columns => exact hw.modify n columns
  | storage s => exact hw.storage n s

theorem alterTable (n : Nat) (a : AlterTable) : FailsOnly w.dialect.Misfit (w.alterTable n a) := by
  refine hw.write_only .alterTable rfl ?_ fun _ _ => by simp
  refine ((FailsOnly.mapM (hw.addition 0) a.adds).result _).bind fun adds => ?_
  refine (FailsOnly.mapM (hw.modification _) a.mods).bind fun mods => ?_
  refine (FailsOnly.mapM hw.drop a.drops).bind fun drops => ?_
  dsimp only
  split <;> exact .ok _

theorem alterIndex (n : Nat) (a : AlterIndex) : FailsOnly w.dialect.Misfit (w.alterIndex n a) := by
  refine hw.write_only .alterIndex rfl ?_ fun _ _ => by simp
  refine (hw.storages _ a.storage).bind fun body => ?_
  split <;> exact .ok _

theorem comment (c : Comment) : FailsOnly w.dialect.Misfit (w.comment c) := by
  refine hw.write_only .comment (by cases c <;> rfl) ?_ fun _ _ => by simp
  cases c <;> exact .ok _

theorem insert (n : Nat) (i : Insert) : FailsOnly w.dialect.Misfit (w.insert n i) := by
  refine hw.write_only .insert rfl ?_ fun _ _ => by simp
  exact (hw.terms i.values).result _

theorem commit : FailsOnly w.dialect.Misfit w.commit := by
  refine hw.write_only .commit rfl ?_ fun _ _ => by simp
  exact .ok _

theorem inclusion (path : String) : FailsOnly w.dialect.Misfit (w.inclusion path) := by
  refine hw.write fun layout => ?_
  split
  · exact .inl (.ok _)
  · exact .inl (.ok _)
  · rename_i hat hbackslash
    exact .inr ⟨by simp [Kind.layouts]; exact ⟨hat, hbackslash⟩, rfl⟩

theorem statement (n : Nat) (s : Statement) : FailsOnly w.dialect.Misfit (w.statement n s) := by
  cases s with
  | table t => exact hw.table n t
  | index i => exact hw.index n i
  | sequence s => exact hw.sequence s
  | synonym s => exact hw.synonym s
  | alterTable a => exact hw.alterTable n a
  | alterIndex a => exact hw.alterIndex n a
  | drop d => exact hw.drop d
  | comment c => exact hw.comment c
  | insert i => exact hw.insert n i
  | commit => exact hw.commit
  | inclusion path => exact hw.inclusion path

/-- **A complete writer fails on a node only for a misfit of its dialect.** -/
theorem node (n : Nat) (node : Node) : FailsOnly w.dialect.Misfit (w.node n node) := by
  cases node with
  | statement s => exact hw.statement n s
  | column c width => exact hw.column n width c
  | columnClause c => exact hw.columnClause n c
  | tableConstraint c => exact hw.tableConstraint n c
  | onDelete rule => exact hw.onDelete n rule
  | storage s => exact hw.storage n s
  | sequenceOption o => exact hw.sequenceOption o
  | rename r => exact hw.rename r
  | modify columns => exact hw.modify n columns
  | term t => exact hw.term t

theorem orderedStatements (s : Script) : FailsOnly w.dialect.Misfit (w.ordered s) := by
  unfold Writer.ordered
  split
  · exact hw.sorted (fun st => List.mem_append_left _ st.kind_mem) s.statements
  · exact .ok _

/-- **A complete writer fails on a script only for a misfit of its dialect.** -/
theorem script (s : Script) : FailsOnly w.dialect.Misfit (w.script s) := by
  refine (hw.orderedStatements s).bind fun statements => ?_
  refine (FailsOnly.mapM (hw.statement 0) statements).bind fun texts => ?_
  split <;> exact .ok _

end Dialect.Complete

/-! ## Making a writer -/

/-- The first item of a list that has a property. -/
def IsFirst {α : Type} (P : α → Prop) (xs : List α) (x : α) : Prop :=
  ∃ before after, xs = before ++ x :: after ∧ (∀ y ∈ before, ¬ P y) ∧ P x

theorem find?_eq_some_iff_isFirst {α : Type} {p : α → Bool} {P : α → Prop} (hp : ∀ x, p x ↔ P x)
    {xs : List α} {x : α} : xs.find? p = some x ↔ IsFirst P xs x := by
  rw [List.find?_eq_some_iff_append]
  constructor
  · rintro ⟨hx, before, after, rfl, hbefore⟩
    exact ⟨before, after, rfl, fun y hy => by simpa [← hp] using hbefore y hy, (hp x).mp hx⟩
  · rintro ⟨before, after, rfl, hbefore, hx⟩
    exact ⟨(hp x).mpr hx, before, after, rfl, fun y hy => by simpa [← hp] using hbefore y hy⟩

theorem find?_eq_none_iff {α : Type} {p : α → Bool} {P : α → Prop} (hp : ∀ x, p x ↔ P x)
    {xs : List α} : xs.find? p = none ↔ ∀ x ∈ xs, ¬ P x := by
  simp [List.find?_eq_none, ← hp]

theorem exists_isFirst_or {α : Type} (P : α → Prop) [DecidablePred P] (xs : List α) :
    (∃ x, IsFirst P xs x) ∨ ∀ x ∈ xs, ¬ P x := by
  cases hfind : xs.find? (fun x => decide (P x)) with
  | some x => exact .inl ⟨x, (find?_eq_some_iff_isFirst fun _ => decide_eq_true_iff).mp hfind⟩
  | none => exact .inr ((find?_eq_none_iff fun _ => decide_eq_true_iff).mp hfind)

namespace Dialect

theorem untreated_isNone (d : Dialect) (k : Kind) :
    (d.treatment? k).isNone ↔ d.treatment? k = none :=
  Option.isNone_iff_eq_none

theorem unordered_isNone (d : Dialect) (k : Kind) : (d.rank? k).isNone ↔ k ∉ d.order := by
  rw [← rank?_isSome, Bool.not_eq_true, Option.isSome_eq_false_iff]

end Dialect

namespace Writer

variable {d : Dialect} {o : WriteOptions}

theorem ofDialect_untreated {k : Kind} (hk : IsFirst (d.treatment? · = none) Kind.all k) :
    ofDialect d o = .error (.untreated d.name k) := by
  rw [ofDialect, (find?_eq_some_iff_isFirst d.untreated_isNone).mpr hk]

theorem ofDialect_unordered {k : Kind} (htreated : ∀ k ∈ Kind.all, d.treatment? k ≠ none)
    (hk : IsFirst (· ∉ d.order) orderedKinds k) : ofDialect d o = .error (.unordered k) := by
  rw [ofDialect, (find?_eq_none_iff d.untreated_isNone).mpr htreated]
  dsimp only
  rw [(find?_eq_some_iff_isFirst d.unordered_isNone).mpr hk]

theorem ofDialect_complete (hd : d.Complete) :
    ofDialect d o = .ok { dialect := d, options := o } := by
  rw [ofDialect, (find?_eq_none_iff d.untreated_isNone).mpr hd.treated]
  dsimp only
  rw [(find?_eq_none_iff d.unordered_isNone).mpr fun k hk => not_not_intro (hd.ordered k hk)]

/-- A dialect is complete, or it has a first gap. -/
theorem complete_or (d : Dialect) :
    d.Complete ∨ (∃ k, IsFirst (d.treatment? · = none) Kind.all k) ∨
      (∀ k ∈ Kind.all, d.treatment? k ≠ none) ∧ ∃ k, IsFirst (· ∉ d.order) orderedKinds k := by
  rcases exists_isFirst_or (d.treatment? · = none) Kind.all with hgap | htreated
  · exact .inr (.inl hgap)
  · rcases exists_isFirst_or (· ∉ d.order) orderedKinds with hgap | hordered
    · exact .inr (.inr ⟨htreated, hgap⟩)
    · exact .inl ⟨htreated, fun k hk => Decidable.not_not.mp (hordered k hk)⟩

end Writer

/-- The dialects of the targets give every kind a layout that is made for it. -/
theorem Target.not_misfit (t : Target) (e : WriteError) : ¬ t.dialect.Misfit e := by
  rintro ⟨kind, layout, htreat, hlayout, -⟩
  cases t <;> cases kind <;> cases htreat <;> exact hlayout (by decide)

theorem Target.complete (t : Target) : t.dialect.Complete := by
  cases t <;> exact ⟨by decide, by decide⟩

/-- The writers that are made are those of complete dialects. -/
theorem Writer.ofDialect_eq_ok {d : Dialect} {o : WriteOptions} {w : Writer} :
    Writer.ofDialect d o = .ok w ↔ d.Complete ∧ w = { dialect := d, options := o } := by
  constructor
  · intro hw
    rcases complete_or d with hd | ⟨k, hk⟩ | ⟨htreated, k, hk⟩
    · rw [ofDialect_complete hd] at hw
      cases hw
      exact ⟨hd, rfl⟩
    · rw [ofDialect_untreated hk] at hw
      cases hw
    · rw [ofDialect_unordered htreated hk] at hw
      cases hw
  · rintro ⟨hd, rfl⟩
    exact ofDialect_complete hd

/-- Of any other dialect the first gap is told. -/
theorem Writer.ofDialect_eq_error {d : Dialect} {o : WriteOptions} {e : WriteError} :
    Writer.ofDialect d o = .error e ↔
      (∃ k, IsFirst (d.treatment? · = none) Kind.all k ∧ e = .untreated d.name k) ∨
      (∀ k ∈ Kind.all, d.treatment? k ≠ none) ∧
        ∃ k, IsFirst (· ∉ d.order) (Kind.statements ++ Kind.columnClauses) k ∧
          e = .unordered k := by
  constructor
  · intro he
    rcases complete_or d with hd | ⟨k, hk⟩ | ⟨htreated, k, hk⟩
    · rw [ofDialect_complete hd] at he
      cases he
    · rw [ofDialect_untreated hk] at he
      cases he
      exact .inl ⟨k, hk, rfl⟩
    · rw [ofDialect_unordered htreated hk] at he
      cases he
      exact .inr ⟨htreated, k, hk, rfl⟩
  · rintro (⟨k, hk, rfl⟩ | ⟨htreated, k, hk, rfl⟩)
    · exact ofDialect_untreated hk
    · exact ofDialect_unordered htreated hk

/-- The targets write every script. -/
theorem Target.exists_writeFor (t : Target) (o : WriteOptions) (s : Script) :
    ∃ text, s.writeFor t o = .ok text := by
  have hscript : FailsOnly (fun _ => False) ((t.writer o).script s) := fun e he =>
    t.not_misfit e (Dialect.Complete.script t.complete s e he)
  obtain ⟨text, htext⟩ := hscript.exists_ok
  rw [Script.writeFor, Target.ofDialect_eq]
  exact ⟨text, htext⟩

/-- **Completeness is decided when a writer is made.** A dialect has a writer if and only if it
treats every kind and orders every kind of statement and of column clause. Otherwise its first gap
is told: the first kind without a treatment or, if there is none, the first without a place in the
order. A writer that was made fails on a node or a script only where the dialect gives a kind a
layout that is not made for it. The targets have no such layout, so they write every script. -/
theorem Writer.ofDialect_decides (d : Dialect) (o : WriteOptions) :
    (∀ w, Writer.ofDialect d o = .ok w ↔ d.Complete ∧ w = { dialect := d, options := o }) ∧
    (∀ e, Writer.ofDialect d o = .error e ↔
      (∃ k, IsFirst (d.treatment? · = none) Kind.all k ∧ e = .untreated d.name k) ∨
      (∀ k ∈ Kind.all, d.treatment? k ≠ none) ∧
        ∃ k, IsFirst (· ∉ d.order) (Kind.statements ++ Kind.columnClauses) k ∧ e = .unordered k) ∧
    (∀ w, Writer.ofDialect d o = .ok w →
      (∀ n node e, w.node n node = .error e → d.Misfit e) ∧
        ∀ s e, w.script s = .error e → d.Misfit e) ∧
    ∀ (t : Target) (s : Script), ∃ text, s.writeFor t o = .ok text := by
  refine ⟨fun _ => ofDialect_eq_ok, fun _ => ofDialect_eq_error, ?_, ?_⟩
  · intro w hw
    obtain ⟨hd, rfl⟩ := ofDialect_eq_ok.mp hw
    exact ⟨fun n node => Dialect.Complete.node hd n node, fun s => Dialect.Complete.script hd s⟩
  · intro t s
    exact t.exists_writeFor o s

/-- The writer of a dialect that lays commits out as tables is made, and refuses a commit. -/
theorem Writer.ofDialect_decides_commit :
    let d := Dialect.oracle.assign .commit (.write .table)
    Writer.ofDialect d {} = .ok { dialect := d } ∧
      ({ dialect := d } : Writer).script ⟨[.commit]⟩ = .error (.mismatch .table .commit) ∧
      d.Misfit (.mismatch .table .commit) := by
  intro d
  have hmade : Writer.ofDialect d {} = .ok { dialect := d } := rfl
  have hscript : ({ dialect := d } : Writer).script ⟨[.commit]⟩ =
      .error (.mismatch .table .commit) := rfl
  have hmisfit := ((Writer.ofDialect_decides d {}).2.2.1 _ hmade).2 ⟨[.commit]⟩ _ hscript
  exact ⟨hmade, hscript, hmisfit⟩

end SchemaScript
