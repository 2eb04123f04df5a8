import SchemaScript.Revision.Level
import SchemaScript.Proofs.Revision.Catalog
import SchemaScript.Proofs.Revision.Folding

/-!
# What the folding of changes comes to

The changes to a table, wherever they stand, go in their order to the last table of the name. This
says so without positions and without a catalog.

* `Table.extended` — a table with what several changes add to it.
* `AlterTable.left?` — what is left of a change.
* `Statement.folded?`, `Statement.foldNote?` — what becomes of a statement of a script, and what is
  noted of it.
* `Script.foldAlterations_eq`, `Script.revise_basic` — the folding of a script.
-/

set_option autoImplicit false

namespace SchemaScript

/-! ## Changes and what they leave -/

namespace Addition

/-- The column that is added. -/
def column? : Addition → Option Column
  | .column c => some c
  | _ => none

/-- The constraint that is added. -/
def constraint? : Addition → Option TableConstraint
  | .constraint c => some c
  | _ => none

/-- The storage option that is added. -/
def storage? : Addition → Option Storage
  | .storage s => some s
  | _ => none

variable {x : Addition}

theorem column?_eq_some {c : Column} : x.column? = some c ↔ x = .column c := by
  cases x <;> simp [column?]

theorem constraint?_eq_some {c : TableConstraint} : x.constraint? = some c ↔ x = .constraint c := by
  cases x <;> simp [constraint?]

theorem storage?_eq_some {s : Storage} : x.storage? = some s ↔ x = .storage s := by
  cases x <;> simp [storage?]

end Addition

namespace Modification

/-- The storage option that a modification sets. A new name and a column defined anew set none. -/
def option? : Modification → Option Storage
  | .rename _ => none
  | .modify _ => none
  | .storage s => some s

theorem storage?_eq_option? : storage? = option? := by
  funext m
  cases m <;> rfl

end Modification

namespace Statement

/-- The change to a table that a statement is. -/
def alterTable? : Statement → Option AlterTable
  | .alterTable a => some a
  | _ => none

/-- The change to an index that a statement is. -/
def alterIndex? : Statement → Option AlterIndex
  | .alterIndex a => some a
  | _ => none

variable {st : Statement}

theorem alterTable?_eq_some {a : AlterTable} : st.alterTable? = some a ↔ st = .alterTable a := by
  cases st <;> simp [alterTable?]

theorem alterIndex?_eq_some {a : AlterIndex} : st.alterIndex? = some a ↔ st = .alterIndex a := by
  cases st <;> simp [alterIndex?]

end Statement

/-- What is left of a change whose additions and storage options are folded into its table: its new
names, its columns defined anew and its drops, if there are any. -/
def AlterTable.left? (a : AlterTable) : Option AlterTable :=
  let mods := a.mods.filter fun m => m.option?.isNone
  if mods = [] ∧ a.drops = [] then none else some { table := a.table, mods, drops := a.drops }

/-- A table with what several changes add to it: their columns, which then belong to it, their
constraints, and the storage options that each adds and then sets. -/
def Table.extended (t : Table) (changes : List AlterTable) : Table :=
  { t with
    columns := t.columns ++ changes.flatMap fun a =>
      (a.adds.filterMap Addition.column?).map ({ · with table := t.name })
    constraints := t.constraints ++ changes.flatMap fun a => a.adds.filterMap Addition.constraint?
    storage := t.storage ++ changes.flatMap fun a =>
      a.adds.filterMap Addition.storage? ++ a.mods.filterMap Modification.option? }

/-- An index with the storage options of several changes. -/
def Index.extended (i : Index) (changes : List AlterIndex) : Index :=
  { i with storage := i.storage ++ changes.flatMap AlterIndex.storage }

namespace Table

theorem foldl_add (adds : List Addition) (t : Table) : adds.foldl add t =
    { t with
      columns := t.columns ++ (adds.filterMap Addition.column?).map ({ · with table := t.name })
      constraints := t.constraints ++ adds.filterMap Addition.constraint?
      storage := t.storage ++ adds.filterMap Addition.storage? } := by
  induction adds generalizing t with
  | nil => simp
  | cons addition adds ih =>
    rw [List.foldl_cons, ih]
    cases addition <;>
      simp [add, addColumn, addConstraint, addStorage, List.filterMap_cons, Addition.column?,
        Addition.constraint?, Addition.storage?]

@[simp] theorem extended_nil (t : Table) : t.extended [] = t := by simp [extended]

theorem absorb_eq (t : Table) (a : AlterTable) : t.absorb a = (t.extended [a], a.left?) := by
  unfold absorb extended AlterTable.left?
  rw [foldl_add, Modification.storage?_eq_option?]
  simp [addStorage, AlterTable.isEmpty, AlterTable.size]

theorem extended_append (t : Table) (xs ys : List AlterTable) :
    t.extended (xs ++ ys) = (t.extended xs).extended ys := by
  simp [extended]

variable {t : Table} {changes : List AlterTable}

theorem mem_columns_extended {c : Column} (h : c ∈ (t.extended changes).columns) :
    c ∈ t.columns ∨
      ∃ a ∈ changes, ∃ c', .column c' ∈ a.adds ∧ c = { c' with table := t.name } := by
  refine (List.mem_append.mp h).imp_right fun h => ?_
  obtain ⟨a, ha, hc⟩ := List.mem_flatMap.mp h
  obtain ⟨c', hc', rfl⟩ := List.mem_map.mp hc
  obtain ⟨x, hx, hget⟩ := List.mem_filterMap.mp hc'
  obtain rfl := Addition.column?_eq_some.mp hget
  exact ⟨a, ha, c', hx, rfl⟩

theorem mem_constraints_extended {c : TableConstraint} (h : c ∈ (t.extended changes).constraints) :
    c ∈ t.constraints ∨ ∃ a ∈ changes, .constraint c ∈ a.adds := by
  refine (List.mem_append.mp h).imp_right fun h => ?_
  obtain ⟨a, ha, hc⟩ := List.mem_flatMap.mp h
  obtain ⟨x, hx, hget⟩ := List.mem_filterMap.mp hc
  obtain rfl := Addition.constraint?_eq_some.mp hget
  exact ⟨a, ha, hx⟩

theorem mem_storage_extended {s : Storage} (h : s ∈ (t.extended changes).storage) :
    s ∈ t.storage ∨
      ∃ a ∈ changes, .storage s ∈ a.adds ∨ s ∈ a.mods.filterMap Modification.option? := by
  refine (List.mem_append.mp h).imp_right fun h => ?_
  obtain ⟨a, ha, hs⟩ := List.mem_flatMap.mp h
  refine ⟨a, ha, (List.mem_append.mp hs).imp_left fun hs => ?_⟩
  obtain ⟨x, hx, hget⟩ := List.mem_filterMap.mp hs
  exact Addition.storage?_eq_some.mp hget ▸ hx

end Table

@[simp] theorem Index.extended_nil (i : Index) : i.extended [] = i := by simp [extended]

theorem Index.extended_append (i : Index) (xs ys : List AlterIndex) :
    i.extended (xs ++ ys) = (i.extended xs).extended ys := by
  simp [extended]

theorem Index.mem_storage_extended {i : Index} {changes : List AlterIndex} {s : Storage}
    (h : s ∈ (i.extended changes).storage) : s ∈ i.storage ∨ ∃ a ∈ changes, s ∈ a.storage :=
  (List.mem_append.mp h).imp_right List.mem_flatMap.mp

/-! ## What becomes of a statement -/

namespace Script

/-- The changes that a script makes to the table of a name, in order. -/
def changesToTable (s : Script) (name : String) : List AlterTable :=
  (s.statements.filterMap Statement.alterTable?).filter fun a => Text.sameName a.table name

/-- The changes that a script makes to the index of a name, in order. -/
def changesToIndex (s : Script) (name : String) : List AlterIndex :=
  (s.statements.filterMap Statement.alterIndex?).filter fun a => Text.sameName a.index name

theorem mem_changesToTable {s : Script} {name : String} {a : AlterTable} :
    a ∈ s.changesToTable name ↔
      .alterTable a ∈ s.statements ∧ Text.lower a.table = Text.lower name := by
  simp [changesToTable, Statement.alterTable?_eq_some, Text.sameName]

theorem mem_changesToIndex {s : Script} {name : String} {a : AlterIndex} :
    a ∈ s.changesToIndex name ↔
      .alterIndex a ∈ s.statements ∧ Text.lower a.index = Text.lower name := by
  simp [changesToIndex, Statement.alterIndex?_eq_some, Text.sameName]

end Script

/-- What becomes of a statement of a script, given the statements behind it, when the changes of the
script are folded. The last table and the last index of a name take up the changes to the name. -/
def Statement.folded? (s : Script) (later : List Statement) : Statement → Option Statement
  | .table t =>
    some (.table (if creates tableName? t.name later then t else t.extended (s.changesToTable t.name)))
  | .index i =>
    some (.index (if creates indexName? i.name later then i else i.extended (s.changesToIndex i.name)))
  | .alterTable a =>
    if creates tableName? a.table s.statements then a.left?.map .alterTable else some (.alterTable a)
  | .alterIndex a =>
    if creates indexName? a.index s.statements then none else some (.alterIndex a)
  | st => some st

/-- What is noted of a statement of a script when the changes of the script are folded. -/
def Statement.foldNote? (s : Script) : Statement → Option Warning
  | .alterTable a => (s.lastTable? a.table).map fun t => ⟨.alterTablePromoted, [t.name]⟩
  | .alterIndex a => (s.lastIndex? a.index).map fun i => ⟨.alterIndexPromoted, [i.name]⟩
  | _ => none

/-! ## The folding of a script -/

namespace Script

/-- The folding of changes into the tables and indexes of a script. -/
def alterations (s : Script) : Folding where
  target?
    | .alterTable a => s.catalog.table? a.table
    | .alterIndex a => s.catalog.index? a.index
    | _ => none
  into r x :=
    match r with
    | .table t => .table (t.extended x.alterTable?.toList)
    | .index i => .index (i.extended x.alterIndex?.toList)
    | r => r
  rest?
    | .alterTable a => a.left?.map .alterTable
    | _ => none
  note? r
    | .alterTable _ => r.table?.map fun t => ⟨.alterTablePromoted, [t.name]⟩
    | .alterIndex _ => r.index?.map fun i => ⟨.alterIndexPromoted, [i.name]⟩
    | _ => none

variable (s : Script)

@[simp] theorem target?_alterTable (a : AlterTable) :
    s.alterations.target? (.alterTable a) = s.catalog.table? a.table := rfl

@[simp] theorem target?_alterIndex (a : AlterIndex) :
    s.alterations.target? (.alterIndex a) = s.catalog.index? a.index := rfl

theorem sound_alterations : s.alterations.Sound s.statements where
  stays {st q} h := by
    cases st <;> simp only [alterations, reduceCtorEq] at h
    · obtain ⟨t, ht, -, -⟩ := catalog_table?.mp h
      exact ⟨_, ht, rfl⟩
    · obtain ⟨i, hi, -, -⟩ := catalog_index?.mp h
      exact ⟨_, hi, rfl⟩
  note_into r x st := by
    cases r <;> cases st <;> rfl

theorem foldl_into_table (xs : List Statement) (t : Table) : xs.foldl s.alterations.into (.table t) =
    .table (t.extended (xs.filterMap Statement.alterTable?)) :=
  Folding.foldl_into Table.extended_nil Table.extended_append (fun _ _ => rfl) xs t

theorem foldl_into_index (xs : List Statement) (i : Index) : xs.foldl s.alterations.into (.index i) =
    .index (i.extended (xs.filterMap Statement.alterIndex?)) :=
  Folding.foldl_into Index.extended_nil Index.extended_append (fun _ _ => rfl) xs i

theorem slots_self {k : Nat} {st : Statement} (hst : s.statements[k]? = some st)
    (h : st.isOther = true) : (s.alterations.slots s.statements k)[k]? = some (some st) := by
  rw [Folding.getElem?_slots, hst, Option.map_some, Folding.slotAt]
  cases s.alterations.target? st with
  | none =>
    -- only tables and indexes take anything up
    have hself : ∀ x, s.alterations.into st x = st := by
      intro x
      cases st <;> first | rfl | cases h
    rw [Folding.foldl_into_self hself]
  | some q => rw [if_neg (Nat.lt_irrefl k)]

theorem slots_table {p : Nat} {t : Table} (ht : s.statements[p]? = some (.table t)) (k : Nat) :
    (s.alterations.slots s.statements k)[p]? = some (some (.table (t.extended
      ((s.alterations.folded p (s.statements.take k)).filterMap Statement.alterTable?)))) := by
  rw [Folding.getElem?_slots, ht, ← foldl_into_table]
  rfl

theorem slots_index {p : Nat} {i : Index} (hi : s.statements[p]? = some (.index i)) (k : Nat) :
    (s.alterations.slots s.statements k)[p]? = some (some (.index (i.extended
      ((s.alterations.folded p (s.statements.take k)).filterMap Statement.alterIndex?)))) := by
  rw [Folding.getElem?_slots, hi, ← foldl_into_index]
  rfl

theorem foldAt_slots {k : Nat} {st : Statement} (hst : s.statements[k]? = some st)
    (h : st.isOther = true) : Slots.foldAt s.catalog (s.alterations.slots s.statements k) k =
      s.alterations.step (s.alterations.slots s.statements k) k st := by
  rw [Slots.foldAt, slots_self s hst h]
  cases st with
  | alterTable a =>
    rw [Folding.step, target?_alterTable]
    cases hq : s.catalog.table? a.table with
    | none => simp [Slots.foldTable, hq]
    | some q =>
      obtain ⟨t, ht, -, -⟩ := catalog_table?.mp hq
      simp only [Slots.foldTable, Slots.table?, hq, slots_table s ht, Table.absorb_eq]
      rfl
  | alterIndex a =>
    rw [Folding.step, target?_alterIndex]
    cases hq : s.catalog.index? a.index with
    | none => simp [Slots.foldIndex, hq]
    | some q =>
      obtain ⟨i, hi, -, -⟩ := catalog_index?.mp hq
      simp only [Slots.foldIndex, Slots.index?, hq, slots_index s hi]
      simp [alterations, Index.extended, Statement.alterIndex?, Statement.index?]
  | _ => rfl

/-- The last table of a name takes up the changes to the name, and an earlier one none. -/
theorem filterMap_folded_table {p : Nat} {t : Table} (ht : s.statements[p]? = some (.table t)) :
    (s.alterations.folded p s.statements).filterMap Statement.alterTable? =
      if creates Statement.tableName? t.name (s.statements.drop (p + 1)) then []
      else s.changesToTable t.name := by
  have hat (a : AlterTable) : (s.catalog.table? a.table == some p) =
      (Text.sameName a.table t.name &&
        !creates Statement.tableName? t.name (s.statements.drop (p + 1))) := by
    rw [Bool.eq_iff_iff, beq_iff_eq, catalog_table?_eq_at ht]
    simp [Text.sameName]
  rw [Folding.filterMap_folded (fun _ _ => Statement.alterTable?_eq_some.mp), changesToTable]
  simp only [target?_alterTable, hat]
  cases creates Statement.tableName? t.name (s.statements.drop (p + 1)) <;> simp

/-- The last index of a name takes up the changes to the name, and an earlier one none. -/
theorem filterMap_folded_index {p : Nat} {i : Index} (hi : s.statements[p]? = some (.index i)) :
    (s.alterations.folded p s.statements).filterMap Statement.alterIndex? =
      if creates Statement.indexName? i.name (s.statements.drop (p + 1)) then []
      else s.changesToIndex i.name := by
  have hat (a : AlterIndex) : (s.catalog.index? a.index == some p) =
      (Text.sameName a.index i.name &&
        !creates Statement.indexName? i.name (s.statements.drop (p + 1))) := by
    rw [Bool.eq_iff_iff, beq_iff_eq, catalog_index?_eq_at hi]
    simp [Text.sameName]
  rw [Folding.filterMap_folded (fun _ _ => Statement.alterIndex?_eq_some.mp), changesToIndex]
  simp only [target?_alterIndex, hat]
  cases creates Statement.indexName? i.name (s.statements.drop (p + 1)) <;> simp

/-- What stands at a position at last, where a statement stood. -/
theorem slotAt_alterations {p : Nat} {st : Statement} (hst : s.statements[p]? = some st) :
    s.alterations.slotAt s.statements s.statements.length p st =
      st.folded? s (s.statements.drop (p + 1)) := by
  have hp : p < s.statements.length := (List.getElem?_eq_some_iff.mp hst).1
  have hnone : s.alterations.target? st = none →
      s.alterations.slotAt s.statements s.statements.length p st =
        some ((s.alterations.folded p s.statements).foldl s.alterations.into st) := by
    intro h
    rw [Folding.slotAt, h, List.take_length]
  cases st with
  | table t =>
    rw [hnone rfl, foldl_into_table, filterMap_folded_table s hst, Statement.folded?]
    split <;> simp
  | index i =>
    rw [hnone rfl, foldl_into_index, filterMap_folded_index s hst, Statement.folded?]
    split <;> simp
  | alterTable a =>
    cases hq : s.catalog.table? a.table with
    | none =>
      rw [hnone hq, Folding.foldl_into_self (fun _ => rfl), Statement.folded?,
        catalog_table?_eq_none.mp hq]
      rfl
    | some q =>
      have hcreates : creates Statement.tableName? a.table s.statements = true := by
        rw [← Bool.not_eq_false, ← catalog_table?_eq_none, hq]
        simp
      rw [Folding.slotAt, target?_alterTable, hq, Statement.folded?, hcreates]
      simp [hp, alterations]
  | alterIndex a =>
    cases hq : s.catalog.index? a.index with
    | none =>
      rw [hnone hq, Folding.foldl_into_self (fun _ => rfl), Statement.folded?,
        catalog_index?_eq_none.mp hq]
      rfl
    | some q =>
      have hcreates : creates Statement.indexName? a.index s.statements = true := by
        rw [← Bool.not_eq_false, ← catalog_index?_eq_none, hq]
        simp
      rw [Folding.slotAt, target?_alterIndex, hq, Statement.folded?, hcreates]
      simp [hp, alterations]
  | _ =>
    rw [hnone rfl, Folding.foldl_into_self (fun _ => rfl)]
    rfl

theorem noteOf_alterations : s.alterations.noteOf s.statements = Statement.foldNote? s := by
  funext st
  cases st with
  | alterTable a =>
    rw [Statement.foldNote?, lastTable?_eq, Folding.noteOf, target?_alterTable]
    cases s.catalog.table? a.table with
    | none => rfl
    | some q => cases h : s.statements[q]? <;> simp [h, alterations]
  | alterIndex a =>
    rw [Statement.foldNote?, lastIndex?_eq, Folding.noteOf, target?_alterIndex]
    cases s.catalog.index? a.index with
    | none => rfl
    | some q => cases h : s.statements[q]? <;> simp [h, alterations]
  | _ => rfl

theorem toScript_alterations :
    (s.alterations.slots s.statements s.statements.length).toScript =
      ⟨revised (Statement.folded? s) s.statements⟩ := by
  unfold Slots.toScript Folding.slots
  rw [filterMap_mapIdx fun p st hst => slotAt_alterations s hst]

theorem foldlM_foldAt : s.catalog.others.foldlM (Slots.foldAt s.catalog) s.slots =
    ⟨s.alterations.slots s.statements s.statements.length,
     s.statements.filterMap (Statement.foldNote? s)⟩ := by
  rw [catalog_others, slots, ← noteOf_alterations]
  apply Folding.run_slots s.sound_alterations
  · intro k st hst hkeep
    exact foldAt_slots s hst (by simpa [hst] using hkeep)
  · intro k st hst hskip
    rw [hst] at hskip
    cases st <;> first | rfl | cases hskip

/-- Folding the changes of a script comes to what it comes to statement by statement. -/
theorem foldAlterations_eq : s.foldAlterations =
    ⟨⟨revised (Statement.folded? s) s.statements⟩, s.statements.filterMap (Statement.foldNote? s)⟩ := by
  rw [foldAlterations, foldlM_foldAt]
  simp [bind, pure, toScript_alterations]

/-- What is known of the statements of a folded script: it was known of the statements before, or it
comes of the changes that a table or an index has taken up, or of a change that is left. -/
theorem foldAlterations_keeps {P Q : Statement → Prop} (h : ∀ st ∈ s.statements, P st)
    (hkeep : ∀ st, P st → Q st)
    (htable : ∀ t changes, P (.table t) → (∀ a ∈ changes, P (.alterTable a)) →
      Q (.table (t.extended changes)))
    (hindex : ∀ i changes, P (.index i) → (∀ a ∈ changes, P (.alterIndex a)) →
      Q (.index (i.extended changes)))
    (hleft : ∀ a b, P (.alterTable a) → a.left? = some b → Q (.alterTable b)) :
    ∀ st ∈ s.foldAlterations.value.statements, Q st := by
  intro st hst
  rw [foldAlterations_eq] at hst
  obtain ⟨later, x, hx, hfolded⟩ := exists_of_mem_revised hst
  have hxs := h x hx
  cases x with
  | table t =>
    cases hfolded
    split
    · exact hkeep _ hxs
    · exact htable _ _ hxs fun a ha => h _ (mem_changesToTable.mp ha).1
  | index i =>
    cases hfolded
    split
    · exact hkeep _ hxs
    · exact hindex _ _ hxs fun a ha => h _ (mem_changesToIndex.mp ha).1
  | alterTable a =>
    simp only [Statement.folded?] at hfolded
    split at hfolded
    · obtain ⟨b, hb, rfl⟩ := Option.map_eq_some_iff.mp hfolded
      exact hleft a b hxs hb
    · cases hfolded
      exact hkeep _ hxs
  | alterIndex a =>
    simp only [Statement.folded?] at hfolded
    split at hfolded
    · cases hfolded
    · cases hfolded
      exact hkeep _ hxs
  | _ =>
    cases hfolded
    exact hkeep _ hxs

/-- **A revision that only folds changes gives the last table and the last index of each name all
changes to the name, in their order, leaves of each such change what cannot be folded, and keeps
everything else. It notes each such change once, in order.** -/
theorem revise_basic : s.revise .basic =
    ⟨⟨revised (Statement.folded? s) s.statements⟩, s.statements.filterMap (Statement.foldNote? s)⟩ :=
  s.foldAlterations_eq

end Script

end SchemaScript
