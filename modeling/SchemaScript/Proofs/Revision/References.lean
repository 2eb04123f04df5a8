import SchemaScript.Proofs.Revision.Preservation

/-!
# Foreign keys and the tables that they point at

A foreign key can be made once the table that it points at is there. Folding takes the foreign keys
that a change adds to the place where the table of the change is created, so that they may then
stand before the tables that they point at.

* `Statement.references` — the foreign keys of a statement: the table that each is of, and the table
  that it points at.
* `Script.RefersBack` — every foreign key of a script points at its own table or at one created
  before.
* `Script.AddsBack` — so does every foreign key that a change adds, when seen from where its table
  is created.
* `Script.refersBack_revised` — when a revised list refers back, in terms of the list.
* `Script.refersBack_revise_iff` — a revision of a script that refers back does so just if the
  changes of the script add back. -/

set_option autoImplicit false

namespace SchemaScript

/-! ## Foreign keys of statements -/

namespace Aspect

variable {α : Type} (r : Aspect α)

/-- What is read off an addition to a table. -/
def ofAddition : Addition → List α
  | .column c => r.ofColumns [c]
  | .constraint c => r.ofConstraint c
  | .storage _ => []

variable {r} {t : Table} {x : α}

theorem mem_ofTable_add {addition : Addition} : x ∈ r.ofTable (t.add addition) ↔
    x ∈ r.ofTable t ∨ x ∈ r.ofAddition addition := by
  cases addition with
  | column c => simp [Table.add, Table.addColumn, ofTable, ofColumns, ofAddition, or_assoc]
  | constraint c =>
    simp [Table.add, Table.addConstraint, ofTable, ofAddition, or_assoc, or_comm, or_left_comm]
  | storage o => simp [Table.add, Table.addStorage, ofTable, ofAddition]

theorem mem_ofTable_foldl_add {adds : List Addition} : x ∈ r.ofTable (adds.foldl Table.add t) ↔
    x ∈ r.ofTable t ∨ x ∈ adds.flatMap r.ofAddition := by
  induction adds generalizing t with
  | nil => simp
  | cons addition adds ih =>
    rw [List.foldl_cons, ih, mem_ofTable_add, List.flatMap_cons, List.mem_append, or_assoc]

/-- What is read off a table that has taken up changes is read off the table or off an addition. -/
theorem mem_ofTable_extended {changes : List AlterTable} : x ∈ r.ofTable (t.extended changes) ↔
    x ∈ r.ofTable t ∨ ∃ a ∈ changes, x ∈ a.adds.flatMap r.ofAddition := by
  induction changes generalizing t with
  | nil => simp
  | cons a changes ih =>
    have hone : t.extended [a] = (t.absorb a).1 := by rw [Table.absorb_eq]
    have hadds : x ∈ r.ofTable (t.extended [a]) ↔
        x ∈ r.ofTable t ∨ x ∈ a.adds.flatMap r.ofAddition := by
      rw [hone]
      exact mem_ofTable_foldl_add
    rw [← List.singleton_append, Table.extended_append, ih, hadds, or_assoc, List.singleton_append]
    simp only [List.mem_cons, exists_eq_or_imp]

end Aspect

/-- The tables that the foreign keys of a table point at. -/
def Table.targets (t : Table) : List String :=
  (foreignKeys.ofTable t).map fun (_, reference, _) => reference.table

/-- The tables that the foreign keys which a change adds point at. -/
def AlterTable.targets (a : AlterTable) : List String :=
  (a.adds.flatMap Table.foreignKeys.ofAddition).map fun (_, reference, _) => reference.table

/-- The foreign keys of a table that a statement creates, and those that a change adds: the table
that each is of, and the table that it points at. -/
def Statement.references : Statement → List (String × String)
  | .table t => t.targets.map (t.name, ·)
  | .alterTable a => a.targets.map (a.table, ·)
  | _ => []

theorem Table.mem_targets_extended {t : Table} {changes : List AlterTable} {target : String} :
    target ∈ (t.extended changes).targets ↔ target ∈ t.targets ∨ ∃ a ∈ changes, target ∈ a.targets := by
  simp only [targets, AlterTable.targets, List.mem_map, Aspect.mem_ofTable_extended]
  constructor
  · rintro ⟨key, hkey | ⟨a, ha, hkey⟩, rfl⟩
    · exact .inl ⟨key, hkey, rfl⟩
    · exact .inr ⟨a, ha, key, hkey, rfl⟩
  · rintro (⟨key, hkey, rfl⟩ | ⟨a, ha, key, hkey, rfl⟩)
    · exact ⟨key, .inl hkey, rfl⟩
    · exact ⟨key, .inr ⟨a, ha, hkey⟩, rfl⟩

theorem Table.Preserved.mem_targets {t t' : Table} (h : Preserved t t') {target : String} :
    target ∈ t'.targets ↔ target ∈ t.targets :=
  (h.foreignKeys.map _).mem_iff

/-- What is left of a change has no foreign keys. -/
theorem AlterTable.targets_of_left? {a b : AlterTable} (h : a.left? = some b) : b.targets = [] := by
  rw [targets, (settled_of_left? h).adds]
  rfl

/-! ## Scripts that refer back -/

/-- A foreign key points at its own table, or at a table that some statements create. -/
def PointsInto (earlier : List Statement) (reference : String × String) : Prop :=
  Text.lower reference.2 = Text.lower reference.1 ∨
    creates Statement.tableName? reference.2 earlier = true

instance (earlier : List Statement) (reference : String × String) :
    Decidable (PointsInto earlier reference) :=
  inferInstanceAs (Decidable (_ ∨ _))

theorem pointsInto_congr {xs ys : List Statement} {reference : String × String}
    (h : xs.filterMap Statement.tableName? = ys.filterMap Statement.tableName?) :
    PointsInto xs reference ↔ PointsInto ys reference := by
  rw [PointsInto, PointsInto, creates_eq, creates_eq, h]

namespace Script

/-- Every foreign key of a script points at its own table, or at one that is created before the
statement that has it. -/
def RefersBack (s : Script) : Prop :=
  ∀ p (_ : p < s.statements.length), ∀ reference ∈ s.statements[p].references,
    PointsInto (s.statements.take p) reference

/-- Every foreign key that a change adds to a table which the script creates points at this table,
or at one that is created before it. -/
def AddsBack (s : Script) : Prop :=
  ∀ p (_ : p < s.statements.length), ∀ t ∈ s.statements[p].table?,
    creates Statement.tableName? t.name (s.statements.drop (p + 1)) = false →
      ∀ a ∈ s.changesToTable t.name, ∀ target ∈ a.targets,
        PointsInto (s.statements.take p) (t.name, target)

instance (s : Script) : Decidable s.RefersBack := inferInstanceAs (Decidable (∀ _, _))

instance (s : Script) : Decidable s.AddsBack := inferInstanceAs (Decidable (∀ _, _))

variable {s : Script}

/-- What holds at every position, of the statements before, at and behind it, holds however a list
is parted at a statement. -/
theorem forall_position_iff {P : List Statement → Statement → List Statement → Prop}
    {xs : List Statement} :
    (∀ p (_ : p < xs.length), P (xs.take p) xs[p] (xs.drop (p + 1))) ↔
      ∀ earlier st later, xs = earlier ++ st :: later → P earlier st later := by
  constructor
  · rintro h earlier st later rfl
    simpa using h earlier.length (by simp)
  · intro h p hp
    apply h
    rw [List.getElem_cons_drop, List.take_append_drop]

theorem refersBack_iff : s.RefersBack ↔ ∀ earlier st later, s.statements = earlier ++ st :: later →
    ∀ reference ∈ st.references, PointsInto earlier reference :=
  forall_position_iff (P := fun earlier st _ => ∀ reference ∈ st.references, PointsInto earlier reference)

theorem addsBack_iff : s.AddsBack ↔ ∀ earlier t later, s.statements = earlier ++ .table t :: later →
    creates Statement.tableName? t.name later = false →
      ∀ a ∈ s.changesToTable t.name, ∀ target ∈ a.targets, PointsInto earlier (t.name, target) := by
  refine (forall_position_iff (P := fun earlier st later => ∀ t ∈ st.table?,
    creates Statement.tableName? t.name later = false →
      ∀ a ∈ s.changesToTable t.name, ∀ target ∈ a.targets,
        PointsInto earlier (t.name, target))).trans ?_
  constructor
  · intro h earlier t later hsplit
    exact h earlier _ later hsplit t rfl
  · intro h earlier st later hsplit t ht
    obtain rfl := Statement.table?_eq_some.mp ht
    exact h earlier t later hsplit

/-! ## Revisions -/

section Revised

variable {f : List Statement → Statement → Option Statement}

/-- **A list in which every statement has been revised refers back just if what becomes of each
statement points at its own table or at those that are created before the statement.** -/
theorem refersBack_revised {xs : List Statement}
    (hnames : ∀ later st, (f later st).bind Statement.tableName? = st.tableName?) :
    Script.RefersBack ⟨revised f xs⟩ ↔ ∀ earlier st later, xs = earlier ++ st :: later →
      ∀ reference ∈ (f later st).toList.flatMap Statement.references,
        PointsInto earlier reference := by
  rw [refersBack_iff]
  constructor
  · intro h earlier st later hsplit reference hreference
    obtain ⟨st', hst', hmem⟩ := List.mem_flatMap.mp hreference
    have hrevised := revised_eq_append_cons.mpr
      ⟨earlier, st, later, hsplit, Option.mem_toList.mp hst', rfl, rfl⟩
    exact (pointsInto_congr (filterMap_revised fun l => hnames _)).mp (h _ _ _ hrevised _ hmem)
  · intro h before st' after hrevised reference hreference
    obtain ⟨earlier, st, later, hsplit, hst', rfl, rfl⟩ := revised_eq_append_cons.mp hrevised
    rw [pointsInto_congr (filterMap_revised fun l => hnames _)]
    exact h earlier st later hsplit reference
      (List.mem_flatMap.mpr ⟨st', Option.mem_toList.mpr hst', hreference⟩)

/-- A revision that keeps the foreign keys of every statement keeps whether a script refers back. -/
theorem refersBack_of_references
    (hnames : ∀ later st, (f later st).bind Statement.tableName? = st.tableName?)
    (hreferences : ∀ later st reference,
      reference ∈ (f later st).toList.flatMap Statement.references ↔ reference ∈ st.references) :
    Script.RefersBack ⟨revised f s.statements⟩ ↔ s.RefersBack := by
  simp only [refersBack_revised hnames, hreferences, refersBack_iff]

end Revised

theorem refersBack_normalizeTables (s : Script) :
    s.normalizeTables.value.RefersBack ↔ s.RefersBack := by
  have hvalue : s.normalizeTables.value =
      ⟨revised (fun _ st => some st.normalize.value) s.statements⟩ := by
    rw [revised_some, ← statements_normalizeTables]
  rw [hvalue]
  apply refersBack_of_references
  · intro later st
    cases st with
    | table t => exact congrArg some t.sameFrame_normalize.name
    | _ => rfl
  · intro later st reference
    rw [Option.toList_some, List.flatMap_singleton]
    cases st with
    | table t =>
      rw [value_normalize_table]
      simp only [Statement.references, List.mem_map, t.preserved_normalize.mem_targets,
        t.sameFrame_normalize.name]
    | _ => rfl

theorem refersBack_dropIndexes (s : Script) : s.dropIndexes.value.RefersBack ↔ s.RefersBack := by
  have hvalue : s.dropIndexes.value = ⟨revised (Statement.kept? s) s.statements⟩ := by
    rw [← statements_dropIndexes]
  rw [hvalue]
  apply refersBack_of_references (bind_tableName?_kept? s)
  intro later st reference
  cases st with
  | table t =>
    simp only [Statement.kept?, Option.toList_some, List.flatMap_singleton]
    split
    · rfl
    · simp only [Statement.references, List.mem_map, (t.preserved_grown _).mem_targets,
        Table.name_grown]
  | index i =>
    simp only [Statement.kept?]
    split <;> simp [Statement.references]
  | _ => simp [Statement.kept?]

/-- **Folding the changes of a script that refers back leaves one that does so just if the changes
add back.** -/
theorem refersBack_foldAlterations (h : s.RefersBack) :
    s.foldAlterations.value.RefersBack ↔ s.AddsBack := by
  rw [foldAlterations_eq, refersBack_revised (bind_tableName?_folded? s), addsBack_iff]
  rw [refersBack_iff] at h
  constructor
  · intro hback earlier t later hsplit hlast a ha target htarget
    apply hback earlier (.table t) later hsplit
    simp only [Statement.folded?, hlast, Option.toList_some, List.flatMap_singleton]
    exact List.mem_map.mpr ⟨target, Table.mem_targets_extended.mpr (.inr ⟨a, ha, htarget⟩), rfl⟩
  · intro hadds earlier st later hsplit reference hreference
    have hown : ∀ reference ∈ st.references, PointsInto earlier reference :=
      h earlier st later hsplit
    cases st with
    | table t =>
      simp only [Statement.folded?, Option.toList_some, List.flatMap_singleton] at hreference
      split at hreference
      · exact hown _ hreference
      · rename_i hlast
        obtain ⟨target, htarget, rfl⟩ := List.mem_map.mp hreference
        rcases Table.mem_targets_extended.mp htarget with htarget | ⟨a, ha, htarget⟩
        · exact hown _ (List.mem_map.mpr ⟨target, htarget, rfl⟩)
        · exact hadds earlier t later hsplit (Bool.eq_false_iff.mpr hlast) a ha target htarget
    | alterTable a =>
      simp only [Statement.folded?] at hreference
      split at hreference
      · -- nothing that is left of a change is a foreign key
        cases hleft : a.left? with
        | none => simp [hleft] at hreference
        | some b =>
          simp [hleft, Statement.references, AlterTable.targets_of_left? hleft] at hreference
      · simp only [Option.toList_some, List.flatMap_singleton] at hreference
        exact hown _ hreference
    | alterIndex a =>
      simp only [Statement.folded?] at hreference
      split at hreference <;> simp [Statement.references] at hreference
    | _ => simp [Statement.folded?, Statement.references] at hreference

/-- **A revision of a script that refers back, be it full or of changes only, refers back just if
every foreign key that a change adds to a table which the script creates points at this table or at
one that is created before it.** -/
theorem refersBack_revise_iff (s : Script) (h : s.RefersBack) :
    ((s.revise .basic).value.RefersBack ↔ s.AddsBack) ∧
      ((s.revise .best).value.RefersBack ↔ s.AddsBack) := by
  have hfolded := refersBack_foldAlterations h
  refine ⟨hfolded, ?_⟩
  rw [revise_best_eq, Noted.bind_value, refersBack_dropIndexes, ordered, Noted.bind_value,
    refersBack_normalizeTables]
  exact hfolded

/-- A foreign key that is added to a table created behind the one it points at stays behind it. -/
theorem refersBack_revise_parent_before :
    ∃ s : Script, (∃ a ∈ s.changesToTable "child", "parent" ∈ a.targets) ∧ s.RefersBack ∧
      (s.revise .basic).value.RefersBack ∧ (s.revise .best).value.RefersBack := by
  have h := refersBack_revise_iff
    ⟨[.table { name := "parent", columns := [⟨"id", "parent", [.dataType ⟨"NUMBER", none⟩]⟩] },
      .table { name := "child", columns := [⟨"id", "child", [.dataType ⟨"NUMBER", none⟩]⟩] },
      .alterTable { table := "CHILD", adds :=
        [.constraint (.foreignKey { target := ⟨"parent", ["id"]⟩ } ["id"])] }]⟩ (by decide)
  exact ⟨_, by decide, by decide, h.1.mpr (by decide), h.2.mpr (by decide)⟩

/-- A foreign key that is added to a table created before the one it points at comes to stand before
it, though the tables have different names and every foreign key pointed back. -/
theorem not_refersBack_revise_parent_behind :
    ∃ s : Script, (s.tables.map fun t => Text.lower t.name).Nodup ∧ s.RefersBack ∧
      ¬ (s.revise .basic).value.RefersBack ∧ ¬ (s.revise .best).value.RefersBack := by
  refine ⟨⟨[.table { name := "a", columns := [⟨"x", "a", [.dataType ⟨"NUMBER", none⟩]⟩] },
    .table { name := "b", columns := [⟨"y", "b", [.dataType ⟨"NUMBER", none⟩]⟩] },
    .alterTable { table := "a", adds :=
      [.constraint (.foreignKey { name := some "a_fk", target := ⟨"b", ["y"]⟩ } ["x"])] }]⟩, ?_⟩
  decide

end Script

end SchemaScript
