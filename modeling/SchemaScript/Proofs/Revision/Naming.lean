import SchemaScript.Proofs.Revision.Order
import SchemaScript.Proofs.Revision.Shape
import Mathlib.Data.List.Flatten
import Mathlib.Data.List.Perm.Subperm

/-!
# Names that are made

A foreign key, check or uniqueness clause without a name gets one that is made of the name of its
column. It may be a name that another constraint of the table has, or gets.

* `Table.constraintNames`, `Table.NamesDiffer` — the names of the constraints and clauses of a
  table, and that no two are the same.
* `Table.keptNames`, `Table.madeNames` — the names that a table in order has kept and those that are
  made.
* `Table.perm_constraintNames_normalize` — it has no other names.
* `Script.namesDiffer_revise_best_iff` — when a full revision leaves names that differ.
-/

set_option autoImplicit false

namespace SchemaScript

/-! ## Names of constraints -/

namespace ColumnClause

/-- The name of a clause that has one. -/
def name? : ColumnClause → Option String
  | .dataType _ | .defaultValue _ => none
  | .notNull name => name
  | .primaryKey key | .unique key => key.name
  | .foreignKey key => key.name
  | .check c => c.name

/-- The name that a clause keeps. A not-null clause keeps none. -/
def keptName? : ColumnClause → Option String
  | .notNull _ => none
  | m => m.name?

/-- The end of the name that is made for a clause which needs a name and has none. -/
def nameEnd? : ColumnClause → Option String
  | .foreignKey { name := none, .. } => some "_fk"
  | .check { name := none, .. } => some "_ck"
  | .unique { name := none, .. } => some "_uq"
  | _ => none

variable {m : ColumnClause}

theorem nameEnd?_mem {e : String} (h : m.nameEnd? = some e) : e ∈ nameEnds := by
  unfold nameEnd? at h
  split at h <;> simp_all [nameEnds]

/-- A clause with its name put in order has the name that it keeps, or else the one that is made. -/
theorem toList_name?_settled (table column : String) (m : ColumnClause) :
    (m.settled table column).name?.toList =
      m.keptName?.toList ++ (m.nameEnd?.map (column ++ ·)).toList := by
  cases m with
  | notNull name => cases name <;> rfl
  | unique key =>
    obtain ⟨name, storage⟩ := key
    cases name <;> rfl
  | foreignKey key =>
    obtain ⟨name, target, onDelete, deferrable⟩ := key
    cases name <;> rfl
  | check c =>
    obtain ⟨name, condition⟩ := c
    cases name <;> rfl
  | dataType type => rfl
  | defaultValue value => rfl
  | primaryKey key => simp [settled, named, unnamed, keptName?, nameEnd?]

theorem keptName?_sublist (m : ColumnClause) : m.keptName?.toList.Sublist m.name?.toList := by
  cases m with
  | notNull name => exact List.nil_sublist _
  | _ => exact List.Sublist.refl _

theorem name?_mapKey {f : Key → Key} (hf : ∀ key, (f key).name = key.name) (m : ColumnClause) :
    (m.mapKey f).name? = m.name? := by
  cases m with
  | primaryKey key | unique key => exact hf key
  | _ => rfl

end ColumnClause

namespace TableConstraint

theorem name?_mapKey {f : Key → Key} (hf : ∀ key, (f key).name = key.name) (k : TableConstraint) :
    (k.mapKey f).name? = k.name? := by
  cases k with
  | primaryKey key columns | unique key columns => exact hf key
  | _ => rfl

theorem name?_toColumnClause (k : TableConstraint) : k.toColumnClause.name? = k.name? := by
  cases k <;> rfl

end TableConstraint

namespace Table

/-- The names of constraints, be they constraints of a table or clauses of its columns. -/
def constraintNames : Aspect String where
  ofConstraint k := k.name?.toList
  ofClause _ m := m.name?.toList

/-- No two constraints of a table have the same name, without regard to letter case. -/
def NamesDiffer (t : Table) : Prop := ((constraintNames.ofTable t).map Text.lower).Nodup

instance (t : Table) : Decidable t.NamesDiffer := inferInstanceAs (Decidable (List.Nodup _))

/-- A constraint that becomes a clause keeps its name. -/
theorem moves_constraintNames (has : String → Bool) : constraintNames.Moves has where
  attach _ _ _ := by simp only [constraintNames, TableConstraint.name?_toColumnClause]

theorem constraintNames_grown (t : Table) (indexes : List Index) :
    constraintNames.ofTable (t.grown indexes) = constraintNames.ofTable t := by
  unfold Aspect.ofTable Aspect.ofColumns constraintNames grown mapKeys
  congr 1
  · apply Aspect.flatMap_mapIdx
    intro i k
    exact congrArg Option.toList (k.name?_mapKey fun _ => by rfl)
  · apply Aspect.flatMap_mapIdx
    intro i c
    apply Aspect.flatMap_mapIdx
    intro j m
    exact congrArg Option.toList (m.name?_mapKey fun _ => by rfl)

/-! ## Names that are kept and names that are made -/

/-- The names that a table in order has kept: those of its constraints that do not become clauses,
and those of the clauses that its columns then have and keep. -/
def keptNames (t : Table) : List String :=
  t.attachConstraints.value.constraints.flatMap (·.name?.toList) ++
    t.attachConstraints.value.columns.flatMap fun c => c.essential.flatMap (·.keptName?.toList)

/-- The names that are made for a table in order, each as the name of a column and an end, for the
clauses that its columns then have and keep. -/
def madeNames (t : Table) : List (String × String) :=
  t.attachConstraints.value.columns.flatMap fun c =>
    c.essential.flatMap fun m => (m.nameEnd?.map (c.name, ·)).toList

theorem map_madeNames (t : Table) : (t.madeNames.map fun x => x.1 ++ x.2) =
    t.attachConstraints.value.columns.flatMap fun c =>
      c.essential.flatMap fun m => (m.nameEnd?.map (c.name ++ ·)).toList := by
  simp only [madeNames, List.map_flatMap, ← Option.toList_map, Option.map_map, Function.comp_def]

/-- **A table in order has the names that it has kept and those that are made for it.** -/
theorem perm_constraintNames_normalize (t : Table) : (constraintNames.ofTable t.normalize.value).Perm
    (t.keptNames ++ t.madeNames.map fun x => x.1 ++ x.2) := by
  have hcolumns : (t.attachConstraints.value.columns.flatMap fun c => c.essential.flatMap fun m =>
        m.keptName?.toList ++ (m.nameEnd?.map (c.name ++ ·)).toList).Perm
      ((t.attachConstraints.value.columns.flatMap fun c => c.essential.flatMap (·.keptName?.toList)) ++
        t.madeNames.map fun x => x.1 ++ x.2) := by
    rw [map_madeNames]
    refine List.Perm.trans ?_ (List.flatMap_append_perm _ _ _).symm
    exact List.Perm.flatMap_left _ fun c _ => (List.flatMap_append_perm _ _ _).symm
  rw [value_normalize, Aspect.ofTable, Aspect.ofColumns, List.flatMap_map]
  simp only [constraintNames, Column.value_normalize, List.flatMap_map,
    ColumnClause.toList_name?_settled]
  rw [keptNames, List.append_assoc]
  exact hcolumns.append_left _

/-- The names that a table in order has kept are among those that it had. -/
theorem keptNames_subperm (t : Table) : t.keptNames.Subperm (constraintNames.ofTable t) := by
  have hkept : t.keptNames.Sublist (constraintNames.ofTable t.attachConstraints.value) := by
    apply List.Sublist.append (List.Sublist.refl _)
    apply List.Sublist.flatMap_right
    intro c _
    have hessential : c.essential.Sublist c.clauses := by
      rw [Column.essential_eq_filter]
      exact List.filter_sublist
    refine List.Sublist.trans ?_ (hessential.flatMap _)
    exact List.Sublist.flatMap_right _ fun m _ => m.keptName?_sublist
  exact hkept.subperm.trans (Aspect.perm_attachConstraints (moves_constraintNames _)).subperm

end Table

/-! ## Names that clash -/

theorem Text.lower_append (a b : String) : Text.lower (a ++ b) = Text.lower a ++ Text.lower b := by
  simp [Text.lower]

/-- The ends of names that are made tell the kinds of the clauses apart. -/
theorem lower_append_nameEnd_inj {a b e e' : String} (he : e ∈ nameEnds) (he' : e' ∈ nameEnds) :
    Text.lower (a ++ e) = Text.lower (b ++ e') ↔ (Text.lower a, e) = (Text.lower b, e') := by
  have hends : ∀ e ∈ nameEnds, Text.lower e = e ∧ e.toList.length = 3 := by decide
  obtain ⟨hlower, hlength⟩ := hends e he
  obtain ⟨hlower', hlength'⟩ := hends e' he'
  rw [Text.lower_append, Text.lower_append, hlower, hlower', Prod.mk.injEq]
  constructor
  · intro h
    have hlists := congrArg String.toList h
    rw [String.toList_append, String.toList_append] at hlists
    obtain ⟨hname, hend⟩ := List.append_inj' hlists (hlength.trans hlength'.symm)
    exact ⟨String.toList_injective hname, String.toList_injective hend⟩
  · rintro ⟨hname, hend⟩
    rw [hname, hend]

namespace Table

theorem mem_nameEnds_of_mem_madeNames {t : Table} {x : String × String} (h : x ∈ t.madeNames) :
    x.2 ∈ nameEnds := by
  obtain ⟨c, -, hc⟩ := List.mem_flatMap.mp h
  obtain ⟨m, -, hm⟩ := List.mem_flatMap.mp hc
  obtain ⟨e, he, rfl⟩ := Option.map_eq_some_iff.mp (Option.mem_toList.mp hm)
  exact ColumnClause.nameEnd?_mem he

/-- No two names that are made are the same just if no two clauses of a kind need a name in columns
of one name. -/
theorem nodup_madeNames_iff (t : Table) :
    ((t.madeNames.map fun x => x.1 ++ x.2).map Text.lower).Nodup ↔
      (t.madeNames.map fun x => (Text.lower x.1, x.2)).Nodup := by
  rw [List.map_map, List.Nodup, List.pairwise_map, List.Nodup, List.pairwise_map]
  apply List.Pairwise.iff_of_mem
  intro x y hx hy
  exact not_congr (lower_append_nameEnd_inj (mem_nameEnds_of_mem_madeNames hx)
    (mem_nameEnds_of_mem_madeNames hy))

/-- **A table in order has names that differ** just if those that are made differ among themselves
and from those that are kept. -/
theorem namesDiffer_normalize_iff {t : Table} (h : t.NamesDiffer) : t.normalize.value.NamesDiffer ↔
    (t.madeNames.map fun x => (Text.lower x.1, x.2)).Nodup ∧
      ∀ x ∈ t.madeNames, ∀ n ∈ t.keptNames, Text.sameName n (x.1 ++ x.2) = false := by
  have hkept : (t.keptNames.map Text.lower).Nodup := by
    obtain ⟨names, hperm, hsublist⟩ := t.keptNames_subperm
    exact (hperm.map Text.lower).nodup_iff.mp (h.sublist (hsublist.map Text.lower))
  rw [NamesDiffer, (t.perm_constraintNames_normalize.map Text.lower).nodup_iff, List.map_append,
    List.nodup_append, nodup_madeNames_iff]
  simp only [hkept, true_and, List.forall_mem_map]
  refine and_congr_right fun _ => ?_
  constructor
  · intro hne x hx n hn
    simpa [Text.sameName] using hne n hn x hx
  · intro hne n hn x hx
    simpa [Text.sameName] using hne x hx n hn

end Table

/-! ## Whole revisions -/

namespace Script

variable {s : Script}

/-- **A full revision makes no names that clash if and only if no two clauses get the same and none
gets one that another has.** Let the names of constraints differ in each table of a script with its
changes folded. Then they differ in each table of the revised script just if in no table there are
two clauses of a kind without names in columns of one name, or one for which a name is made that is
kept. -/
theorem namesDiffer_revise_best_iff (h : ∀ t ∈ (s.revise .basic).value.tables, t.NamesDiffer) :
    (∀ t ∈ (s.revise .best).value.tables, t.NamesDiffer) ↔
      ∀ t ∈ (s.revise .basic).value.tables,
        (t.madeNames.map fun x => (Text.lower x.1, x.2)).Nodup ∧
          ∀ x ∈ t.madeNames, ∀ n ∈ t.keptNames, Text.sameName n (x.1 ++ x.2) = false := by
  apply forall_tables_revise_best
  intro t ht indexes
  rw [Table.NamesDiffer, Table.constraintNames_grown]
  exact Table.namesDiffer_normalize_iff (h t ht)

/-- Of two foreign keys on columns of different names, one of which a constraint becomes, each gets
a name of its own. -/
theorem namesDiffer_revise_best_foreign_keys :
    ∃ s : Script, (∀ t ∈ (s.revise .basic).value.tables, t.NamesDiffer) ∧
      (∀ t ∈ (s.revise .best).value.tables, t.NamesDiffer) ∧
      ∀ t ∈ (s.revise .best).value.tables, Table.constraintNames.ofTable t = ["a_fk", "b_fk"] := by
  have h : ∀ t ∈ (Script.revise .basic ⟨[.table
      { name := "t"
        columns := [
          ⟨"a", "t", [.dataType ⟨"NUMBER", none⟩, .notNull (some "a_fk"),
            .foreignKey { target := ⟨"p", ["id"]⟩ }]⟩,
          ⟨"b", "t", [.dataType ⟨"NUMBER", none⟩]⟩]
        constraints := [.foreignKey { target := ⟨"p", ["id"]⟩ } ["B"]] }]⟩).value.tables,
      t.NamesDiffer := by
    decide
  refine ⟨_, h, (namesDiffer_revise_best_iff h).mpr ?_, by decide⟩
  decide

/-- **A name that is made may clash:** a foreign key gets the name that a constraint on two columns
has. -/
theorem not_namesDiffer_revise_best_foreign_key :
    ∃ s : Script, (∀ t ∈ (s.revise .basic).value.tables, t.NamesDiffer) ∧
      ¬ ∀ t ∈ (s.revise .best).value.tables, t.NamesDiffer := by
  refine ⟨⟨[.table
    { name := "t"
      columns := [
        ⟨"a", "t", [.dataType ⟨"NUMBER", none⟩, .foreignKey { target := ⟨"p", ["id"]⟩ }]⟩,
        ⟨"b", "t", [.dataType ⟨"NUMBER", none⟩]⟩]
      constraints :=
        [.foreignKey { name := some "a_fk", target := ⟨"q", ["x", "y"]⟩ } ["a", "b"]] }]⟩, ?_, ?_⟩
  · decide
  · decide

end Script

end SchemaScript
