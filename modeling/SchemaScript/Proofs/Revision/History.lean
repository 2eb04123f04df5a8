import SchemaScript.Proofs.Revision.Revised
import Mathlib.Data.List.Basic

/-!
# The history of a table

The statements of a script act on a table in their order: it is created, and changed by each change
to it. Folding moves whatever a change adds into the creation of its table, past the new names, the
columns defined anew and the drops of earlier changes, which stay where they are.

* `TableAction` — one action on a table, with `TableAction.part?`, the part of a table that takes it
  up.
* `Script.history` — the actions of a script on the table of a name, in order.
* `TableAction.foldedFirst` — the actions that are taken up, part by part, then those that stay.
* `TableAction.SameOrder` — two histories have the actions that stay, and those that one part takes
  up, in the same order.
* `Script.history_revise_basic` — the history of a table when changes are folded, and when it has
  the same order as before. -/

set_option autoImplicit false

namespace SchemaScript

/-! ## Actions on a table -/

/-- A part of a table that takes up what a change adds. -/
inductive TablePart where
  | columns
  | constraints
  | storage
  deriving DecidableEq, Repr

/-- The parts of a table in the order in which a table has them. -/
def TablePart.all : List TablePart := [.columns, .constraints, .storage]

/-- One action on a table: it gets a column, a constraint or a storage option, it or a column gets
another name, columns are defined anew, or something is dropped. -/
inductive TableAction where
  | column (name : String) (clauses : List ColumnClause)
  | constraint (constraint : TableConstraint)
  | storage (storage : Storage)
  | rename (rename : Rename)
  | modify (columns : List Column)
  | drop (drop : Drop)
  deriving DecidableEq, Repr

namespace TableAction

/-- The part of a table that takes an action up. There is none for an action that stays. -/
def part? : TableAction → Option TablePart
  | .column _ _ => some .columns
  | .constraint _ => some .constraints
  | .storage _ => some .storage
  | .rename _ | .modify _ | .drop _ => none

@[simp] theorem part?_column (name : String) (clauses : List ColumnClause) :
    (column name clauses).part? = some .columns := rfl

@[simp] theorem part?_constraint (c : TableConstraint) :
    (constraint c).part? = some .constraints := rfl

@[simp] theorem part?_storage (s : Storage) : (storage s).part? = some .storage := rfl

@[simp] theorem part?_rename (r : Rename) : (rename r).part? = none := rfl

@[simp] theorem part?_modify (columns : List Column) : (modify columns).part? = none := rfl

@[simp] theorem part?_drop (d : Drop) : (drop d).part? = none := rfl

/-- The actions that a part of a table takes up. -/
def takenUp (part : TablePart) (actions : List TableAction) : List TableAction :=
  actions.filter fun action => action.part? = some part

/-- The actions that stay. -/
def staying (actions : List TableAction) : List TableAction :=
  actions.filter fun action => action.part? = none

/-- The actions that are taken up, part by part, then those that stay. -/
def foldedFirst (actions : List TableAction) : List TableAction :=
  TablePart.all.flatMap (takenUp · actions) ++ staying actions

/-- The actions that stay, and among them those that a part of a table takes up. -/
def besides (part : TablePart) (actions : List TableAction) : List TableAction :=
  actions.filter fun action => action.part? = none ∨ action.part? = some part

/-- Two histories have the actions that stay, and those that one part of a table takes up, in the
same order. Actions that different parts take up do not meet. -/
def SameOrder (xs ys : List TableAction) : Prop := ∀ part, besides part xs = besides part ys

variable {part : TablePart} {xs ys : List TableAction}

theorem takenUp_append : takenUp part (xs ++ ys) = takenUp part xs ++ takenUp part ys :=
  List.filter_append ..

theorem staying_append : staying (xs ++ ys) = staying xs ++ staying ys := List.filter_append ..

theorem besides_append : besides part (xs ++ ys) = besides part xs ++ besides part ys :=
  List.filter_append ..

theorem besides_takenUp (other : TablePart) :
    besides part (takenUp other xs) = if other = part then takenUp part xs else [] := by
  rw [besides, takenUp, List.filter_filter]
  split
  · subst other
    apply List.filter_congr
    intro action _
    cases action.part? <;> simp
  · rename_i hne
    rw [List.filter_eq_nil_iff]
    intro action _
    cases action.part? <;> simp; grind

theorem besides_staying : besides part (staying xs) = staying xs := by
  rw [besides, List.filter_eq_self]
  intro action haction
  have hstays : action.part? = none := by simpa using (List.mem_filter.mp haction).2
  simp [hstays]

theorem besides_foldedFirst : besides part (foldedFirst xs) = takenUp part xs ++ staying xs := by
  simp only [foldedFirst, TablePart.all, List.flatMap_cons, List.flatMap_nil, List.append_nil,
    besides_append, besides_takenUp, besides_staying]
  cases part <;> simp

theorem eq_of_staying (h : ∀ x ∈ xs, x.part? = none) :
    takenUp part xs = [] ∧ staying xs = xs ∧ besides part xs = xs := by
  refine ⟨?_, ?_, ?_⟩
  · rw [takenUp, List.filter_eq_nil_iff]
    intro x hx
    simp [h x hx]
  · rw [staying, List.filter_eq_self]
    intro x hx
    simp [h x hx]
  · rw [besides, List.filter_eq_self]
    intro x hx
    simp [h x hx]

/-- **When the actions that are taken up come first, this is the same order just if none of them was
behind one that stays.** -/
theorem sameOrder_foldedFirst : SameOrder (foldedFirst xs) xs ↔
    xs.Pairwise fun x y => x.part? = none → y.part? = none := by
  simp only [SameOrder, besides_foldedFirst]
  induction xs with
  | nil => simp [takenUp, staying, besides]
  | cons x xs ih =>
    rw [List.pairwise_cons]
    cases hx : x.part? with
    | none =>
      have hcons (part : TablePart) : takenUp part (x :: xs) ++ staying (x :: xs) =
          besides part (x :: xs) ↔ takenUp part xs ++ x :: staying xs = x :: besides part xs := by
        simp [takenUp, staying, besides, hx]
      simp only [hcons]
      constructor
      · intro h
        have hall : ∀ y ∈ xs, y.part? = none := by
          intro y hy
          by_contra hpart
          obtain ⟨part, hpart⟩ := Option.ne_none_iff_exists'.mp hpart
          have htaken : y ∈ takenUp part xs := List.mem_filter.mpr ⟨hy, by simp [hpart]⟩
          -- the first that the part takes up would have to be the one that stays
          cases hfirst : takenUp part xs with
          | nil => simp [hfirst] at htaken
          | cons z zs =>
            have hz : z ∈ takenUp part xs := hfirst ▸ List.mem_cons_self
            have hzx : z = x := by
              have hpart := h part
              rw [hfirst] at hpart
              exact (List.cons_eq_cons.mp hpart).1
            have hnot := (List.mem_filter.mp hz).2
            simp [hzx, hx] at hnot
        exact ⟨fun y hy _ => hall y hy,
          List.pairwise_of_forall_mem_list fun _ _ y hy _ => hall y hy⟩
      · rintro ⟨hall, -⟩ part
        obtain ⟨htaken, hstaying, hbesides⟩ := eq_of_staying fun y hy => hall y hy trivial
        rw [htaken, hstaying, hbesides]
        rfl
    | some p =>
      have hcons (part : TablePart) : takenUp part (x :: xs) ++ staying (x :: xs) =
          besides part (x :: xs) ↔ takenUp part xs ++ staying xs = besides part xs := by
        by_cases hp : p = part
        · simp [takenUp, staying, besides, hx, hp]
        · simp [takenUp, staying, besides, hx, hp]
      simp only [hcons, ih, reduceCtorEq, false_implies, implies_true, true_and]

end TableAction

/-! ## Histories -/

/-- The actions that make a table: its columns, constraints and storage options. -/
def Table.actions (t : Table) : List TableAction :=
  t.columns.map (fun c => .column c.name c.clauses) ++ t.constraints.map .constraint ++
    t.storage.map .storage

/-- The action of an addition. -/
def Addition.action : Addition → TableAction
  | .column c => .column c.name c.clauses
  | .constraint c => .constraint c
  | .storage s => .storage s

/-- The action of a modification. -/
def Modification.action : Modification → TableAction
  | .rename r => .rename r
  | .modify columns => .modify columns
  | .storage s => .storage s

/-- The actions of a change, in the order in which they are written. -/
def AlterTable.actions (a : AlterTable) : List TableAction :=
  a.adds.map Addition.action ++ a.mods.map Modification.action ++ a.drops.map .drop

/-- The actions of a statement on the table of a name. -/
def Statement.actionsOn (name : String) : Statement → List TableAction
  | .table t => if Text.sameName t.name name then t.actions else []
  | .alterTable a => if Text.sameName a.table name then a.actions else []
  | _ => []

/-- The actions of a script on the table of a name, in order. -/
def Script.history (s : Script) (name : String) : List TableAction :=
  s.statements.flatMap (Statement.actionsOn name)

open TableAction

namespace Table

theorem staying_actions (t : Table) : staying t.actions = [] := by
  simp [staying, actions]

theorem takenUp_actions (t : Table) :
    takenUp .columns t.actions = t.columns.map (fun c => .column c.name c.clauses) ∧
      takenUp .constraints t.actions = t.constraints.map .constraint ∧
      takenUp .storage t.actions = t.storage.map .storage := by
  simp [takenUp, actions, List.filter_map, Function.comp_def]

/-- A table has its actions part by part. -/
theorem flatMap_takenUp_actions (t : Table) :
    TablePart.all.flatMap (takenUp · t.actions) = t.actions := by
  obtain ⟨hcolumns, hconstraints, hstorage⟩ := t.takenUp_actions
  simp only [TablePart.all, List.flatMap_cons, List.flatMap_nil, hcolumns, hconstraints, hstorage]
  simp [actions]

variable {part : TablePart}

theorem takenUp_add (t : Table) (x : Addition) :
    takenUp part (t.add x).actions = takenUp part t.actions ++ takenUp part [x.action] := by
  obtain ⟨hcolumns, hconstraints, hstorage⟩ := t.takenUp_actions
  obtain ⟨hcolumns', hconstraints', hstorage'⟩ := (t.add x).takenUp_actions
  cases part with
  | columns =>
    rw [hcolumns, hcolumns']
    cases x <;> simp [add, addColumn, addConstraint, addStorage, takenUp, Addition.action]
  | constraints =>
    rw [hconstraints, hconstraints']
    cases x <;> simp [add, addColumn, addConstraint, addStorage, takenUp, Addition.action]
  | storage =>
    rw [hstorage, hstorage']
    cases x <;> simp [add, addColumn, addConstraint, addStorage, takenUp, Addition.action]

theorem takenUp_foldl_add (adds : List Addition) (t : Table) :
    takenUp part (adds.foldl add t).actions =
      takenUp part t.actions ++ takenUp part (adds.map Addition.action) := by
  induction adds generalizing t with
  | nil => simp [takenUp]
  | cons x adds ih =>
    rw [List.foldl_cons, ih, takenUp_add, List.append_assoc, ← takenUp_append]
    rfl

theorem takenUp_addStorage (t : Table) (options : List Storage) :
    takenUp part (t.addStorage options).actions =
      takenUp part t.actions ++ takenUp part (options.map .storage) := by
  have hsome (o : Storage) : (Addition.storage o).storage? = some o := rfl
  have hadds : t.addStorage options = (options.map Addition.storage).foldl add t := by
    simp [foldl_add, addStorage, Addition.column?, Addition.constraint?, hsome]
  rw [hadds, takenUp_foldl_add, List.map_map]
  rfl

end Table

namespace AlterTable

variable {part : TablePart}

/-- What a part of a table takes up of a change comes of its additions and of the storage options
that it sets. -/
theorem takenUp_actions (a : AlterTable) : takenUp part a.actions =
    takenUp part (a.adds.map Addition.action) ++
      takenUp part ((a.mods.filterMap Modification.option?).map .storage) := by
  have hmods : takenUp part (a.mods.map Modification.action) =
      takenUp part ((a.mods.filterMap Modification.option?).map .storage) := by
    induction a.mods with
    | nil => rfl
    | cons m mods ih =>
      rw [takenUp, List.map_cons, List.filter_cons, ← takenUp, ih]
      cases m <;> simp [takenUp, Modification.action, Modification.option?, List.filterMap_cons,
        List.filter_cons]
  have hdrops : takenUp part (a.drops.map .drop) = [] := by simp [takenUp]
  rw [actions, takenUp_append, takenUp_append, hmods, hdrops, List.append_nil]

/-- What is left of a change is what stays of it. -/
theorem flatMap_actions_left? (a : AlterTable) :
    a.left?.toList.flatMap actions = staying a.actions := by
  have hadds : staying (a.adds.map Addition.action) = [] := by
    rw [staying, List.filter_eq_nil_iff]
    intro action haction
    obtain ⟨x, -, rfl⟩ := List.mem_map.mp haction
    cases x <;> simp [Addition.action]
  have hmods : staying (a.mods.map Modification.action) =
      (a.mods.filter fun m => m.option?.isNone).map Modification.action := by
    rw [staying, List.filter_map]
    congr 1
    apply List.filter_congr
    intro m _
    cases m <;> simp [Modification.action, Modification.option?]
  have hdrops : staying (a.drops.map .drop) = a.drops.map .drop := by simp [staying]
  rw [actions, staying_append, staying_append, hadds, hmods, hdrops, List.nil_append, left?]
  split
  · rename_i hempty
    rw [hempty.1, hempty.2]
    rfl
  · simp [actions]

end AlterTable

/-- **What a part of a table has taken up of several changes comes behind what it had, in the order
of the changes.** -/
theorem Table.takenUp_extended {part : TablePart} (t : Table) (changes : List AlterTable) :
    takenUp part (t.extended changes).actions =
      takenUp part (t.actions ++ changes.flatMap AlterTable.actions) := by
  induction changes generalizing t with
  | nil => simp
  | cons a changes ih =>
    have hone : takenUp part (t.extended [a]).actions = takenUp part (t.actions ++ a.actions) := by
      have habsorb : t.extended [a] =
          (a.adds.foldl add t).addStorage (a.mods.filterMap Modification.option?) := by
        rw [← Modification.storage?_eq_option?]
        exact congrArg Prod.fst (t.absorb_eq a).symm
      rw [habsorb, takenUp_addStorage, takenUp_foldl_add, takenUp_append, a.takenUp_actions,
        List.append_assoc]
    rw [← List.singleton_append, extended_append, ih, takenUp_append, hone, ← takenUp_append,
      List.append_assoc, List.flatMap_append, List.flatMap_singleton]

/-! ## Folding -/

theorem Statement.flatMap_actionsOn_left? (a : AlterTable) (name : String) :
    (a.left?.map Statement.alterTable).toList.flatMap (actionsOn name) =
      if Text.sameName a.table name then staying a.actions else [] := by
  rw [← a.flatMap_actions_left?]
  cases hleft : a.left? with
  | none => simp
  | some b =>
    have htable : b.table = a.table := by
      simp only [AlterTable.left?] at hleft
      split at hleft <;> cases hleft
      rfl
    simp [actionsOn, htable]

/-- What becomes of statements that do not create a table acts on the table as far as it stays. -/
theorem Statement.flatMap_actionsOn_folded? {s : Script} {name : String} {st : Statement}
    (hcreated : creates tableName? name s.statements = true)
    (hother : creates tableName? name [st] = false) (later : List Statement) :
    (st.folded? s later).toList.flatMap (actionsOn name) = staying (st.actionsOn name) := by
  cases st with
  | table t =>
    have hname : Text.sameName t.name name = false := by
      simpa [creates, tableName?, table?] using hother
    simp only [folded?, Option.toList_some, List.flatMap_singleton]
    split <;> simp [actionsOn, hname, staying, Table.extended]
  | alterTable a =>
    simp only [folded?, actionsOn]
    by_cases hname : Text.sameName a.table name = true
    · have hsame : Text.lower a.table = Text.lower name := by simpa [Text.sameName] using hname
      rw [creates_congr hsame, hcreated, if_pos rfl, if_pos hname, flatMap_actionsOn_left?,
        if_pos hname]
    · rw [if_neg hname]
      split
      · rw [flatMap_actionsOn_left?, if_neg hname]
        rfl
      · simp [actionsOn, hname, staying]
  | alterIndex a =>
    simp only [folded?]
    split <;> rfl
  | _ => rfl

/-- The actions on a table of statements that do not create it are those of the changes to it. -/
theorem flatMap_actionsOn_of_not_creates {name : String} {xs : List Statement}
    (h : creates Statement.tableName? name xs = false) : xs.flatMap (Statement.actionsOn name) =
      ((xs.filterMap Statement.alterTable?).filter fun a =>
        Text.sameName a.table name).flatMap AlterTable.actions := by
  induction xs with
  | nil => rfl
  | cons st xs ih =>
    rw [← List.singleton_append, creates_append, Bool.or_eq_false_iff] at h
    rw [List.flatMap_cons, ih h.2]
    cases st with
    | table t =>
      have hname : Text.sameName t.name name = false := by
        simpa [creates, Statement.tableName?, Statement.table?] using h.1
      rw [Statement.actionsOn, if_neg (by simp [hname])]
      rfl
    | alterTable a =>
      by_cases hname : Text.sameName a.table name = true
      · simp [Statement.actionsOn, hname, Statement.alterTable?]
      · simp [Statement.actionsOn, hname, Statement.alterTable?]
    | _ => rfl

namespace Script

variable {s : Script} {earlier later : List Statement} {t : Table}

/-- The history of a table that one statement creates, before all changes to it. -/
theorem history_eq (hsplit : s.statements = earlier ++ .table t :: later)
    (hsole : creates Statement.tableName? t.name (earlier ++ later) = false)
    (hbefore : ∀ a, .alterTable a ∈ earlier → Text.lower a.table ≠ Text.lower t.name) :
    earlier.flatMap (Statement.actionsOn t.name) = [] ∧
      later.flatMap (Statement.actionsOn t.name) =
        (s.changesToTable t.name).flatMap AlterTable.actions ∧
      s.history t.name = t.actions ++ (s.changesToTable t.name).flatMap AlterTable.actions := by
  rw [creates_append, Bool.or_eq_false_iff] at hsole
  have hnone : (earlier.filterMap Statement.alterTable?).filter
      (fun a => Text.sameName a.table t.name) = [] := by
    rw [List.filter_eq_nil_iff]
    intro a ha
    obtain ⟨st, hst, hget⟩ := List.mem_filterMap.mp ha
    have hne := hbefore a (Statement.alterTable?_eq_some.mp hget ▸ hst)
    simpa [Text.sameName] using hne
  have hchanges : s.changesToTable t.name = (later.filterMap Statement.alterTable?).filter
      fun a => Text.sameName a.table t.name := by
    rw [changesToTable, hsplit, List.filterMap_append, List.filter_append, hnone, List.nil_append]
    rfl
  have hearlier : earlier.flatMap (Statement.actionsOn t.name) = [] := by
    rw [flatMap_actionsOn_of_not_creates hsole.1, hnone]
    rfl
  have hlater : later.flatMap (Statement.actionsOn t.name) =
      (s.changesToTable t.name).flatMap AlterTable.actions := by
    rw [flatMap_actionsOn_of_not_creates hsole.2, hchanges]
  refine ⟨hearlier, hlater, ?_⟩
  rw [history, hsplit, List.flatMap_append, List.flatMap_cons, hearlier, hlater]
  simp [Statement.actionsOn, Text.sameName]

/-- Whatever is added to a table comes first in its history once changes are folded, part by part.
-/
theorem history_folded (hsplit : s.statements = earlier ++ .table t :: later)
    (hsole : creates Statement.tableName? t.name (earlier ++ later) = false)
    (hbefore : ∀ a, .alterTable a ∈ earlier → Text.lower a.table ≠ Text.lower t.name) :
    (s.revise .basic).value.history t.name = foldedFirst (s.history t.name) := by
  obtain ⟨hearlier, hlater, hhistory⟩ := history_eq hsplit hsole hbefore
  have hcreated : creates Statement.tableName? t.name s.statements = true :=
    creates_eq_true.mpr ⟨.table t, by simp [hsplit], t.name, rfl, rfl⟩
  have hother : ∀ st ∈ earlier ++ later, creates Statement.tableName? t.name [st] = false := by
    intro st hst
    simpa [creates] using List.any_eq_false.mp hsole st hst
  have hlast : creates Statement.tableName? t.name later = false :=
    (Bool.or_eq_false_iff.mp ((creates_append _ _).symm.trans hsole)).2
  have htable : (Statement.table t).folded? s later =
      some (.table (t.extended (s.changesToTable t.name))) := by
    simp [Statement.folded?, hlast]
  have hstatements := revised_eq_append_cons.mpr
    ⟨earlier, .table t, later, hsplit, htable, rfl, rfl⟩
  have hstays (xs : List Statement) : xs.flatMap (fun st => staying (st.actionsOn t.name)) =
      staying (xs.flatMap (Statement.actionsOn t.name)) := List.filter_flatMap.symm
  have hrevised : (s.revise .basic).value = ⟨revised (Statement.folded? s) s.statements⟩ :=
    congrArg Noted.value s.foldAlterations_eq
  rw [hrevised, history, hstatements, List.flatMap_append, List.flatMap_cons,
    flatMap_revised fun l st hst => Statement.flatMap_actionsOn_folded? hcreated
      (hother st (List.mem_append_left _ hst)) _,
    flatMap_revised fun l st hst => Statement.flatMap_actionsOn_folded? hcreated
      (hother st (List.mem_append_right _ hst)) _, hstays, hstays, hearlier, hlater, hhistory]
  simp only [foldedFirst, ← Table.takenUp_extended, Table.flatMap_takenUp_actions, staying_append,
    Table.staying_actions]
  simp [Statement.actionsOn, Text.sameName, staying, Table.extended]

/-- **Folding gives a table that one statement creates, before all changes to it, a history in which
whatever is added to the table comes first, part by part, and then comes what stays, each in the
order that it had. This is the order that the actions had just if nothing is added to the table
behind a new name, columns defined anew or a drop.** -/
theorem history_revise_basic (hsplit : s.statements = earlier ++ .table t :: later)
    (hsole : creates Statement.tableName? t.name (earlier ++ later) = false)
    (hbefore : ∀ a, .alterTable a ∈ earlier → Text.lower a.table ≠ Text.lower t.name) :
    (s.revise .basic).value.history t.name = foldedFirst (s.history t.name) ∧
      (SameOrder ((s.revise .basic).value.history t.name) (s.history t.name) ↔
        (s.history t.name).Pairwise fun x y => x.part? = none → y.part? = none) := by
  have hfolded := history_folded hsplit hsole hbefore
  refine ⟨hfolded, ?_⟩
  rw [hfolded]
  exact sameOrder_foldedFirst

/-- A column that is added before another is dropped is folded without a change of order. -/
theorem history_revise_basic_add_before_drop :
    ∃ (s : Script) (t : Table), .drop ⟨.column, "x"⟩ ∈ (s.revise .basic).value.history t.name ∧
      (s.revise .basic).value.history t.name = foldedFirst (s.history t.name) ∧
      SameOrder ((s.revise .basic).value.history t.name) (s.history t.name) := by
  have h := @history_revise_basic
    ⟨[.commit, .table { name := "t", columns := [⟨"x", "t", [.dataType ⟨"NUMBER", none⟩]⟩] },
      .alterTable { table := "t", adds := [.column (.mk "y" "" [.dataType ⟨"DATE", none⟩])] },
      .alterTable { table := "T", drops := [⟨.column, "x"⟩] }]⟩ [.commit] _ _ rfl (by decide) (by simp)
  exact ⟨_, _, by decide, h.1, h.2.mpr (by decide)⟩

/-- A column that is added anew behind its drop comes to stand before the drop, though the drop is
still there. -/
theorem not_sameOrder_revise_basic_drop_before_add :
    ∃ (s : Script) (t : Table) (later : List Statement), s.statements = .table t :: later ∧
      creates Statement.tableName? t.name later = false ∧
      .drop ⟨.column, "x"⟩ ∈ (s.revise .basic).value.history t.name ∧
      ¬ SameOrder ((s.revise .basic).value.history t.name) (s.history t.name) := by
  refine ⟨⟨[.table { name := "t", columns := [⟨"x", "t", [.dataType ⟨"NUMBER", none⟩]⟩] },
    .alterTable { table := "t", drops := [⟨.column, "x"⟩] },
    .alterTable { table := "t", adds := [.column (.mk "x" "" [.dataType ⟨"DATE", none⟩])] }]⟩,
    _, _, rfl, by decide, by decide, ?_⟩
  intro h
  exact absurd (h .columns) (by decide)

end Script

end SchemaScript
