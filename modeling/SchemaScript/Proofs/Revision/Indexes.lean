import Mathlib.Data.List.Forall2
import SchemaScript.Revision.Level
import SchemaScript.Proofs.Revision.Catalog
import SchemaScript.Proofs.Revision.Folding

/-!
# What the removal of superfluous indexes comes to

* `Table.keyTuples` — the lists of columns, in lower case, that a table makes unique.
* `Table.mapKeys` — a table with its primary keys and uniqueness clauses changed, each by its place.
* `Table.tupleAt?_of_keyPlace?`, `Table.keyPlace?_isSome` — the place that is found for a list of
  columns.
* `Script.isRedundant` — whether an index is superfluous.
* `Statement.kept?`, `Statement.redundantNote?` — what becomes of a statement, and what is noted.
* `Script.dropIndexes_eq`, `Script.revise_best` — the removal of all superfluous indexes of a
  script. -/

set_option autoImplicit false

namespace SchemaScript

/-! ## Keys by place -/

@[simp] theorem TableConstraint.mapKey_id (c : TableConstraint) : c.mapKey (fun key => key) = c := by
  cases c <;> rfl

@[simp] theorem TableConstraint.mapKey_mapKey (f g : Key → Key) (c : TableConstraint) :
    (c.mapKey f).mapKey g = c.mapKey fun key => g (f key) := by
  cases c <;> rfl

@[simp] theorem TableConstraint.mapKey_ite (p : Prop) [Decidable p] (f : Key → Key)
    (c : TableConstraint) :
    (c.mapKey fun key => if p then f key else key) = if p then c.mapKey f else c := by
  by_cases h : p <;> simp [h]

@[simp] theorem TableConstraint.keyColumns?_mapKey (f : Key → Key) (c : TableConstraint) :
    (c.mapKey f).keyColumns? = c.keyColumns? := by
  cases c <;> rfl

@[simp] theorem TableConstraint.key?_mapKey (f : Key → Key) (c : TableConstraint) :
    (c.mapKey f).key? = c.key?.map f := by
  cases c <;> rfl

@[simp] theorem ColumnClause.mapKey_id (m : ColumnClause) : m.mapKey (fun key => key) = m := by
  cases m <;> rfl

@[simp] theorem ColumnClause.mapKey_mapKey (f g : Key → Key) (m : ColumnClause) :
    (m.mapKey f).mapKey g = m.mapKey fun key => g (f key) := by
  cases m <;> rfl

@[simp] theorem ColumnClause.mapKey_ite (p : Prop) [Decidable p] (f : Key → Key)
    (m : ColumnClause) :
    (m.mapKey fun key => if p then f key else key) = if p then m.mapKey f else m := by
  by_cases h : p <;> simp [h]

@[simp] theorem ColumnClause.key?_mapKey (f : Key → Key) (m : ColumnClause) :
    (m.mapKey f).key? = m.key?.map f := by
  cases m <;> rfl

section Positions

variable {α β γ : Type}

theorem map_mapIdx {f : Nat → α → β} {g : β → γ} {g' : α → γ} (h : ∀ i a, g (f i a) = g' a)
    (xs : List α) : (xs.mapIdx f).map g = xs.map g' := by
  apply List.ext_getElem?
  intro i
  cases hi : xs[i]? <;> simp [hi, h]

/-- Entries with their positions, when each has been changed by its position. -/
theorem zipIdx_mapIdx (f : Nat → α → β) (xs : List α) :
    (xs.mapIdx f).zipIdx = xs.zipIdx.map fun entry => (f entry.2 entry.1, entry.2) := by
  apply List.ext_getElem?
  intro i
  cases h : xs[i]? <;> simp [List.getElem?_zipIdx, h]

theorem filterMap_zipIdx_fst (f : α → Option β) (xs : List α) :
    (xs.zipIdx.filterMap fun entry => f entry.1) = xs.filterMap f := by
  conv_rhs => rw [← List.zipIdx_map_fst 0 xs, List.filterMap_map]
  rfl

theorem flatMap_zipIdx_fst (f : α → List β) (xs : List α) :
    (xs.zipIdx.flatMap fun entry => f entry.1) = xs.flatMap f := by
  conv_rhs => rw [← List.zipIdx_map_fst 0 xs, List.flatMap_map]

@[simp] theorem mapIdx_self (xs : List α) : (xs.mapIdx fun _ a => a) = xs := by
  simp [List.mapIdx_eq_iff]

theorem modify_eq_mapIdx (xs : List α) (i : Nat) (f : α → α) :
    xs.modify i f = xs.mapIdx fun j a => if j = i then f a else a := by
  symm
  rw [List.mapIdx_eq_iff]
  intro j
  rw [List.getElem?_modify]
  by_cases h : j = i
  · simp [h]
  · simp [h, Ne.symm h]

end Positions

namespace Table

variable (t : Table)

/-- The lists of columns, in lower case, on which a table has a primary key or uniqueness clause. -/
def keyTuples : List (List String) :=
  (t.constraints.filterMap fun c => c.keyColumns?.map fun columns => columns.map Text.lower) ++
  t.columns.flatMap fun c => c.clauses.filterMap fun m => m.key?.map fun _ => [Text.lower c.name]

/-- The place of the clause that makes a list of columns unique; of several, the last. -/
def keyPlace? (columns : List String) : Option KeyPlace :=
  (t.keyPlaces.reverse.find? fun entry => entry.1 = columns.map Text.lower).map Prod.snd

/-- The columns, in lower case, that the clause at a place makes unique. -/
def tupleAt? : KeyPlace → Option (List String)
  | .constraint i =>
    t.constraints[i]?.bind fun c => c.keyColumns?.map fun columns => columns.map Text.lower
  | .clause i j =>
    t.columns[i]?.bind fun c => c.clauses[j]?.bind fun m => m.key?.map fun _ => [Text.lower c.name]

/-- A table with its primary keys and uniqueness clauses changed, each by its place. -/
def mapKeys (f : KeyPlace → Key → Key) : Table :=
  { t with
    constraints := t.constraints.mapIdx fun i c => c.mapKey (f (.constraint i))
    columns := t.columns.mapIdx fun i c =>
      { c with clauses := c.clauses.mapIdx fun j m => m.mapKey (f (.clause i j)) } }

theorem mem_keyPlaces {tuple : List String} {place : KeyPlace} :
    (tuple, place) ∈ t.keyPlaces ↔ t.tupleAt? place = some tuple := by
  cases place with
  | constraint i => simp [keyPlaces, tupleAt?, List.mem_zipIdx_iff_getElem?, Option.bind_eq_some_iff]
  | clause i j => simp [keyPlaces, tupleAt?, List.mem_zipIdx_iff_getElem?, Option.bind_eq_some_iff]

theorem map_fst_keyPlaces : t.keyPlaces.map Prod.fst = t.keyTuples := by
  unfold keyPlaces keyTuples
  rw [List.map_append, List.map_filterMap, List.map_flatMap]
  conv_rhs => rw [← filterMap_zipIdx_fst, ← flatMap_zipIdx_fst]
  congr 1
  · congr 1
    funext entry
    simp [Function.comp_def]
  · congr 1
    funext entry
    rw [List.map_filterMap]
    conv_rhs => rw [← filterMap_zipIdx_fst]
    simp [Function.comp_def]

theorem mapKeys_mapKeys (f g : KeyPlace → Key → Key) :
    (t.mapKeys f).mapKeys g = t.mapKeys fun place key => g place (f place key) := by
  simp [mapKeys, Function.comp_def]

theorem mapKeys_self : (t.mapKeys fun _ key => key) = t := by
  simp [mapKeys]

theorem modifyKey_eq (f : Key → Key) (place : KeyPlace) :
    t.modifyKey f place = t.mapKeys fun p key => if p = place then f key else key := by
  cases place with
  | constraint i => simp [modifyKey, mapKeys, modify_eq_mapIdx]
  | clause i j =>
    have hcolumn (i' : Nat) (c : Column) :
        (if i' = i then { c with clauses := c.clauses.modify j (ColumnClause.mapKey f) } else c) =
          { c with clauses := c.clauses.mapIdx fun j' m =>
              if i' = i ∧ j' = j then m.mapKey f else m } := by
      by_cases h : i' = i <;> simp [modify_eq_mapIdx, h]
    rw [modifyKey, modify_eq_mapIdx, funext fun i' => funext (hcolumn i')]
    simp [mapKeys]

theorem keyPlaces_mapKeys (f : KeyPlace → Key → Key) : (t.mapKeys f).keyPlaces = t.keyPlaces := by
  simp only [keyPlaces, mapKeys, zipIdx_mapIdx, List.filterMap_map, List.flatMap_map,
    TableConstraint.keyColumns?_mapKey, ColumnClause.key?_mapKey, Function.comp_def, Option.map_map]

theorem map_name_mapKeys (f : KeyPlace → Key → Key) :
    (t.mapKeys f).columns.map Column.name = t.columns.map Column.name := by
  apply map_mapIdx
  intro i c
  rfl

theorem keyTuples_mapKeys (f : KeyPlace → Key → Key) : (t.mapKeys f).keyTuples = t.keyTuples := by
  rw [← map_fst_keyPlaces, keyPlaces_mapKeys, map_fst_keyPlaces]

theorem keyPlace?_mapKeys (f : KeyPlace → Key → Key) (columns : List String) :
    (t.mapKeys f).keyPlace? columns = t.keyPlace? columns := by
  rw [keyPlace?, keyPlaces_mapKeys, keyPlace?]

theorem keyAt?_mapKeys (f : KeyPlace → Key → Key) (place : KeyPlace) :
    (t.mapKeys f).keyAt? place = (t.keyAt? place).map (f place) := by
  cases place with
  | constraint i => cases h : t.constraints[i]? <;> simp [keyAt?, mapKeys, h]
  | clause i j =>
    cases h : t.columns[i]? with
    | none => simp [keyAt?, mapKeys, h]
    | some c => cases hm : c.clauses[j]? <;> simp [keyAt?, mapKeys, h, hm]

variable {t} {columns : List String} {place : KeyPlace}

/-- The place that is found for a list of columns makes just these columns unique. -/
theorem tupleAt?_of_keyPlace? (h : t.keyPlace? columns = some place) :
    t.tupleAt? place = some (columns.map Text.lower) := by
  obtain ⟨entry, hentry, rfl⟩ := Option.map_eq_some_iff.mp h
  have htuple : entry.1 = columns.map Text.lower := by simpa using List.find?_some hentry
  rw [← htuple, ← mem_keyPlaces]
  exact List.mem_reverse.mp (List.mem_of_find?_eq_some hentry)

/-- One place is found for two lists of columns just if they are the same in lower case. -/
theorem keyPlace?_eq_some_iff {columns' : List String} (h : t.keyPlace? columns = some place) :
    t.keyPlace? columns' = some place ↔ columns'.map Text.lower = columns.map Text.lower := by
  constructor
  · intro h'
    have htuple := (tupleAt?_of_keyPlace? h').symm.trans (tupleAt?_of_keyPlace? h)
    exact Option.some.inj htuple
  · intro hsame
    rw [← h, keyPlace?, keyPlace?, hsame]

theorem keyPlace?_isSome :
    (t.keyPlace? columns).isSome = true ↔ columns.map Text.lower ∈ t.keyTuples := by
  rw [keyPlace?, Option.isSome_map, List.find?_isSome, ← map_fst_keyPlaces]
  simp

theorem keyAt?_of_tupleAt? {tuple : List String} (h : t.tupleAt? place = some tuple) :
    ∃ key, t.keyAt? place = some key := by
  cases place with
  | constraint i =>
    obtain ⟨c, hc, hcolumns⟩ := Option.bind_eq_some_iff.mp h
    cases c <;> simp [TableConstraint.keyColumns?] at hcolumns <;>
      simp [keyAt?, hc, TableConstraint.key?]
  | clause i j =>
    obtain ⟨c, hc, hclause⟩ := Option.bind_eq_some_iff.mp h
    obtain ⟨m, hm, hkey⟩ := Option.bind_eq_some_iff.mp hclause
    obtain ⟨key, hkey, -⟩ := Option.map_eq_some_iff.mp hkey
    exact ⟨key, by simp [keyAt?, hc, hm, hkey]⟩

end Table

/-! ## Indexes taken up by keys -/

/-- What a storage option of an index becomes as an option of a clause: its tablespace is that of
the index of the clause, and any other option stays as it is. -/
inductive Storage.PassesTo : Storage → Storage → Prop where
  | tablespace (name : String) : PassesTo (.tablespace name) (.indexTablespace name)
  | other {option : Storage} (h : ∀ name, option ≠ .tablespace name) : PassesTo option option

/-- The storage options of an index, as options of a clause. -/
def Index.keyStorage (i : Index) : List Storage :=
  i.storage.map fun
    | .tablespace name => .indexTablespace name
    | option => option

theorem Index.keyStorage_eq (i : Index) : i.keyStorage = i.storage.map .ofIndex := rfl

theorem Index.passesTo_keyStorage (i : Index) :
    List.Forall₂ Storage.PassesTo i.storage i.keyStorage := by
  rw [keyStorage, List.forall₂_map_right_iff, List.forall₂_same]
  intro option _
  cases option with
  | tablespace name => exact .tablespace name
  | _ => exact .other (by simp)

theorem Index.passesTo_flatMap (indexes : List Index) :
    List.Forall₂ Storage.PassesTo (indexes.flatMap Index.storage) (indexes.flatMap keyStorage) := by
  induction indexes with
  | nil => exact .nil
  | cons i indexes ih => exact List.rel_append i.passesTo_keyStorage ih

namespace Table

variable (t : Table)

/-- A table whose primary keys and uniqueness clauses have the storage options of some indexes.
Those of an index go to the place that is found for its columns. -/
def grown (indexes : List Index) : Table :=
  t.mapKeys fun place key =>
    { key with storage := key.storage ++
        (indexes.filter fun i => t.keyPlace? i.columns == some place).flatMap Index.keyStorage }

/-- What is noted of an index whose table has a clause on the same columns. -/
def redundantNote? (i : Index) : Option Warning :=
  (t.keyPlace? i.columns).bind fun place => (t.keyAt? place).map fun key =>
    ⟨.redundantIndex, [i.name, key.name.getD Warning.anonymous, t.name]⟩

@[simp] theorem grown_nil : t.grown [] = t := by
  simp [grown, mapKeys_self]

theorem grown_append (xs ys : List Index) : t.grown (xs ++ ys) = (t.grown xs).grown ys := by
  conv_rhs => rw [grown, grown, mapKeys_mapKeys]
  simp [grown, keyPlace?_mapKeys]

@[simp] theorem name_grown (xs : List Index) : (t.grown xs).name = t.name := rfl

theorem map_name_grown (xs : List Index) :
    (t.grown xs).columns.map Column.name = t.columns.map Column.name :=
  t.map_name_mapKeys _

theorem keyTuples_grown (xs : List Index) : (t.grown xs).keyTuples = t.keyTuples :=
  t.keyTuples_mapKeys _

theorem keyPlace?_grown (xs : List Index) (columns : List String) :
    (t.grown xs).keyPlace? columns = t.keyPlace? columns :=
  t.keyPlace?_mapKeys _ columns

theorem redundantNote?_grown (xs : List Index) : (t.grown xs).redundantNote? = t.redundantNote? := by
  funext i
  simp only [redundantNote?, grown, keyPlace?_mapKeys, keyAt?_mapKeys, Option.map_map]
  rfl

variable {t} {place : KeyPlace}

/-- A clause has grown by the storage options of the indexes on its columns, in their order. -/
theorem keyAt?_grown {columns : List String} {key : Key} (h : t.keyPlace? columns = some place)
    (hkey : t.keyAt? place = some key) (indexes : List Index) :
    (t.grown indexes).keyAt? place = some { key with
      storage := key.storage ++ (indexes.filter fun i =>
        i.columns.map Text.lower = columns.map Text.lower).flatMap Index.keyStorage } := by
  have hsame (i : Index) : (t.keyPlace? i.columns == some place) =
      decide (i.columns.map Text.lower = columns.map Text.lower) := by
    rw [Bool.eq_iff_iff, beq_iff_eq, decide_eq_true_iff, keyPlace?_eq_some_iff h]
  simp only [grown, keyAt?_mapKeys, hkey, Option.map_some, hsame]

theorem modifyKey_grown {i : Index} (h : t.keyPlace? i.columns = some place) :
    t.modifyKey (fun key => { key with storage := key.storage ++ i.storage.map .ofIndex }) place =
      t.grown [i] := by
  rw [modifyKey_eq, grown]
  congr 1
  funext p key
  by_cases hp : p = place
  · simp [h, hp, Index.keyStorage_eq]
  · simp [h, hp, Ne.symm hp]

end Table

/-! ## What becomes of a statement -/

namespace Script

variable (s : Script)

/-- Whether the table of an index has a primary key or uniqueness clause on the same columns. -/
def isRedundant (i : Index) : Bool :=
  (s.lastTable? i.table).any fun t => t.keyTuples.contains (i.columns.map Text.lower)

/-- The superfluous indexes on the table of a name, in order. -/
def redundantOn (name : String) : List Index :=
  s.indexes.filter fun i => Text.sameName i.table name && s.isRedundant i

/-- The superfluous indexes on the table of a name that are on some columns, in order. -/
def redundantOver (name : String) (columns : List String) : List Index :=
  (s.redundantOn name).filter fun i => i.columns.map Text.lower = columns.map Text.lower

end Script

/-- What becomes of a statement of a script, given the statements behind it, when the superfluous
indexes of the script are removed. The last table of a name takes up their storage options. -/
def Statement.kept? (s : Script) (later : List Statement) : Statement → Option Statement
  | .table t =>
    some (.table (if creates tableName? t.name later then t else t.grown (s.redundantOn t.name)))
  | .index i => if s.isRedundant i then none else some (.index i)
  | st => some st

/-- What is noted of a statement of a script when the superfluous indexes of the script are
removed. -/
def Statement.redundantNote? (s : Script) : Statement → Option Warning
  | .index i =>
    if s.isRedundant i then (s.lastTable? i.table).bind fun t => t.redundantNote? i else none
  | _ => none

/-! ## The removal of superfluous indexes -/

namespace Script

variable (s : Script)

/-- The folding of superfluous indexes into the tables of a script. -/
def redundancies : Folding where
  target?
    | .index i => if s.isRedundant i then s.catalog.table? i.table else none
    | _ => none
  into r x :=
    match r with
    | .table t => .table (t.grown x.index?.toList)
    | r => r
  rest? _ := none
  note? r x := r.table?.bind fun t => x.index?.bind t.redundantNote?

@[simp] theorem target?_index (i : Index) : s.redundancies.target? (.index i) =
    if s.isRedundant i then s.catalog.table? i.table else none := rfl

theorem sound_redundancies : s.redundancies.Sound s.statements where
  stays {st q} h := by
    cases st <;> simp only [redundancies, reduceCtorEq] at h
    split at h
    · obtain ⟨t, ht, -, -⟩ := catalog_table?.mp h
      exact ⟨_, ht, rfl⟩
    · cases h
  note_into r x st := by
    cases r with
    | table t => simp [redundancies, Statement.table?, Table.redundantNote?_grown]
    | _ => rfl

theorem foldl_into_grown (xs : List Statement) (t : Table) :
    xs.foldl s.redundancies.into (.table t) = .table (t.grown (xs.filterMap Statement.index?)) :=
  Folding.foldl_into Table.grown_nil Table.grown_append (fun _ _ => rfl) xs t

theorem slots_grown {p : Nat} {t : Table} (ht : s.statements[p]? = some (.table t)) (k : Nat) :
    (s.redundancies.slots s.statements k)[p]? = some (some (.table (t.grown
      ((s.redundancies.folded p (s.statements.take k)).filterMap Statement.index?)))) := by
  rw [Folding.getElem?_slots, ht, ← foldl_into_grown]
  rfl

theorem slots_kept {k : Nat} {st : Statement} (hst : s.statements[k]? = some st)
    (h : st.table? = none) : (s.redundancies.slots s.statements k)[k]? = some (some st) := by
  rw [Folding.getElem?_slots, hst, Option.map_some, Folding.slotAt]
  cases s.redundancies.target? st with
  | none =>
    have hself : ∀ x, s.redundancies.into st x = st := by
      intro x
      cases st <;> first | rfl | cases h
    rw [Folding.foldl_into_self hself]
  | some q => rw [if_neg (Nat.lt_irrefl k)]

theorem isRedundant_eq {i : Index} {q : Nat} {t : Table} (hq : s.catalog.table? i.table = some q)
    (ht : s.statements[q]? = some (.table t)) :
    s.isRedundant i = (t.keyPlace? i.columns).isSome := by
  rw [isRedundant, lastTable?_eq, hq, Option.bind_some, ht, Bool.eq_iff_iff, Table.keyPlace?_isSome]
  simp [Statement.table?]

/-- Under the position of a table, the columns that it makes unique are found. -/
theorem lookup_keyMap (statements : List Statement) (start q : Nat) :
    ((statements.zipIdx start).filterMap fun (st, position) =>
      st.table?.map fun t => (position, t.keyPlaces)).lookup (start + q) =
        (statements[q]?.bind Statement.table?).map Table.keyPlaces := by
  induction statements generalizing start q with
  | nil => rfl
  | cons st later ih =>
    have hlater := ih (start + 1)
    rw [List.zipIdx_cons]
    cases q with
    | zero =>
      -- what is behind the statement stands at a later position
      have hnone : ((later.zipIdx (start + 1)).filterMap fun (st, position) =>
          st.table?.map fun t => (position, t.keyPlaces)).lookup start = none := by
        rw [List.lookup_eq_none_iff]
        intro entry hentry
        obtain ⟨⟨st, position⟩, hst, hmap⟩ := List.mem_filterMap.mp hentry
        obtain ⟨t, -, rfl⟩ := Option.map_eq_some_iff.mp hmap
        have hle := (List.mem_zipIdx hst).1
        simpa using (by omega : start ≠ position)
      cases hst : st.table? <;> simp [hst, hnone]
    | succ q =>
      have hne : (start + (q + 1) == start) = false := by simp
      rw [List.getElem?_cons_succ, ← hlater, Nat.add_assoc, Nat.add_comm 1]
      cases hst : st.table? <;> simp [hst, List.lookup_cons, hne]

theorem place?_keyMap {q : Nat} {t : Table} (ht : s.statements[q]? = some (.table t))
    (columns : List String) : s.keyMap.place? q columns = t.keyPlace? columns := by
  have hplaces := lookup_keyMap s.statements 0 q
  rw [Nat.zero_add, ht] at hplaces
  rw [KeyMap.place?, keyMap, hplaces]
  rfl

theorem dropIndexAt_of_none (catalog : Catalog) (keys : KeyMap) {slots : Slots} {k : Nat}
    (h : slots.index? k = none) : slots.dropIndexAt catalog keys k = ⟨slots, []⟩ := by
  rw [Slots.dropIndexAt, h]

/-- The index at a position, whose table and clause are found. -/
theorem dropIndexAt_of_some {catalog : Catalog} {keys : KeyMap} {slots : Slots} {k q : Nat}
    {i : Index} {t : Table} {place : KeyPlace} {key : Key} (hi : slots.index? k = some i)
    (hq : catalog.table? i.table = some q) (hplace : keys.place? q i.columns = some place)
    (hne : k ≠ q) (ht : slots.table? q = some t) (hgrown : t.keyPlace? i.columns = some place)
    (hkey : t.keyAt? place = some key) : slots.dropIndexAt catalog keys k =
      ⟨(slots.set k none).set q (some (.table (t.grown [i]))), (t.redundantNote? i).toList⟩ := by
  have hothers : Slots.table? (slots.set k none) q = some t := by
    rw [← ht, Slots.table?, Slots.table?, List.getElem?_set_ne hne]
  simp only [Slots.dropIndexAt, hi, hq, hplace, hothers, hkey, Table.modifyKey_grown hgrown,
    Table.redundantNote?, hgrown, Option.bind_some, Option.map_some, Option.toList_some]

theorem dropIndexAt_slots {k : Nat} {st : Statement} (hst : s.statements[k]? = some st) :
    Slots.dropIndexAt s.catalog s.keyMap (s.redundancies.slots s.statements k) k =
      s.redundancies.step (s.redundancies.slots s.statements k) k st := by
  cases st with
  | table t =>
    have hindex : (s.redundancies.slots s.statements k).index? k = none := by
      rw [Slots.index?, slots_grown s hst]
    rw [dropIndexAt_of_none _ _ hindex, Folding.step_of_none rfl]
  | index i =>
    have hindex : (s.redundancies.slots s.statements k).index? k = some i := by
      rw [Slots.index?, slots_kept s hst rfl]
    cases hq : s.catalog.table? i.table with
    | none =>
      rw [Folding.step_of_none (by simp [hq]), Slots.dropIndexAt]
      simp only [hindex, hq]
    | some q =>
      obtain ⟨t, ht, -, -⟩ := catalog_table?.mp hq
      have hkeys := place?_keyMap s ht i.columns
      have hredundant := isRedundant_eq s hq ht
      cases hplace : t.keyPlace? i.columns with
      | none =>
        rw [hplace, Option.isSome_none] at hredundant
        rw [hplace] at hkeys
        rw [Folding.step_of_none (by simp [hredundant]), Slots.dropIndexAt]
        simp only [hindex, hq, hkeys]
      | some place =>
        rw [hplace, Option.isSome_some] at hredundant
        have hne : k ≠ q := by
          rintro rfl
          simp [hst] at ht
        -- indexes that were taken out before have left the clause where it was
        have htable := slots_grown s ht k
        have hgrown := (t.keyPlace?_grown ((s.redundancies.folded q
          (s.statements.take k)).filterMap Statement.index?) i.columns).trans hplace
        obtain ⟨key, hkey⟩ := Table.keyAt?_of_tupleAt? (Table.tupleAt?_of_keyPlace? hgrown)
        have hdrop := dropIndexAt_of_some hindex hq (hkeys.trans hplace) hne
          (by rw [Slots.table?, htable]) hgrown hkey
        rw [hdrop, Folding.step_of_some (by simp [hredundant, hq]) htable, List.set_comm _ _ hne]
        rfl
  | _ =>
    have hindex : (s.redundancies.slots s.statements k).index? k = none := by
      rw [Slots.index?, slots_kept s hst rfl]
    rw [dropIndexAt_of_none _ _ hindex, Folding.step_of_none rfl]

/-- The last table of a name takes up the superfluous indexes on it, and an earlier one none. -/
theorem filterMap_folded_grown {p : Nat} {t : Table} (ht : s.statements[p]? = some (.table t)) :
    (s.redundancies.folded p s.statements).filterMap Statement.index? =
      if creates Statement.tableName? t.name (s.statements.drop (p + 1)) then []
      else s.redundantOn t.name := by
  have hat (i : Index) : ((if s.isRedundant i then s.catalog.table? i.table else none) == some p) =
      ((Text.sameName i.table t.name && s.isRedundant i) &&
        !creates Statement.tableName? t.name (s.statements.drop (p + 1))) := by
    rw [Bool.eq_iff_iff, beq_iff_eq]
    split
    · rename_i hredundant
      rw [catalog_table?_eq_at ht]
      simp [Text.sameName, hredundant]
    · rename_i hredundant
      simp [hredundant]
  rw [Folding.filterMap_folded (fun _ _ => Statement.index?_eq_some.mp), redundantOn, indexes]
  simp only [target?_index, hat]
  cases creates Statement.tableName? t.name (s.statements.drop (p + 1)) <;> simp

theorem catalog_of_isRedundant {i : Index} (h : s.isRedundant i = true) :
    ∃ q, s.catalog.table? i.table = some q := by
  rw [isRedundant, lastTable?_eq] at h
  cases hq : s.catalog.table? i.table with
  | none => simp [hq] at h
  | some q => exact ⟨q, rfl⟩

/-- What stands at a position at last, where a statement stood. -/
theorem slotAt_redundancies {p : Nat} {st : Statement} (hst : s.statements[p]? = some st) :
    s.redundancies.slotAt s.statements s.statements.length p st =
      st.kept? s (s.statements.drop (p + 1)) := by
  have hp : p < s.statements.length := (List.getElem?_eq_some_iff.mp hst).1
  have hnone : s.redundancies.target? st = none →
      s.redundancies.slotAt s.statements s.statements.length p st =
        some ((s.redundancies.folded p s.statements).foldl s.redundancies.into st) := by
    intro h
    rw [Folding.slotAt, h, List.take_length]
  cases st with
  | table t =>
    rw [hnone rfl, foldl_into_grown, filterMap_folded_grown s hst, Statement.kept?]
    split <;> simp
  | index i =>
    rw [Statement.kept?]
    split
    · rename_i hredundant
      obtain ⟨q, hq⟩ := s.catalog_of_isRedundant hredundant
      rw [Folding.slotAt, target?_index, if_pos hredundant, hq]
      simp [hp, redundancies]
    · rename_i hredundant
      rw [hnone (by simp [hredundant]), Folding.foldl_into_self (fun _ => rfl)]
  | _ =>
    rw [hnone rfl, Folding.foldl_into_self (fun _ => rfl)]
    rfl

theorem noteOf_redundancies :
    s.redundancies.noteOf s.statements = Statement.redundantNote? s := by
  funext st
  cases st with
  | index i =>
    rw [Statement.redundantNote?, lastTable?_eq, Folding.noteOf, target?_index]
    cases s.isRedundant i with
    | false => rfl
    | true =>
      cases s.catalog.table? i.table with
      | none => rfl
      | some q => cases h : s.statements[q]? <;> simp [h, redundancies, Statement.index?]
  | _ => rfl

/-- Removing the superfluous indexes of a script comes to what it comes to statement by statement.
-/
theorem dropIndexes_eq : s.dropIndexes =
    ⟨⟨revised (Statement.kept? s) s.statements⟩,
     s.statements.filterMap (Statement.redundantNote? s)⟩ := by
  have hrun : (List.range s.statements.length).foldlM
      (Slots.dropIndexAt s.catalog s.keyMap) s.slots =
      ⟨s.redundancies.slots s.statements s.statements.length,
       s.statements.filterMap (Statement.redundantNote? s)⟩ := by
    have hall : (List.range s.statements.length).filter (fun _ => true) =
        List.range s.statements.length := by simp
    rw [slots, ← noteOf_redundancies, ← hall]
    apply Folding.run_slots s.sound_redundancies
    · intro k st hst _
      exact dropIndexAt_slots s hst
    · intro k st _ hskip
      cases hskip
  have hscript : (s.redundancies.slots s.statements s.statements.length).toScript =
      ⟨revised (Statement.kept? s) s.statements⟩ := by
    unfold Slots.toScript Folding.slots
    rw [filterMap_mapIdx fun p st hst => slotAt_redundancies s hst]
  rw [dropIndexes, hrun]
  simp [bind, pure, hscript]

variable {s} in
/-- An index is superfluous because of a clause of its table on the same columns, and this is noted.
-/
theorem exists_key_of_isRedundant {i : Index} (h : s.isRedundant i = true) :
    ∃ t place key, s.lastTable? i.table = some t ∧ t.keyPlace? i.columns = some place ∧
      t.tupleAt? place = some (i.columns.map Text.lower) ∧ t.keyAt? place = some key ∧
      Statement.redundantNote? s (.index i) =
        some ⟨.redundantIndex, [i.name, key.name.getD Warning.anonymous, t.name]⟩ := by
  have hany := h
  rw [isRedundant, Option.any_eq_true] at hany
  obtain ⟨t, ht, hcontains⟩ := hany
  have hmem : i.columns.map Text.lower ∈ t.keyTuples := by simpa using hcontains
  obtain ⟨place, hplace⟩ := Option.isSome_iff_exists.mp (Table.keyPlace?_isSome.mpr hmem)
  have htuple := Table.tupleAt?_of_keyPlace? hplace
  obtain ⟨key, hkey⟩ := Table.keyAt?_of_tupleAt? htuple
  refine ⟨t, place, key, ht, hplace, htuple, hkey, ?_⟩
  simp [Statement.redundantNote?, h, ht, Table.redundantNote?, hplace, hkey]

variable {s} in
/-- The last table of a name has taken up the superfluous indexes on it. -/
theorem grown_mem_dropIndexes {name : String} {t : Table} (h : s.lastTable? name = some t) :
    .table (t.grown (s.redundantOn t.name)) ∈ s.dropIndexes.value.statements := by
  rw [lastTable?_eq, Option.bind_eq_some_iff] at h
  obtain ⟨q, hq, ht⟩ := h
  obtain ⟨t', ht', hname, hlater⟩ := catalog_table?.mp hq
  obtain rfl : t' = t := by simpa [ht', Statement.table?] using ht
  have hkept : Statement.kept? s (s.statements.drop (q + 1)) (.table t') =
      some (.table (t'.grown (s.redundantOn t'.name))) := by
    rw [Statement.kept?, creates_congr hname, hlater]
    rfl
  have hsplit : s.statements = s.statements.take q ++ .table t' :: s.statements.drop (q + 1) := by
    obtain ⟨hlt, hget⟩ := List.getElem?_eq_some_iff.mp ht'
    rw [← hget, ← List.drop_eq_getElem_cons hlt, List.take_append_drop]
  have hrevised := revised_eq_append_cons.mpr ⟨_, _, _, hsplit, hkept, rfl, rfl⟩
  rw [dropIndexes_eq, hrevised]
  exact List.mem_append_right _ List.mem_cons_self

/-- A script with its changes folded and its constraints put in order. -/
def ordered : Noted Script := s.foldAlterations >>= normalizeTables

theorem revise_best_eq : s.revise .best = s.ordered >>= dropIndexes := by
  simp [revise, ordered]

/-- **Of a script with its changes folded and its constraints put in order, a full revision removes
just the indexes whose table has a primary key or uniqueness clause on the same columns. It notes
each once, in order, gives its storage options to a clause of the table on the same columns, and
keeps everything else.** The clause has them behind its own, in order, those of one index behind
those of the one before. A tablespace becomes the tablespace of the index of the clause, and any
other option stays as it is. -/
theorem revise_best : s.revise .best =
      ⟨⟨revised (Statement.kept? s.ordered.value) s.ordered.value.statements⟩,
       s.ordered.notes ++
         s.ordered.value.statements.filterMap (Statement.redundantNote? s.ordered.value)⟩ ∧
    ∀ i, s.ordered.value.isRedundant i = true →
      ∃ t place key, s.ordered.value.lastTable? i.table = some t ∧
        t.keyPlace? i.columns = some place ∧
        t.tupleAt? place = some (i.columns.map Text.lower) ∧ t.keyAt? place = some key ∧
        Statement.redundantNote? s.ordered.value (.index i) =
          some ⟨.redundantIndex, [i.name, key.name.getD Warning.anonymous, t.name]⟩ ∧
        .table (t.grown (s.ordered.value.redundantOn t.name)) ∈ (s.revise .best).value.statements ∧
        ∃ passed, List.Forall₂ Storage.PassesTo
            ((s.ordered.value.redundantOver t.name i.columns).flatMap Index.storage) passed ∧
          (t.grown (s.ordered.value.redundantOn t.name)).keyAt? place =
            some { key with storage := key.storage ++ passed } := by
  constructor
  · rw [revise_best_eq]
    simp only [bind, dropIndexes_eq]
  · intro i h
    obtain ⟨t, place, key, ht, hplace, htuple, hkey, hnote⟩ := exists_key_of_isRedundant h
    refine ⟨t, place, key, ht, hplace, htuple, hkey, hnote, ?_, _, Index.passesTo_flatMap _, ?_⟩
    · rw [revise_best_eq, Noted.bind_value]
      exact grown_mem_dropIndexes ht
    · exact Table.keyAt?_grown hplace hkey _

/-- An index is superfluous beside a constraint on the same columns, in whatever letters. An index
on a table that is not created is kept, and the constraint takes up the storage options of the
other. -/
theorem revise_best_unique_constraint :
    ∃ (s : Script) (i : Index), .index i ∈ s.statements ∧ s.ordered.value.isRedundant i = true ∧
      s.revise .best = ⟨⟨[
        .index { name := "j", table := "x", columns := ["id"] },
        .table
          { name := "t"
            columns := [⟨"id", "t", [.dataType ⟨"NUMBER", none⟩]⟩,
              ⟨"n", "t", [.dataType ⟨"NUMBER", none⟩]⟩]
            constraints := [.unique ⟨some "u",
              [.tablespace "a", .indexTablespace "b", .logging false]⟩ ["ID", "n"]] }]⟩,
        [⟨.redundantIndex, ["i", "u", "t"]⟩]⟩ ∧
      ∃ t place key, s.ordered.value.lastTable? i.table = some t ∧
        t.keyPlace? i.columns = some place ∧
        t.tupleAt? place = some (i.columns.map Text.lower) ∧ t.keyAt? place = some key ∧
        Statement.redundantNote? s.ordered.value (.index i) =
          some ⟨.redundantIndex, [i.name, key.name.getD Warning.anonymous, t.name]⟩ ∧
        .table (t.grown (s.ordered.value.redundantOn t.name)) ∈ (s.revise .best).value.statements ∧
        ∃ passed, List.Forall₂ Storage.PassesTo
            ((s.ordered.value.redundantOver t.name i.columns).flatMap Index.storage) passed ∧
          (t.grown (s.ordered.value.redundantOn t.name)).keyAt? place =
            some { key with storage := key.storage ++ passed } := by
  refine ⟨⟨[
    .index { name := "j", table := "x", columns := ["id"] },
    .table
      { name := "t"
        columns := [⟨"id", "t", [.dataType ⟨"NUMBER", none⟩]⟩,
          ⟨"n", "t", [.dataType ⟨"NUMBER", none⟩]⟩]
        constraints := [.unique ⟨some "u", [.tablespace "a"]⟩ ["ID", "n"]] },
    .index
      { name := "i", table := "T", columns := ["Id", "N"]
        storage := [.tablespace "b", .logging false] }]⟩,
    { name := "i", table := "T", columns := ["Id", "N"]
      storage := [.tablespace "b", .logging false] },
    by simp, by decide, by decide, ?_⟩
  exact (revise_best _).2 _ (by decide)

end Script

end SchemaScript
