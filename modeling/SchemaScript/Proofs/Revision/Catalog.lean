import SchemaScript.Script.Catalog
import Mathlib.Data.List.Induction

/-!
# What a catalog finds

A catalog leads from a name to the last statement that creates something of that name.

* `creates` — whether some statements create something of a name. What a statement creates is told
  by the name it gives, `Statement.tableName?` or `Statement.indexName?`.
* `Places.find?_ofStatements` — the position under a name is that of the last statement that gives
  it.
* `Script.catalog_table?`, `Script.catalog_index?` — the same of the tables and indexes of a script.
* `Script.lastTable?`, `Script.lastIndex?` — the last table and the last index of a name.
* `Script.catalog_others` — the statements that create nothing, by position.
-/

set_option autoImplicit false

namespace SchemaScript

/-! ## Names -/

namespace Statement

/-- The name of the table that a statement creates. -/
def tableName? (st : Statement) : Option String := st.table?.map Table.name

/-- The name of the index that a statement creates. -/
def indexName? (st : Statement) : Option String := st.index?.map Index.name

/-- Whether a statement creates nothing that is found under its name, nor a synonym. -/
def isOther : Statement → Bool
  | .table _ | .index _ | .sequence _ | .synonym _ => false
  | _ => true

variable {st : Statement}

theorem table?_eq_some {t : Table} : st.table? = some t ↔ st = .table t := by
  cases st <;> simp [table?]

theorem index?_eq_some {i : Index} : st.index? = some i ↔ st = .index i := by
  cases st <;> simp [index?]

end Statement

theorem Script.mem_tables {s : Script} {t : Table} : t ∈ s.tables ↔ .table t ∈ s.statements := by
  simp [tables, Statement.table?_eq_some]

theorem Script.mem_indexes {s : Script} {i : Index} : i ∈ s.indexes ↔ .index i ∈ s.statements := by
  simp [indexes, Statement.index?_eq_some]

/-- Whether some statements create something of a name. -/
def creates (nameOf : Statement → Option String) (name : String) (statements : List Statement) :
    Bool :=
  statements.any fun st => (nameOf st).any fun n => Text.sameName n name

section Creates

variable {nameOf : Statement → Option String} {name : String}

theorem creates_eq_true {statements : List Statement} : creates nameOf name statements = true ↔
    ∃ st ∈ statements, ∃ n, nameOf st = some n ∧ Text.lower n = Text.lower name := by
  simp [creates, Option.any_eq_true, Text.sameName]

theorem creates_eq (statements : List Statement) : creates nameOf name statements =
    (statements.filterMap nameOf).any fun n => Text.sameName n name := by
  induction statements with
  | nil => rfl
  | cons st statements ih =>
    rw [creates, List.any_cons, ← creates, ih]
    cases h : nameOf st <;> simp [h]

@[simp] theorem creates_nil : creates nameOf name [] = false := rfl

theorem creates_append (xs ys : List Statement) :
    creates nameOf name (xs ++ ys) = (creates nameOf name xs || creates nameOf name ys) :=
  List.any_append

theorem creates_congr {name' : String} (h : Text.lower name = Text.lower name')
    (statements : List Statement) :
    creates nameOf name statements = creates nameOf name' statements := by
  simp only [creates, Text.sameName, h]

end Creates

/-! ## Places -/

namespace Places

theorem find?_enter (places : Places) (m name : String) (p : Nat) : (places.enter m p).find? name =
    if Text.lower m = Text.lower name then some p else places.find? name := by
  unfold enter find?
  by_cases h : Text.lower m = Text.lower name
  · rw [if_pos h, ← h, List.lookup_cons_self]
  · have hne : (Text.lower name == Text.lower m) = false := by simpa using Ne.symm h
    rw [if_neg h, List.lookup_cons, hne]
    -- the entries that are taken out are under another name
    induction places with
    | nil => rfl
    | cons entry places ih =>
      rw [List.filter_cons]
      by_cases hentry : entry.1 = Text.lower m
      · have hlook : (Text.lower name == entry.1) = false := hentry ▸ hne
        rw [if_neg (by simpa using hentry), List.lookup_cons, hlook]
        exact ih
      · rw [if_pos (by simpa using hentry), List.lookup_cons, List.lookup_cons]
        cases Text.lower name == entry.1 with
        | true => rfl
        | false => exact ih

/-- The positions of some statements under the names that they give. -/
def ofStatements (nameOf : Statement → Option String) (statements : List Statement) : Places :=
  statements.zipIdx.foldl (fun places (st, p) => ((nameOf st).map (places.enter · p)).getD places) []

variable {nameOf : Statement → Option String} {name : String}

theorem ofStatements_concat (xs : List Statement) (st : Statement) : ofStatements nameOf (xs ++ [st]) =
    ((nameOf st).map ((ofStatements nameOf xs).enter · xs.length)).getD (ofStatements nameOf xs) := by
  unfold ofStatements
  rw [List.zipIdx_append, List.foldl_append, List.zipIdx_singleton, Nat.zero_add]
  rfl

theorem find?_ofStatements_concat (xs : List Statement) (st : Statement) :
    (ofStatements nameOf (xs ++ [st])).find? name =
      if creates nameOf name [st] then some xs.length else (ofStatements nameOf xs).find? name := by
  rw [ofStatements_concat]
  cases hst : nameOf st with
  | none => simp [creates, hst]
  | some n => simp [creates, hst, find?_enter, Text.sameName]

/-- **The position under a name is that of the last statement that gives the name.** -/
theorem find?_ofStatements {statements : List Statement} {p : Nat} :
    (ofStatements nameOf statements).find? name = some p ↔
      ∃ st, statements[p]? = some st ∧ creates nameOf name [st] = true ∧
        creates nameOf name (statements.drop (p + 1)) = false := by
  induction statements using List.reverseRecOn with
  | nil => simp [ofStatements, find?]
  | append_singleton xs last ih =>
    rw [find?_ofStatements_concat]
    rcases Nat.lt_trichotomy p xs.length with hp | rfl | hp
    · have hdrop : (xs ++ [last]).drop (p + 1) = xs.drop (p + 1) ++ [last] :=
        List.drop_append_of_le_length hp
      rw [List.getElem?_append_left hp, hdrop]
      simp only [creates_append]
      cases creates nameOf name [last] with
      | true => simp [Nat.ne_of_gt hp]
      | false => simpa using ih
    · have hnone : (ofStatements nameOf xs).find? name ≠ some xs.length := by
        simp [ih]
      cases hlast : creates nameOf name [last] with
      | true => simp [hlast]
      | false => simp [hlast, hnone]
    · have hnone : (ofStatements nameOf xs).find? name ≠ some p := by
        simp [ih, List.getElem?_eq_none (Nat.le_of_lt hp)]
      have hout : (xs ++ [last])[p]? = none :=
        List.getElem?_eq_none (by rw [List.length_append]; exact hp)
      cases creates nameOf name [last] with
      | true => simp [hout, Nat.ne_of_lt hp]
      | false => simp [hout, hnone]

/-- There is no position under a name just if no statement gives the name. -/
theorem find?_ofStatements_eq_none {statements : List Statement} :
    (ofStatements nameOf statements).find? name = none ↔ creates nameOf name statements = false := by
  induction statements using List.reverseRecOn with
  | nil => simp [ofStatements, find?, creates]
  | append_singleton xs last ih =>
    rw [find?_ofStatements_concat, creates_append]
    cases hlast : creates nameOf name [last] with
    | true => simp
    | false => simpa using ih

end Places

/-! ## Catalogs -/

namespace Script

theorem catalog_concat (xs : List Statement) (st : Statement) :
    Script.catalog ⟨xs ++ [st]⟩ = (Script.catalog ⟨xs⟩).add xs.length st := by
  unfold Script.catalog
  rw [List.zipIdx_append, List.foldl_append, List.zipIdx_singleton, Nat.zero_add]
  rfl

theorem catalog_tables (statements : List Statement) :
    (Script.catalog ⟨statements⟩).tables = Places.ofStatements Statement.tableName? statements := by
  induction statements using List.reverseRecOn with
  | nil => rfl
  | append_singleton xs last ih =>
    rw [catalog_concat, Places.ofStatements_concat, ← ih]
    cases last <;> rfl

theorem catalog_indexes (statements : List Statement) :
    (Script.catalog ⟨statements⟩).indexes = Places.ofStatements Statement.indexName? statements := by
  induction statements using List.reverseRecOn with
  | nil => rfl
  | append_singleton xs last ih =>
    rw [catalog_concat, Places.ofStatements_concat, ← ih]
    cases last <;> rfl

/-- The positions of the statements of one class. One more statement adds its own, if it is in the
class. -/
theorem filter_positions_concat (P : Statement → Bool) (xs : List Statement) (last : Statement) :
    ((List.range (xs ++ [last]).length).filter fun p => (xs ++ [last])[p]?.any P) =
      ((List.range xs.length).filter fun p => xs[p]?.any P) ++ if P last then [xs.length] else [] := by
  have hold : (List.range xs.length).filter (fun p => (xs ++ [last])[p]?.any P) =
      (List.range xs.length).filter fun p => xs[p]?.any P := by
    apply List.filter_congr
    intro p hp
    rw [List.getElem?_append_left (List.mem_range.mp hp)]
  rw [List.length_append, List.length_singleton, List.range_succ, List.filter_append, hold]
  cases h : P last <;> simp [h]

/-- **The other statements are those that create nothing, in order.** -/
theorem catalog_others (statements : List Statement) : (Script.catalog ⟨statements⟩).others =
    (List.range statements.length).filter fun p => statements[p]?.any Statement.isOther := by
  induction statements using List.reverseRecOn with
  | nil => rfl
  | append_singleton xs last ih =>
    rw [catalog_concat, filter_positions_concat, ← ih]
    cases last <;> simp [Catalog.add, Statement.isOther]

variable {s : Script} {name : String} {p : Nat}

theorem catalog_table? : s.catalog.table? name = some p ↔
    ∃ t, s.statements[p]? = some (.table t) ∧ Text.lower t.name = Text.lower name ∧
      creates Statement.tableName? name (s.statements.drop (p + 1)) = false := by
  rw [Catalog.table?, catalog_tables, Places.find?_ofStatements]
  constructor
  · rintro ⟨st, hst, hname, hlater⟩
    cases st <;> simp [creates, Statement.tableName?, Statement.table?, Text.sameName] at hname
    exact ⟨_, hst, hname, hlater⟩
  · rintro ⟨t, ht, hname, hlater⟩
    have hgives : creates Statement.tableName? name [.table t] = true := by
      simp [creates, Statement.tableName?, Statement.table?, Text.sameName, hname]
    exact ⟨_, ht, hgives, hlater⟩

theorem catalog_index? : s.catalog.index? name = some p ↔
    ∃ i, s.statements[p]? = some (.index i) ∧ Text.lower i.name = Text.lower name ∧
      creates Statement.indexName? name (s.statements.drop (p + 1)) = false := by
  rw [Catalog.index?, catalog_indexes, Places.find?_ofStatements]
  constructor
  · rintro ⟨st, hst, hname, hlater⟩
    cases st <;> simp [creates, Statement.indexName?, Statement.index?, Text.sameName] at hname
    exact ⟨_, hst, hname, hlater⟩
  · rintro ⟨i, hi, hname, hlater⟩
    have hgives : creates Statement.indexName? name [.index i] = true := by
      simp [creates, Statement.indexName?, Statement.index?, Text.sameName, hname]
    exact ⟨_, hi, hgives, hlater⟩

theorem catalog_table?_eq_none : s.catalog.table? name = none ↔
    creates Statement.tableName? name s.statements = false := by
  rw [Catalog.table?, catalog_tables, Places.find?_ofStatements_eq_none]

theorem catalog_index?_eq_none : s.catalog.index? name = none ↔
    creates Statement.indexName? name s.statements = false := by
  rw [Catalog.index?, catalog_indexes, Places.find?_ofStatements_eq_none]

theorem catalog_table?_eq_at {t : Table} (ht : s.statements[p]? = some (.table t)) :
    s.catalog.table? name = some p ↔ Text.lower name = Text.lower t.name ∧
      creates Statement.tableName? t.name (s.statements.drop (p + 1)) = false := by
  rw [catalog_table?, ht]
  constructor
  · rintro ⟨t', heq, hname, hlater⟩
    cases heq
    exact ⟨hname.symm, (creates_congr hname _).trans hlater⟩
  · rintro ⟨hname, hlater⟩
    exact ⟨t, rfl, hname.symm, (creates_congr hname _).trans hlater⟩

theorem catalog_index?_eq_at {i : Index} (hi : s.statements[p]? = some (.index i)) :
    s.catalog.index? name = some p ↔ Text.lower name = Text.lower i.name ∧
      creates Statement.indexName? i.name (s.statements.drop (p + 1)) = false := by
  rw [catalog_index?, hi]
  constructor
  · rintro ⟨i', heq, hname, hlater⟩
    cases heq
    exact ⟨hname.symm, (creates_congr hname _).trans hlater⟩
  · rintro ⟨hname, hlater⟩
    exact ⟨i, rfl, hname.symm, (creates_congr hname _).trans hlater⟩

/-- The last table of a name, without regard to letter case. -/
def lastTable? (s : Script) (name : String) : Option Table :=
  (s.tables.filter fun t => Text.sameName t.name name).getLast?

/-- The last index of a name, without regard to letter case. -/
def lastIndex? (s : Script) (name : String) : Option Index :=
  (s.indexes.filter fun i => Text.sameName i.name name).getLast?

section Named

variable {α : Type} {get? : Statement → Option α} {nameOf : α → String}

theorem filter_named_eq_nil {statements : List Statement}
    (h : creates (fun st => (get? st).map nameOf) name statements = false) :
    (statements.filterMap get?).filter (fun a => Text.sameName (nameOf a) name) = [] := by
  rw [List.filter_eq_nil_iff]
  intro a ha hsame
  obtain ⟨st, hmem, hget⟩ := List.mem_filterMap.mp ha
  have hgives : creates (fun st => (get? st).map nameOf) name statements = true :=
    creates_eq_true.mpr ⟨st, hmem, nameOf a, by simp [hget], by simpa [Text.sameName] using hsame⟩
  exact absurd hgives (by simp [h])

/-- What the last statement of a name creates is the last of what statements of the name create. -/
theorem getLast?_named {statements : List Statement} {st : Statement} {a : α}
    (hst : statements[p]? = some st) (ha : get? st = some a)
    (hname : Text.lower (nameOf a) = Text.lower name)
    (hlater : creates (fun st => (get? st).map nameOf) name (statements.drop (p + 1)) = false) :
    ((statements.filterMap get?).filter fun a => Text.sameName (nameOf a) name).getLast? = some a := by
  obtain ⟨hlt, rfl⟩ := List.getElem?_eq_some_iff.mp hst
  have hsplit : statements = statements.take p ++ statements[p] :: statements.drop (p + 1) := by
    rw [List.getElem_cons_drop, List.take_append_drop]
  rw [hsplit, List.filterMap_append, List.filterMap_cons, ha, List.filter_append,
    List.filter_cons_of_pos (by simpa [Text.sameName] using hname), filter_named_eq_nil hlater]
  simp

end Named

theorem lastTable?_eq (s : Script) (name : String) : s.lastTable? name =
    (s.catalog.table? name).bind fun p => s.statements[p]?.bind Statement.table? := by
  cases hp : s.catalog.table? name with
  | none =>
    have hnil := filter_named_eq_nil (catalog_table?_eq_none.mp hp)
    simp only [lastTable?, tables, hnil]
    rfl
  | some p =>
    obtain ⟨t, ht, hname, hlater⟩ := catalog_table?.mp hp
    rw [Option.bind_some, ht]
    exact getLast?_named ht rfl hname hlater

theorem lastIndex?_eq (s : Script) (name : String) : s.lastIndex? name =
    (s.catalog.index? name).bind fun p => s.statements[p]?.bind Statement.index? := by
  cases hp : s.catalog.index? name with
  | none =>
    have hnil := filter_named_eq_nil (catalog_index?_eq_none.mp hp)
    simp only [lastIndex?, indexes, hnil]
    rfl
  | some p =>
    obtain ⟨i, hi, hname, hlater⟩ := catalog_index?.mp hp
    rw [Option.bind_some, hi]
    exact getLast?_named hi rfl hname hlater

end Script

end SchemaScript
