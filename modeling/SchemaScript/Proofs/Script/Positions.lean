import Mathlib.Order.Bounds.Basic
import SchemaScript.Proofs.Revision.Catalog

/-!
# The positions of a catalog

A catalog sorts the positions of a script into five groups, and finds the last statement of a name.

* `Catalog.groups` — the positions of tables, indexes, sequences, synonyms and other statements.
* `Script.CreatesAt` — whether the statement at a position creates something of a name.
* `Places.find?_eq_some_iff` — what is found under a name is the greatest position that creates it.
* `Places.mem_positions` — the positions that are held are those whose name is not given again.
* `Script.mem_group` — a group holds the positions of its statements, but for those that are
  replaced.
* `Script.catalog_positions` — what the groups and the lookups of a catalog are.
-/

set_option autoImplicit false

namespace SchemaScript

/-- The name of the sequence that a statement creates. -/
def Statement.sequenceName? (st : Statement) : Option String := st.sequence?.map Sequence.name

/-- The positions of tables, indexes, sequences, synonyms and other statements. -/
def Catalog.groups (c : Catalog) : List (List Nat) :=
  [c.tables.map Prod.snd, c.indexes.map Prod.snd, c.sequences.map Prod.snd, c.synonyms, c.others]

/-- Whether the statement at a position creates something of a name. -/
def Script.CreatesAt (s : Script) (nameOf : Statement → Option String) (name : String) (p : Nat) :
    Prop :=
  ∃ n, s.statements[p]?.bind nameOf = some n ∧ Text.sameName n name

/-! ## Lookups -/

section Lookup

variable {nameOf : Statement → Option String} {statements : List Statement} {name : String} {p : Nat}

theorem creates_singleton {st : Statement} :
    creates nameOf name [st] = true ↔ ∃ n, nameOf st = some n ∧ Text.sameName n name := by
  simp [creates, Option.any_eq_true]

theorem creates_drop_eq_false : creates nameOf name (statements.drop p) = false ↔
    ∀ q, p ≤ q → ¬ Script.CreatesAt ⟨statements⟩ nameOf name q := by
  constructor
  · rintro h q hq ⟨n, hn, hsame⟩
    obtain ⟨st, hst, hname⟩ := Option.bind_eq_some_iff.mp hn
    have hmem : st ∈ statements.drop p := by
      refine List.mem_iff_getElem?.mpr ⟨q - p, ?_⟩
      rw [List.getElem?_drop, Nat.add_sub_cancel' hq]
      exact hst
    have hcreates : creates nameOf name (statements.drop p) = true :=
      creates_eq_true.mpr ⟨st, hmem, n, hname, by simpa using hsame⟩
    rw [h] at hcreates
    cases hcreates
  · intro h
    rw [Bool.eq_false_iff]
    intro hcreates
    obtain ⟨st, hmem, n, hname, hsame⟩ := creates_eq_true.mp hcreates
    obtain ⟨i, hi⟩ := List.mem_iff_getElem?.mp hmem
    rw [List.getElem?_drop] at hi
    exact h (p + i) (by omega) ⟨n, Option.bind_eq_some_iff.mpr ⟨st, hi, hname⟩, by simpa using hsame⟩

/-- Names differ if no name is given again. -/
theorem nodup_names_iff : ((statements.filterMap nameOf).map Text.lower).Nodup ↔
    ∀ p n, statements[p]?.bind nameOf = some n →
      creates nameOf n (statements.drop (p + 1)) = false := by
  induction statements with
  | nil => simp
  | cons st statements ih =>
    rw [← Nat.and_forall_add_one]
    simp only [List.getElem?_cons_zero, List.getElem?_cons_succ, List.drop_succ_cons, List.drop_zero,
      Option.bind_some, ← ih]
    cases hst : nameOf st with
    | none => simp [hst]
    | some m =>
      have hfresh : Text.lower m ∉ (statements.filterMap nameOf).map Text.lower ↔
          creates nameOf m statements = false := by
        rw [Bool.eq_false_iff, ne_eq, creates_eq_true, List.mem_map]
        refine not_congr ⟨?_, ?_⟩
        · rintro ⟨n, hn, hsame⟩
          obtain ⟨st', hmem, hname⟩ := List.mem_filterMap.mp hn
          exact ⟨st', hmem, n, hname, hsame⟩
        · rintro ⟨st', hmem, n, hname, hsame⟩
          exact ⟨n, List.mem_filterMap.mpr ⟨st', hmem, hname⟩, hsame⟩
      rw [List.filterMap_cons_some hst, List.map_cons, List.nodup_cons, hfresh]
      simp

namespace Places

/-- **What is found under a name is the greatest position that creates something of the name.** -/
theorem find?_eq_some_iff : (ofStatements nameOf statements).find? name = some p ↔
    IsGreatest {q | Script.CreatesAt ⟨statements⟩ nameOf name q} p := by
  rw [find?_ofStatements]
  constructor
  · rintro ⟨st, hst, hgives, hlater⟩
    obtain ⟨n, hname, hsame⟩ := creates_singleton.mp hgives
    refine ⟨⟨n, Option.bind_eq_some_iff.mpr ⟨st, hst, hname⟩, hsame⟩, fun q hq => ?_⟩
    exact Nat.not_lt.mp fun hpq => creates_drop_eq_false.mp hlater q hpq hq
  · rintro ⟨⟨n, hn, hsame⟩, hgreatest⟩
    obtain ⟨st, hst, hname⟩ := Option.bind_eq_some_iff.mp hn
    refine ⟨st, hst, creates_singleton.mpr ⟨n, hname, hsame⟩, creates_drop_eq_false.mpr ?_⟩
    intro q hq hcreates
    have hle : q ≤ p := hgreatest hcreates
    omega

theorem find?_eq_none_iff : (ofStatements nameOf statements).find? name = none ↔
    ∀ q, ¬ Script.CreatesAt ⟨statements⟩ nameOf name q := by
  have hall : creates nameOf name (statements.drop 0) = false ↔
      ∀ q, 0 ≤ q → ¬ Script.CreatesAt ⟨statements⟩ nameOf name q :=
    creates_drop_eq_false
  rw [List.drop_zero] at hall
  rw [find?_ofStatements_eq_none, hall]
  exact forall_congr' fun q => ⟨fun h => h (Nat.zero_le q), fun h _ => h⟩

theorem mem_enter {places : Places} {m key : String} {q : Nat} : (key, p) ∈ places.enter m q ↔
    (key = Text.lower m ∧ p = q) ∨ ((key, p) ∈ places ∧ key ≠ Text.lower m) := by
  simp [enter]

/-- The entries are what is found under the names. -/
theorem mem_ofStatements {key : String} : (key, p) ∈ ofStatements nameOf statements ↔
    ∃ name, Text.lower name = key ∧ (ofStatements nameOf statements).find? name = some p := by
  induction statements using List.reverseRecOn with
  | nil => simp [ofStatements, find?]
  | append_singleton xs last ih =>
    rw [ofStatements_concat]
    cases hlast : nameOf last with
    | none => simpa using ih
    | some m =>
      simp only [Option.map_some, Option.getD_some, mem_enter, find?_enter, ih]
      constructor
      · rintro (⟨rfl, rfl⟩ | ⟨⟨name, rfl, hfind⟩, hne⟩)
        · exact ⟨m, rfl, if_pos rfl⟩
        · exact ⟨name, rfl, (if_neg (Ne.symm hne)).trans hfind⟩
      · rintro ⟨name, rfl, hfind⟩
        split at hfind
        · rename_i hname
          exact .inl ⟨hname.symm, (Option.some.inj hfind).symm⟩
        · rename_i hname
          exact .inr ⟨⟨name, rfl, hfind⟩, Ne.symm hname⟩

/-- A position is held if its statement gives a name that no later statement gives. -/
theorem mem_positions : p ∈ (ofStatements nameOf statements).map Prod.snd ↔
    ∃ n, statements[p]?.bind nameOf = some n ∧
      creates nameOf n (statements.drop (p + 1)) = false := by
  constructor
  · intro hp
    obtain ⟨⟨key, _⟩, hmem, rfl⟩ := List.mem_map.mp hp
    obtain ⟨name, -, hfind⟩ := mem_ofStatements.mp hmem
    obtain ⟨st, hst, hgives, hlater⟩ := find?_ofStatements.mp hfind
    obtain ⟨n, hname, hsame⟩ := creates_singleton.mp hgives
    refine ⟨n, Option.bind_eq_some_iff.mpr ⟨st, hst, hname⟩, ?_⟩
    rw [creates_congr (Text.sameName_iff.mp hsame)]
    exact hlater
  · rintro ⟨n, hn, hlater⟩
    obtain ⟨st, hst, hname⟩ := Option.bind_eq_some_iff.mp hn
    have hgives : creates nameOf n [st] = true :=
      creates_singleton.mpr ⟨n, hname, Text.sameName_iff.mpr rfl⟩
    have hfind := find?_ofStatements.mpr ⟨st, hst, hgives, hlater⟩
    exact List.mem_map.mpr ⟨_, mem_ofStatements.mpr ⟨n, rfl, hfind⟩, rfl⟩

end Places

end Lookup

/-! ## Groups -/

namespace Script

theorem catalog_sequences (statements : List Statement) : (Script.catalog ⟨statements⟩).sequences =
    Places.ofStatements Statement.sequenceName? statements := by
  induction statements using List.reverseRecOn with
  | nil => rfl
  | append_singleton xs last ih =>
    rw [catalog_concat, Places.ofStatements_concat, ← ih]
    cases last <;> rfl

theorem catalog_synonyms (statements : List Statement) : (Script.catalog ⟨statements⟩).synonyms =
    (List.range statements.length).filter fun p => statements[p]?.any (·.synonym?.isSome) := by
  induction statements using List.reverseRecOn with
  | nil => rfl
  | append_singleton xs last ih =>
    rw [catalog_concat, filter_positions_concat, ← ih]
    cases last <;> simp [Catalog.add, Statement.synonym?]

/-- The positions of one class are in order, and hold the statements of the class. -/
theorem filter_positions (P : Statement → Bool) (statements : List Statement) :
    ((List.range statements.length).filter fun p => statements[p]?.any P).Pairwise (· < ·) ∧
      ∀ p, p ∈ ((List.range statements.length).filter fun p => statements[p]?.any P) ↔
        ∃ st, statements[p]? = some st ∧ P st := by
  refine ⟨List.pairwise_lt_range.filter _, fun p => ?_⟩
  rw [List.mem_filter, List.mem_range, Option.any_eq_true]
  constructor
  · exact fun h => h.2
  · rintro ⟨st, hst, hP⟩
    exact ⟨(List.getElem?_eq_some_iff.mp hst).1, st, hst, hP⟩

end Script

namespace Statement

/-- The place among the groups of a catalog where a statement belongs. -/
def groupIndex : Statement → Nat
  | .table _ => 0
  | .index _ => 1
  | .sequence _ => 2
  | .synonym _ => 3
  | _ => 4

/-- The name that a catalog enters a statement under. -/
def entryName? : Statement → Option String
  | .table t => some t.name
  | .index i => some i.name
  | .sequence s => some s.name
  | _ => none

/-- The name that a catalog enters a statement of one group under. -/
def nameInGroup? (i : Nat) (st : Statement) : Option String :=
  if st.groupIndex = i then st.entryName? else none

theorem entryName?_isSome (st : Statement) : st.entryName?.isSome ↔ st.groupIndex < 3 := by
  cases st <;> simp [entryName?, groupIndex]

theorem synonym?_isSome (st : Statement) : st.synonym?.isSome ↔ st.groupIndex = 3 := by
  cases st <;> simp [synonym?, groupIndex]

theorem isOther_iff (st : Statement) : st.isOther ↔ st.groupIndex = 4 := by
  cases st <;> simp [isOther, groupIndex]

theorem nameInGroup?_eq_some {i : Nat} {st : Statement} {n : String} :
    nameInGroup? i st = some n ↔ st.groupIndex = i ∧ st.entryName? = some n := by
  simp [nameInGroup?]

theorem tableName?_eq : tableName? = nameInGroup? 0 := by
  funext st
  cases st <;> rfl

theorem indexName?_eq : indexName? = nameInGroup? 1 := by
  funext st
  cases st <;> rfl

theorem sequenceName?_eq : sequenceName? = nameInGroup? 2 := by
  funext st
  cases st <;> rfl

end Statement

namespace Script

variable {s : Script} {p i : Nat} {name : String} {st : Statement}

/-- Whether a later statement of the same group takes the place of the statement at a position. -/
def Replaces (s : Script) (p : Nat) (st : Statement) : Prop :=
  ∃ n, st.entryName? = some n ∧
    creates (Statement.nameInGroup? st.groupIndex) n (s.statements.drop (p + 1)) = true

theorem mem_named (hi : i < 3) :
    p ∈ (Places.ofStatements (Statement.nameInGroup? i) s.statements).map Prod.snd ↔
      ∃ st, s.statements[p]? = some st ∧ st.groupIndex = i ∧ ¬ s.Replaces p st := by
  rw [Places.mem_positions]
  constructor
  · rintro ⟨n, hn, hlater⟩
    obtain ⟨st, hst, hname⟩ := Option.bind_eq_some_iff.mp hn
    obtain ⟨rfl, hentry⟩ := Statement.nameInGroup?_eq_some.mp hname
    refine ⟨st, hst, rfl, ?_⟩
    rintro ⟨n', hentry', hreplaced⟩
    obtain rfl := Option.some.inj (hentry.symm.trans hentry')
    rw [hlater] at hreplaced
    cases hreplaced
  · rintro ⟨st, hst, rfl, hkept⟩
    obtain ⟨n, hn⟩ := Option.isSome_iff_exists.mp (st.entryName?_isSome.mpr hi)
    refine ⟨n, ?_, ?_⟩
    · exact Option.bind_eq_some_iff.mpr ⟨st, hst, Statement.nameInGroup?_eq_some.mpr ⟨rfl, hn⟩⟩
    · rw [Bool.eq_false_iff]
      exact fun hreplaced => hkept ⟨n, hn, hreplaced⟩

theorem mem_listed {P : Statement → Bool} (hP : ∀ st : Statement, P st ↔ st.groupIndex = i)
    (hi : 3 ≤ i) :
    p ∈ ((List.range s.statements.length).filter fun p => s.statements[p]?.any P) ↔
      ∃ st, s.statements[p]? = some st ∧ st.groupIndex = i ∧ ¬ s.Replaces p st := by
  rw [(filter_positions P s.statements).2 p]
  refine exists_congr fun st => and_congr_right fun _ => ?_
  rw [hP, iff_self_and]
  rintro rfl ⟨n, hn, -⟩
  have hlt := st.entryName?_isSome.mp (hn ▸ rfl)
  omega

/-- **A group holds the positions of the statements that belong in it and are not replaced.** -/
theorem mem_group {group : List Nat} (hi : s.catalog.groups[i]? = some group) :
    p ∈ group ↔ ∃ st, s.statements[p]? = some st ∧ st.groupIndex = i ∧ ¬ s.Replaces p st := by
  rcases i with _ | _ | _ | _ | _ | i
  · cases hi
    rw [catalog_tables, Statement.tableName?_eq]
    exact mem_named (by decide)
  · cases hi
    rw [catalog_indexes, Statement.indexName?_eq]
    exact mem_named (by decide)
  · cases hi
    rw [catalog_sequences, Statement.sequenceName?_eq]
    exact mem_named (by decide)
  · cases hi
    rw [catalog_synonyms]
    exact mem_listed Statement.synonym?_isSome (by decide)
  · cases hi
    rw [catalog_others]
    exact mem_listed Statement.isOther_iff (by decide)
  · cases hi

theorem pairwise_disjoint_groups (s : Script) : s.catalog.groups.Pairwise List.Disjoint := by
  rw [List.pairwise_iff_getElem]
  intro i j hi hj hlt p hpi hpj
  obtain ⟨st, hst, hindex, -⟩ := (mem_group (List.getElem?_eq_getElem hi)).mp hpi
  obtain ⟨st', hst', hindex', -⟩ := (mem_group (List.getElem?_eq_getElem hj)).mp hpj
  obtain rfl := Option.some.inj (hst.symm.trans hst')
  omega

/-- A position is in some group if its statement is not replaced. -/
theorem exists_group_iff (hst : s.statements[p]? = some st) :
    (∃ group ∈ s.catalog.groups, p ∈ group) ↔ ¬ s.Replaces p st := by
  constructor
  · rintro ⟨group, hgroup, hp⟩
    obtain ⟨i, hi⟩ := List.mem_iff_getElem?.mp hgroup
    obtain ⟨st', hst', -, hkept⟩ := (mem_group hi).mp hp
    obtain rfl := Option.some.inj (hst.symm.trans hst')
    exact hkept
  · intro hkept
    have hindex : st.groupIndex < s.catalog.groups.length := by
      cases st <;> simp [Statement.groupIndex, Catalog.groups]
    exact ⟨_, List.getElem_mem hindex,
      (mem_group (List.getElem?_eq_getElem hindex)).mpr ⟨st, hst, rfl, hkept⟩⟩

/-- No statement is replaced if the names in each group differ. -/
theorem forall_not_replaces_iff : (∀ p st, s.statements[p]? = some st → ¬ s.Replaces p st) ↔
    ∀ i, ((s.statements.filterMap (Statement.nameInGroup? i)).map Text.lower).Nodup := by
  simp only [nodup_names_iff]
  constructor
  · intro h i p n hn
    obtain ⟨st, hst, hname⟩ := Option.bind_eq_some_iff.mp hn
    obtain ⟨rfl, hentry⟩ := Statement.nameInGroup?_eq_some.mp hname
    rw [Bool.eq_false_iff]
    exact fun hreplaced => h p st hst ⟨n, hentry, hreplaced⟩
  · rintro h p st hst ⟨n, hentry, hreplaced⟩
    have hname : s.statements[p]?.bind (Statement.nameInGroup? st.groupIndex) = some n :=
      Option.bind_eq_some_iff.mpr ⟨st, hst, Statement.nameInGroup?_eq_some.mpr ⟨rfl, hentry⟩⟩
    rw [h _ p n hname] at hreplaced
    cases hreplaced

theorem filterMap_nameInGroup?_eq_nil (hi : 3 ≤ i) :
    s.statements.filterMap (Statement.nameInGroup? i) = [] := by
  rw [List.filterMap_eq_nil_iff]
  intro st _
  rw [Option.eq_none_iff_forall_not_mem]
  intro n hn
  obtain ⟨rfl, hentry⟩ := Statement.nameInGroup?_eq_some.mp hn
  have hlt := st.entryName?_isSome.mp (hentry ▸ rfl)
  omega

theorem nodup_groups_iff :
    (∀ i, ((s.statements.filterMap (Statement.nameInGroup? i)).map Text.lower).Nodup) ↔
      (s.tables.map fun t => Text.lower t.name).Nodup ∧
      (s.indexes.map fun i => Text.lower i.name).Nodup ∧
      (s.sequences.map fun q => Text.lower q.name).Nodup := by
  have hnames : ∀ {α : Type} (get? : Statement → Option α) (nameOf : α → String),
      (s.statements.filterMap fun st => (get? st).map nameOf).map Text.lower =
        (s.statements.filterMap get?).map fun a => Text.lower (nameOf a) := by
    intro α get? nameOf
    rw [← List.map_filterMap, List.map_map]
    rfl
  have htables : (s.statements.filterMap (Statement.nameInGroup? 0)).map Text.lower =
      s.tables.map fun t => Text.lower t.name := by
    rw [← Statement.tableName?_eq]
    exact hnames Statement.table? Table.name
  have hindexes : (s.statements.filterMap (Statement.nameInGroup? 1)).map Text.lower =
      s.indexes.map fun i => Text.lower i.name := by
    rw [← Statement.indexName?_eq]
    exact hnames Statement.index? Index.name
  have hsequences : (s.statements.filterMap (Statement.nameInGroup? 2)).map Text.lower =
      s.sequences.map fun q => Text.lower q.name := by
    rw [← Statement.sequenceName?_eq]
    exact hnames Statement.sequence? Sequence.name
  rw [← htables, ← hindexes, ← hsequences]
  constructor
  · exact fun h => ⟨h 0, h 1, h 2⟩
  · rintro ⟨hzero, hone, htwo⟩ i
    rcases i with _ | _ | _ | i
    · exact hzero
    · exact hone
    · exact htwo
    · rw [filterMap_nameInGroup?_eq_nil (by omega)]
      exact List.nodup_nil

end Script

theorem countP_mem_eq_one {groups : List (List Nat)} (h : groups.Pairwise List.Disjoint) {p : Nat} :
    groups.countP (p ∈ ·) = 1 ↔ ∃ group ∈ groups, p ∈ group := by
  induction groups with
  | nil => simp
  | cons group groups ih =>
    obtain ⟨hfirst, hrest⟩ := List.pairwise_cons.mp h
    rw [List.countP_cons]
    by_cases hp : p ∈ group
    · have hnone : groups.countP (p ∈ ·) = 0 := by
        rw [List.countP_eq_zero]
        intro other hother hmem
        exact hfirst other hother hp (of_decide_eq_true hmem)
      simp [hp, hnone]
    · simp [hp, ih hrest]

/-- Where names differ, the first of a name is the last. -/
theorem find?_eq_getLast?_filter {α : Type} {nameOf : α → String} {xs : List α}
    (h : (xs.map fun x => Text.lower (nameOf x)).Nodup) (name : String) :
    xs.find? (fun x => Text.sameName (nameOf x) name) =
      (xs.filter fun x => Text.sameName (nameOf x) name).getLast? := by
  have hdiffer : ((xs.filter fun x => Text.sameName (nameOf x) name).map
      fun x => Text.lower (nameOf x)).Nodup := h.sublist (List.filter_sublist.map _)
  have hsame : ∀ x ∈ xs.filter fun x => Text.sameName (nameOf x) name,
      Text.lower (nameOf x) = Text.lower name := fun x hx => by simpa using (List.mem_filter.mp hx).2
  rw [← List.head?_filter]
  -- two items of the name would have names that do not differ
  cases hfound : xs.filter fun x => Text.sameName (nameOf x) name with
  | nil => rfl
  | cons x others =>
    cases others with
    | nil => rfl
    | cons y rest =>
      rw [hfound] at hdiffer hsame
      have hxy : Text.lower (nameOf x) = Text.lower (nameOf y) :=
        (hsame x (by simp)).trans (hsame y (by simp)).symm
      simp [hxy] at hdiffer

/-! ## Catalogs -/

/-- A lookup gives the position of the last statement that creates something of a name, and nothing
if there is none. -/
structure Script.FindsLast (s : Script) (nameOf : Statement → Option String)
    (find? : String → Option Nat) : Prop where
  some_iff : ∀ name p, find? name = some p ↔ IsGreatest {q | s.CreatesAt nameOf name q} p
  none_iff : ∀ name, find? name = none ↔ ∀ q, ¬ s.CreatesAt nameOf name q

namespace Script

variable (s : Script)

theorem findsLast_ofStatements (nameOf : Statement → Option String) :
    s.FindsLast nameOf (Places.ofStatements nameOf s.statements).find? :=
  ⟨fun _ _ => Places.find?_eq_some_iff, fun _ => Places.find?_eq_none_iff⟩

theorem findsLast_tables : s.FindsLast Statement.tableName? s.catalog.table? := by
  have hfinds := s.findsLast_ofStatements Statement.tableName?
  rw [← catalog_tables] at hfinds
  exact hfinds

theorem findsLast_indexes : s.FindsLast Statement.indexName? s.catalog.index? := by
  have hfinds := s.findsLast_ofStatements Statement.indexName?
  rw [← catalog_indexes] at hfinds
  exact hfinds

theorem findsLast_sequences : s.FindsLast Statement.sequenceName? s.catalog.sequence? := by
  have hfinds := s.findsLast_ofStatements Statement.sequenceName?
  rw [← catalog_sequences] at hfinds
  exact hfinds

theorem synonyms_positions : s.catalog.synonyms.Pairwise (· < ·) ∧
    ∀ p, p ∈ s.catalog.synonyms ↔ ∃ y, s.statements[p]? = some (.synonym y) := by
  have hsynonyms := filter_positions (·.synonym?.isSome) s.statements
  rw [← catalog_synonyms] at hsynonyms
  refine ⟨hsynonyms.1, fun p => (hsynonyms.2 p).trans ⟨?_, ?_⟩⟩
  · rintro ⟨st, hst, hsome⟩
    obtain ⟨y, hy⟩ := Option.isSome_iff_exists.mp hsome
    cases st <;> cases hy
    exact ⟨y, hst⟩
  · rintro ⟨y, hy⟩
    exact ⟨_, hy, rfl⟩

theorem others_positions : s.catalog.others.Pairwise (· < ·) ∧
    ∀ p, p ∈ s.catalog.others ↔ ∃ st, s.statements[p]? = some st ∧
      st.table? = none ∧ st.index? = none ∧ st.sequence? = none ∧ st.synonym? = none := by
  have hothers := filter_positions Statement.isOther s.statements
  rw [← catalog_others] at hothers
  refine ⟨hothers.1, fun p => (hothers.2 p).trans ?_⟩
  refine exists_congr fun st => and_congr_right fun _ => ?_
  cases st <;> simp [Statement.isOther, Statement.table?, Statement.index?, Statement.sequence?,
    Statement.synonym?]

theorem countP_groups_iff : (∀ p < s.statements.length, s.catalog.groups.countP (p ∈ ·) = 1) ↔
    (s.tables.map fun t => Text.lower t.name).Nodup ∧
    (s.indexes.map fun i => Text.lower i.name).Nodup ∧
    (s.sequences.map fun q => Text.lower q.name).Nodup := by
  rw [← nodup_groups_iff, ← forall_not_replaces_iff]
  constructor
  · intro h p st hst
    have hp : p < s.statements.length := (List.getElem?_eq_some_iff.mp hst).1
    exact (exists_group_iff hst).mp ((countP_mem_eq_one s.pairwise_disjoint_groups).mp (h p hp))
  · intro h p hp
    have hst := List.getElem?_eq_getElem hp
    exact (countP_mem_eq_one s.pairwise_disjoint_groups).mpr ((exists_group_iff hst).mpr (h p _ hst))

/-- **A catalog is an index of its script.** No position is in two groups. Synonyms and other
statements are listed in order, each of them. The lookups give the last statement of a name, without
regard to letter case. If no two tables have the same name, what is found is the table that the
script finds, and so for indexes. Every position is in one group if and only if no two tables, no
two indexes and no two sequences have the same name: of statements with the same name only the last
is held. -/
theorem catalog_positions :
    s.catalog.groups.Pairwise List.Disjoint ∧
    (s.catalog.synonyms.Pairwise (· < ·) ∧
      ∀ p, p ∈ s.catalog.synonyms ↔ ∃ y, s.statements[p]? = some (.synonym y)) ∧
    (s.catalog.others.Pairwise (· < ·) ∧
      ∀ p, p ∈ s.catalog.others ↔ ∃ st, s.statements[p]? = some st ∧
        st.table? = none ∧ st.index? = none ∧ st.sequence? = none ∧ st.synonym? = none) ∧
    s.FindsLast Statement.tableName? s.catalog.table? ∧
    s.FindsLast Statement.indexName? s.catalog.index? ∧
    s.FindsLast Statement.sequenceName? s.catalog.sequence? ∧
    ((s.tables.map fun t => Text.lower t.name).Nodup → ∀ name, s.table? name =
      (s.catalog.table? name).bind fun p => s.statements[p]?.bind Statement.table?) ∧
    ((s.indexes.map fun i => Text.lower i.name).Nodup → ∀ name, s.index? name =
      (s.catalog.index? name).bind fun p => s.statements[p]?.bind Statement.index?) ∧
    ((∀ p < s.statements.length, s.catalog.groups.countP (p ∈ ·) = 1) ↔
      (s.tables.map fun t => Text.lower t.name).Nodup ∧
      (s.indexes.map fun i => Text.lower i.name).Nodup ∧
      (s.sequences.map fun q => Text.lower q.name).Nodup) := by
  refine ⟨s.pairwise_disjoint_groups, s.synonyms_positions, s.others_positions, s.findsLast_tables,
    s.findsLast_indexes, s.findsLast_sequences, fun h name => ?_, fun h name => ?_, s.countP_groups_iff⟩
  · exact (find?_eq_getLast?_filter h name).trans (s.lastTable?_eq name)
  · exact (find?_eq_getLast?_filter h name).trans (s.lastIndex?_eq name)

/-- A table, a synonym of it, and an index on it. -/
theorem catalog_positions_accounts :
    let s : Script := ⟨[.commit, .table { name := "Accounts" }, .synonym ⟨"acc", some "Accounts"⟩,
      .index { name := "acc_idx", table := "accounts", columns := ["id"] }]⟩
    (s.tables.map fun t => Text.lower t.name).Nodup ∧
      (s.indexes.map fun i => Text.lower i.name).Nodup ∧
      IsGreatest {q | s.CreatesAt Statement.tableName? "ACCOUNTS" q} 1 ∧
      s.table? "ACCOUNTS" = some { name := "Accounts" } ∧
      s.index? "Acc_Idx" = some { name := "acc_idx", table := "accounts", columns := ["id"] } ∧
      ∀ p < 4, s.catalog.groups.countP (p ∈ ·) = 1 := by
  intro s
  obtain ⟨-, -, -, htables, -, -, htable, hindex, hgroups⟩ := catalog_positions s
  have htablesDiffer : (s.tables.map fun t => Text.lower t.name).Nodup := by decide
  have hindexesDiffer : (s.indexes.map fun i => Text.lower i.name).Nodup := by decide
  have hplace : s.catalog.table? "ACCOUNTS" = some 1 := by decide
  have hindexPlace : s.catalog.index? "Acc_Idx" = some 3 := by decide
  refine ⟨htablesDiffer, hindexesDiffer, (htables.some_iff _ _).mp hplace, ?_, ?_,
    hgroups.mpr ⟨htablesDiffer, hindexesDiffer, by decide⟩⟩
  · rw [htable htablesDiffer, hplace]
    rfl
  · rw [hindex hindexesDiffer, hindexPlace]
    rfl

/-- Of two sequences of the same name only the second is in a group, though no two tables and no two
indexes have the same name. -/
theorem not_countP_groups_sequence :
    let s : Script := ⟨[.sequence { name := "S" }, .sequence { name := "s" }]⟩
    (s.tables.map fun t => Text.lower t.name).Nodup ∧
      (s.indexes.map fun i => Text.lower i.name).Nodup ∧
      ¬ ∀ p < s.statements.length, s.catalog.groups.countP (p ∈ ·) = 1 := by
  decide

end Script

end SchemaScript
