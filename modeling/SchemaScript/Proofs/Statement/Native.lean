import SchemaScript.Proofs.Statement.Reading
import SchemaScript.Proofs.Table.Native

/-!
# Native statements

The native form of a statement for a target: the statement that is read back once it is written, if
anything is written for it.

* `Statement.Restorable` — what is asked of a statement, so that it can be read back.
* `Statement.native?` — the native form. There is none if the dialect has no words for the
  statement, or for anything that it does.
* `Statement.WellFormed.native`, `Statement.native_leaves` — the shape of the native form, and its
  leaves.
-/

set_option autoImplicit false

namespace SchemaScript

/-- A statement that can be read back once it is written: the parts of a table are dropped in
changes to it and nothing else is, what is added to a table is told from an option, and an inclusion
names something. -/
def Statement.Restorable : Statement → Prop
  | .drop d => d.object.isTablePart = false
  | .alterTable a => (∀ d ∈ a.drops, d.object.isTablePart) ∧ ∀ x ∈ a.adds, x.Announced
  | .inclusion path => path ≠ ""
  | _ => True

theorem Statement.Restorable.announced {s : Statement} (h : s.Restorable) : s.Announced := by
  cases s with
  | alterTable a => exact h.2
  | _ => trivial

/-! ## Native forms -/

section Forms

variable (t : Target) (o : WriteOptions)

/-- The native form of an index. -/
def Index.native (i : Index) : Index := { i with storage := t.nativeStorage i.storage }

/-- The native form of a sequence. -/
def Sequence.native (s : Sequence) : Sequence :=
  { s with options := s.options.filter fun option => t.writes option.kind }

/-- The native form of what is added to a table. -/
def Addition.native? : Addition → Option Addition
  | .column c => some (.column (c.native t o))
  | .constraint c => some (.constraint (c.native t o))
  | .storage s => if t.writes s.kind then some (.storage s) else none

/-- The native form of what is changed of a table. -/
def Modification.native? : Modification → Option Modification
  | .rename r => some (.rename r)
  | .modify columns => some (.modify (columns.map (·.native t o)))
  | .storage s => if t.writes s.kind then some (.storage s) else none

/-- The native form of a change to a table, which may do nothing. -/
def AlterTable.native (a : AlterTable) : AlterTable :=
  { a with adds := a.adds.filterMap (·.native? t o), mods := a.mods.filterMap (·.native? t o) }

/-- The native form of a change to an index, which may do nothing. -/
def AlterIndex.native (a : AlterIndex) : AlterIndex :=
  { a with storage := t.nativeStorage a.storage }

/-- The native form of a comment. -/
def Comment.native : Comment → Comment
  | .table name text => .table name (Text.collapse text)
  | .column owner part text => .column owner part (Text.collapse text)

/-- The native form of a new row. -/
def Insert.native (i : Insert) : Insert := { i with values := t.nativeTerms i.values }

/-- The native form of a statement. -/
def Statement.native? : Statement → Option Statement
  | .table x => some (.table (x.native t o))
  | .index i => some (.index (i.native t))
  | .sequence s => some (.sequence (s.native t))
  | .synonym s => if t.writes .synonym then some (.synonym s) else none
  | .alterTable a => if (a.native t o).isEmpty then none else some (.alterTable (a.native t o))
  | .alterIndex a => if (a.native t).storage = [] then none else some (.alterIndex (a.native t))
  | .drop d => if d.object = .synonym ∧ t.writes .synonym = false then none else some (.drop d)
  | .comment c => some (.comment c.native)
  | .insert i => some (.insert (i.native t))
  | .commit => some .commit
  | .inclusion path => some (.inclusion path)

end Forms

variable {t : Target} {o : WriteOptions}

/-! ## Shape -/

theorem Addition.native?_eq_some {a b : Addition} (h : a.native? t o = some b) :
    (∃ c, a = .column c ∧ b = .column (c.native t o)) ∨
      (∃ c, a = .constraint c ∧ b = .constraint (c.native t o)) ∨
      ∃ s, a = .storage s ∧ b = .storage s ∧ t.writes s.kind := by
  cases a with
  | column c => exact .inl ⟨c, rfl, (Option.some.inj h).symm⟩
  | constraint c => exact .inr (.inl ⟨c, rfl, (Option.some.inj h).symm⟩)
  | storage s =>
    rw [native?] at h
    split at h
    · rename_i hw
      exact .inr (.inr ⟨s, rfl, (Option.some.inj h).symm, hw⟩)
    · cases h

theorem Addition.WellFormed.native {a b : Addition} (hwf : a.WellFormed)
    (h : a.native? t o = some b) : b.WellFormed := by
  rcases native?_eq_some h with ⟨c, rfl, rfl⟩ | ⟨c, rfl, rfl⟩ | ⟨s, rfl, rfl, -⟩
  · exact ⟨hwf.1.native, hwf.2⟩
  · exact TableConstraint.WellFormed.native hwf
  · exact hwf

theorem Addition.Announced.native {a b : Addition} (ha : a.Announced) (h : a.native? t o = some b) :
    b.Announced := by
  rcases native?_eq_some h with ⟨c, rfl, rfl⟩ | ⟨c, rfl, rfl⟩ | ⟨s, rfl, rfl, -⟩
  · exact ha
  · trivial
  · trivial

/-- Options that a change sets have those as native forms that the dialect has words for. -/
theorem Modification.filterMap_storage (options : List Storage) :
    (options.map Modification.storage).filterMap (·.native? t o) =
      (t.nativeStorage options).map .storage := by
  induction options with
  | nil => rfl
  | cons s options ih =>
    rw [List.map_cons, List.filterMap_cons, native?, Target.nativeStorage, List.filter_cons, ih]
    by_cases hw : t.writes s.kind
    · simp [hw, Target.nativeStorage]
    · simp [hw, Target.nativeStorage]

theorem AlterTable.WellFormed.native {a : AlterTable} (h : a.WellFormed)
    (hne : (a.native t o).isEmpty = false) : (a.native t o).WellFormed := by
  obtain ⟨table, adds, mods, drops⟩ := a
  refine ⟨h.table, ?_⟩
  have hactions := h.actions
  cases hactions with
  | adds _ hadds =>
    refine .adds ?_ ?_
    · intro hnil
      have hsize : (AlterTable.native t o ⟨table, adds, [], []⟩).size = 0 := by
        rw [size, hnil]
        rfl
      rw [isEmpty, hsize] at hne
      cases hne
    · intro b hb
      obtain ⟨a, ha, hnative⟩ := List.mem_filterMap.mp hb
      exact (hadds a ha).native hnative
  | drop hd => exact .drop hd
  | rename hr => exact .rename hr
  | modify hcolumns hshape =>
    refine .modify (by simpa using hcolumns) fun c hc => ?_
    obtain ⟨c', hc', rfl⟩ := List.mem_map.mp hc
    exact ⟨(hshape c' hc').1.native, (hshape c' hc').2⟩
  | @storage options _ hoptions =>
    have hmods : (AlterTable.native t o ⟨table, [], options.map .storage, []⟩).mods =
        (t.nativeStorage options).map .storage := Modification.filterMap_storage options
    rw [hmods]
    refine .storage ?_ fun s hs => hoptions s (List.mem_filter.mp hs).1
    intro hnil
    have hsize : (AlterTable.native t o ⟨table, [], options.map .storage, []⟩).size = 0 := by
      rw [size, hmods, hnil]
      rfl
    rw [isEmpty, hsize] at hne
    cases hne

theorem Comment.WellFormed.native {c : Comment} (h : c.WellFormed) : c.native.WellFormed := by
  cases c <;> exact h

theorem Insert.WellFormed.native {i : Insert} (h : i.WellFormed) : (i.native t).WellFormed := by
  refine ⟨h.table, h.columns, ?_⟩
  simpa [Insert.native, Target.nativeTerms_eq] using h.ne_nil

/-- **The native form of a statement is well-formed.** -/
theorem Statement.WellFormed.native {s s' : Statement} (h : s.WellFormed)
    (hnative : s.native? t o = some s') : s'.WellFormed := by
  cases s with
  | table table =>
    cases hnative
    exact Table.WellFormed.native h
  | index i =>
    cases hnative
    exact ⟨h.name, h.table, h.columns, fun s hs => h.storage s (List.mem_filter.mp hs).1⟩
  | sequence s =>
    cases hnative
    exact ⟨h.name, fun option hoption => h.options option (List.mem_filter.mp hoption).1⟩
  | synonym s =>
    rw [native?] at hnative
    split at hnative
    · cases hnative
      exact h
    · cases hnative
  | alterTable a =>
    rw [native?] at hnative
    split at hnative
    · cases hnative
    · rename_i hne
      cases hnative
      exact AlterTable.WellFormed.native h (by simpa using hne)
  | alterIndex a =>
    rw [native?] at hnative
    split at hnative
    · cases hnative
    · rename_i hne
      cases hnative
      exact ⟨h.index, hne, fun s hs => h.storage s (List.mem_filter.mp hs).1⟩
  | drop d =>
    rw [native?] at hnative
    split at hnative
    · cases hnative
    · cases hnative
      exact h
  | comment c =>
    cases hnative
    exact Comment.WellFormed.native h
  | insert i =>
    cases hnative
    exact Insert.WellFormed.native h
  | commit =>
    cases hnative
    trivial
  | inclusion path =>
    cases hnative
    exact h

theorem Statement.Restorable.native {s s' : Statement} (h : s.Restorable)
    (hnative : s.native? t o = some s') : s'.Restorable := by
  cases s with
  | alterTable a =>
    rw [native?] at hnative
    split at hnative
    · cases hnative
    · cases hnative
      refine ⟨h.1, fun b hb => ?_⟩
      obtain ⟨a, ha, hadd⟩ := List.mem_filterMap.mp hb
      exact (h.2 a ha).native hadd
  | drop d =>
    rw [native?] at hnative
    split at hnative
    · cases hnative
    · cases hnative
      exact h
  | synonym | alterIndex =>
    rw [native?] at hnative
    split at hnative
    all_goals
      cases hnative
      try trivial
  | _ =>
    cases hnative
    exact h

theorem Statement.kind_native {s s' : Statement} (hnative : s.native? t o = some s') :
    s'.kind = s.kind := by
  cases s with
  | alterTable | drop | synonym | alterIndex =>
    rw [native?] at hnative
    split at hnative
    all_goals
      cases hnative
      try rfl
  | comment c =>
    cases hnative
    cases c <;> rfl
  | _ =>
    cases hnative
    rfl

/-! ## Leaves -/

theorem Addition.native_leaves {a b : Addition} (hwf : a.WellFormed)
    (h : ∀ l ∈ a.leaves, l.Writable t) (hnative : a.native? t o = some b) :
    ∀ l ∈ b.leaves, l.Native t o := by
  rcases native?_eq_some hnative with ⟨c, rfl, rfl⟩ | ⟨c, rfl, rfl⟩ | ⟨s, rfl, rfl, hw⟩
  · exact Column.native_leaves hwf.1.toWellFormed h
  · exact TableConstraint.native_leaves h
  · simpa [leaves, Leaf.Native] using hw

theorem AlterTable.native_leaves {a : AlterTable} (hwf : a.WellFormed)
    (hdrops : ∀ d ∈ a.drops, d.object.isTablePart) (h : ∀ l ∈ a.leaves, l.Writable t) :
    ∀ l ∈ (a.native t o).leaves, l.Native t o := by
  obtain ⟨table, adds, mods, drops⟩ := a
  simp only [leaves, List.forall_mem_append, List.mem_flatMap, forall_exists_index, and_imp] at h
  have hdrop : ∀ d ∈ drops, d.leaves = [] := by
    intro d hd
    have hpart := hdrops d hd
    rw [Drop.leaves, if_neg fun heq => by simp [heq, DropObject.isTablePart] at hpart]
  intro l hl
  simp only [leaves, List.mem_append, List.mem_flatMap] at hl
  rcases hl with (⟨b, hb, hl⟩ | ⟨m, hm, hl⟩) | ⟨d, hd, hl⟩
  · obtain ⟨a, ha, hnative⟩ := List.mem_filterMap.mp hb
    have hactions := hwf.actions
    have hshape : a.WellFormed := by
      cases hactions with
      | adds _ hadds => exact hadds a ha
      | _ => cases ha
    exact Addition.native_leaves hshape (fun l hl => h.1.1 l a ha hl) hnative l hl
  · obtain ⟨m', hm', hnative⟩ := List.mem_filterMap.mp hm
    cases m' with
    | rename r =>
      cases hnative
      cases hl
    | modify columns =>
      cases hnative
      obtain ⟨c', hc', hl⟩ := List.mem_flatMap.mp hl
      obtain ⟨c, hc, rfl⟩ := List.mem_map.mp hc'
      have hactions := hwf.actions
      have hshape : c.WellFormed := by
        cases hactions with
        | modify _ hshape =>
          rw [List.mem_singleton] at hm'
          cases hm'
          exact (hshape c hc).1
        | storage =>
          obtain ⟨s, -, heq⟩ := List.mem_map.mp hm'
          cases heq
        | rename =>
          rw [List.mem_singleton] at hm'
          cases hm'
        | _ => cases hm'
      refine Column.native_leaves hshape (fun l hl => h.1.2 l _ hm' ?_) l hl
      exact List.mem_flatMap.mpr ⟨c, hc, hl⟩
    | storage s =>
      rw [Modification.native?] at hnative
      split at hnative
      · rename_i hw
        cases hnative
        rw [Modification.leaves, List.mem_singleton] at hl
        subst hl
        exact hw
      · cases hnative
  · rw [hdrop d hd] at hl
    cases hl

/-- **The leaves of the native form of a statement are native.** -/
theorem Statement.native_leaves {s s' : Statement} (hwf : s.WellFormed) (hs : s.Restorable)
    (h : ∀ l ∈ s.leaves, l.Writable t) (hnative : s.native? t o = some s') :
    ∀ l ∈ s'.leaves, l.Native t o := by
  cases s with
  | table table =>
    cases hnative
    exact Table.native_leaves hwf h
  | index i =>
    cases hnative
    exact Target.nativeStorage_leaves i.storage
  | sequence s =>
    cases hnative
    intro l hl
    obtain ⟨option, hoption, rfl⟩ := List.mem_map.mp hl
    exact (List.mem_filter.mp hoption).2
  | synonym s =>
    rw [native?] at hnative
    split at hnative
    · rename_i hw
      cases hnative
      simpa [leaves, Leaf.Native] using hw
    · cases hnative
  | alterTable a =>
    rw [native?] at hnative
    split at hnative
    · cases hnative
    · cases hnative
      exact AlterTable.native_leaves hwf hs.1 h
  | alterIndex a =>
    rw [native?] at hnative
    split at hnative
    · cases hnative
    · cases hnative
      exact Target.nativeStorage_leaves a.storage
  | drop d =>
    rw [native?] at hnative
    split at hnative
    · cases hnative
    · rename_i hsynonym
      cases hnative
      intro l hl
      rw [leaves, Drop.leaves] at hl
      split at hl
      · rename_i hobject
        rw [List.mem_singleton] at hl
        subst hl
        simpa [hobject, Leaf.Native] using hsynonym
      · cases hl
  | comment c =>
    cases hnative
    cases c <;> simp [leaves, Comment.native, Comment.leaves, Leaf.Native]
  | insert i =>
    cases hnative
    intro l hl
    simp only [leaves, Insert.native, Target.nativeTerms_eq, List.map_map] at hl
    obtain ⟨x, hx, rfl⟩ := List.mem_map.mp hl
    have hleaf := h (.value x) (List.mem_map_of_mem hx)
    exact t.spellable_nativeTerm hleaf.1 hleaf.2
  | commit =>
    cases hnative
    intro l hl
    cases hl
  | inclusion path =>
    cases hnative
    intro l hl
    cases hl

end SchemaScript
