import Mathlib.Data.List.Basic
import SchemaScript.Proofs.Dialect.Spelling

/-!
# The order of clauses

A column keeps its clauses by their places in `Kind.columnClauses`. A writer sorts them by the order
of its dialect, which lists other kinds before, between and behind those of the clauses. If that
order lists no kind twice, and has `Kind.columnClauses` as a part, both sort alike.

* `Dialect.place_eq_idxOf` — the place of a kind in an order that lists no kind twice.
* `Dialect.place_le_place_iff` — kinds compare by place as they do in a part of the order.
* `Column.stablySorted_ofClauses`, `Column.clauses_ofClauses_eq_iff` — the clauses that a column
  keeps, and when they are those it is given.
* `Writer.sorted_eq_of_sublist` — clauses are sorted as a column keeps them.
* `Target.sorted_as_kept` — the same for the targets, with what sorting does to the clauses.
-/

set_option autoImplicit false

namespace SchemaScript

/-! ## Places in the order of a dialect -/

namespace Dialect

variable {d : Dialect}

theorem lastIndex?_isSome (kind : Kind) (kinds : List Kind) :
    (rank?.lastIndex? kind kinds).isSome ↔ kind ∈ kinds := by
  induction kinds with
  | nil => simp [rank?.lastIndex?]
  | cons k ks ih =>
    rw [rank?.lastIndex?]
    cases hlast : rank?.lastIndex? kind ks with
    | some i => simp [ih.mp (by simp [hlast])]
    | none =>
      have hks : kind ∉ ks := fun h => by simpa [hlast] using ih.mpr h
      by_cases hk : k = kind
      · simp [hk]
      · simp [hk, hks, Ne.symm hk]

theorem rank?_isSome (d : Dialect) (kind : Kind) : (d.rank? kind).isSome ↔ kind ∈ d.order :=
  lastIndex?_isSome kind d.order

/-- Where no kind is listed twice, the last occurrence of a kind is the first. -/
theorem lastIndex?_eq_idxOf {kind : Kind} {kinds : List Kind} (hnodup : kinds.Nodup)
    (hkind : kind ∈ kinds) : rank?.lastIndex? kind kinds = some (kinds.idxOf kind) := by
  induction kinds with
  | nil => cases hkind
  | cons k ks ih =>
    obtain ⟨hk, hks⟩ := List.nodup_cons.mp hnodup
    rw [rank?.lastIndex?]
    by_cases heq : k = kind
    · subst heq
      have hnone : rank?.lastIndex? k ks = none := by
        rw [← Option.not_isSome_iff_eq_none, lastIndex?_isSome]
        exact hk
      simp [hnone]
    · have hmem : kind ∈ ks := (List.mem_cons.mp hkind).resolve_left (Ne.symm heq)
      rw [ih hks hmem, List.idxOf_cons_ne _ heq]

theorem place_eq_idxOf (hnodup : d.order.Nodup) {kind : Kind} (hkind : kind ∈ d.order) :
    d.place kind = d.order.idxOf kind := by
  rw [place, rank?, lastIndex?_eq_idxOf hnodup hkind]
  rfl

/-- Places rise along an order that lists no kind twice. -/
theorem pairwise_place (hnodup : d.order.Nodup) :
    d.order.Pairwise fun j k => d.place j < d.place k := by
  rw [List.pairwise_iff_getElem]
  intro i j hi hj hij
  rw [place_eq_idxOf hnodup (List.getElem_mem hi), place_eq_idxOf hnodup (List.getElem_mem hj),
    hnodup.idxOf_getElem i hi, hnodup.idxOf_getElem j hj]
  exact hij

/-- **Kinds compare by place as they do in a part of the order,** whatever else is listed between
them. -/
theorem place_le_place_iff {kinds : List Kind} (hnodup : d.order.Nodup)
    (hsub : kinds.Sublist d.order) {j k : Kind} (hj : j ∈ kinds) (hk : k ∈ kinds) :
    d.place j ≤ d.place k ↔ kinds.idxOf j ≤ kinds.idxOf k := by
  -- Places rise along the whole order, so they rise along a part of it.
  have hrise := List.pairwise_iff_getElem.mp ((pairwise_place hnodup).sublist hsub)
  have hlt : ∀ {j k : Kind}, j ∈ kinds → k ∈ kinds → kinds.idxOf j < kinds.idxOf k →
      d.place j < d.place k := by
    intro j k hj hk hjk
    have h := hrise _ _ (List.idxOf_lt_length_of_mem hj) (List.idxOf_lt_length_of_mem hk) hjk
    rwa [List.getElem_idxOf, List.getElem_idxOf] at h
  rcases Nat.lt_trichotomy (kinds.idxOf j) (kinds.idxOf k) with hjk | hjk | hjk
  · have h := hlt hj hk hjk
    omega
  · have heq : j = k := (List.idxOf_inj hj).mp hjk
    simp [heq]
  · have h := hlt hk hj hjk
    omega

end Dialect

/-! ## Clauses of a column -/

theorem ColumnClause.kind_mem (c : ColumnClause) : c.kind ∈ Kind.columnClauses := by
  cases c <;> simp [kind, Kind.columnClauses]

/-- Clauses of one rank are those of one kind. A kind that no clause has comes behind all ranks. -/
theorem ColumnClause.rank_eq_iff (c : ColumnClause) (kind : Kind) :
    c.rank = Kind.columnClauses.idxOf kind ↔ c.kind = kind :=
  List.idxOf_inj c.kind_mem

namespace Column

theorem stablySorted_ofClauses (name : String) (clauses : List ColumnClause) :
    StablySorted ColumnClause.rank clauses (ofClauses name clauses).clauses :=
  stablySorted_mergeSort ColumnClause.rank clauses

/-- The clauses of each kind stay as they came. -/
theorem filter_kind_ofClauses (name : String) (clauses : List ColumnClause) (kind : Kind) :
    (ofClauses name clauses).clauses.filter (·.kind = kind) = clauses.filter (·.kind = kind) := by
  have hstable := (stablySorted_ofClauses name clauses).stable (Kind.columnClauses.idxOf kind)
  simpa only [ColumnClause.rank_eq_iff] using hstable

/-- A column keeps the clauses that it is given as they are if and only if they are in order. -/
theorem clauses_ofClauses_eq_iff (name : String) (clauses : List ColumnClause) :
    (ofClauses name clauses).clauses = clauses ↔
      clauses.Pairwise fun a b => a.rank ≤ b.rank := by
  constructor
  · intro heq
    have hsorted := (stablySorted_ofClauses name clauses).sorted
    rwa [heq] at hsorted
  · intro hsorted
    exact List.mergeSort_of_pairwise (hsorted.imp decide_eq_true)

end Column

/-! ## Clauses as they are written -/

/-- **Clauses are sorted as a column keeps them,** if the order of the dialect lists no kind twice
and the kinds of clauses as columns do. -/
theorem Writer.sorted_eq_of_sublist {w : Writer} (hnodup : w.dialect.order.Nodup)
    (hsub : Kind.columnClauses.Sublist w.dialect.order) (name : String)
    (clauses : List ColumnClause) :
    w.sorted ColumnClause.kind clauses = .ok (Column.ofClauses name clauses).clauses := by
  have horder : (fun a b : ColumnClause =>
      decide (w.dialect.place a.kind ≤ w.dialect.place b.kind)) =
      fun a b => decide (a.rank ≤ b.rank) := by
    funext a b
    exact decide_eq_decide.mpr (Dialect.place_le_place_iff hnodup hsub a.kind_mem b.kind_mem)
  rw [Writer.sorted_eq, horder]
  · rfl
  · intro clause _
    exact (w.dialect.rank?_isSome _).mpr (hsub.subset clause.kind_mem)

namespace Target

theorem nodup_order (t : Target) : t.dialect.order.Nodup := by
  cases t <;> decide

theorem columnClauses_sublist (t : Target) : Kind.columnClauses.Sublist t.dialect.order := by
  cases t <;> decide

theorem sorted_eq_ofClauses {t : Target} {o : WriteOptions} (name : String)
    (clauses : List ColumnClause) :
    (t.writer o).sorted ColumnClause.kind clauses = .ok (Column.ofClauses name clauses).clauses :=
  Writer.sorted_eq_of_sublist t.nodup_order t.columnClauses_sublist name clauses

/-- **The writers of the targets sort clauses as columns keep them.** They are made, and they sort
every list of clauses. The sorted list has the same clauses, in the order of columns, those of each
kind as they came. A list is left as it is if and only if it is in that order already. -/
theorem sorted_as_kept (t : Target) (o : WriteOptions) :
    ∃ w, Writer.ofDialect t.dialect o = .ok w ∧
      ∀ (name : String) (clauses : List ColumnClause), ∃ kept,
        w.sorted ColumnClause.kind clauses = .ok kept ∧
        (Column.ofClauses name clauses).clauses = kept ∧
        kept.Perm clauses ∧
        (∀ kind, kept.filter (·.kind = kind) = clauses.filter (·.kind = kind)) ∧
        kept.Pairwise (fun a b => a.rank ≤ b.rank) ∧
        (kept = clauses ↔ clauses.Pairwise fun a b => a.rank ≤ b.rank) := by
  refine ⟨t.writer o, t.ofDialect_eq o, fun name clauses => ?_⟩
  have hsorted := Column.stablySorted_ofClauses name clauses
  exact ⟨(Column.ofClauses name clauses).clauses, sorted_eq_ofClauses name clauses, rfl,
    hsorted.perm, Column.filter_kind_ofClauses name clauses, hsorted.sorted,
    Column.clauses_ofClauses_eq_iff name clauses⟩

end Target

end SchemaScript
