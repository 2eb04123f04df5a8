import Mathlib.Data.List.Forall2
import SchemaScript.Proofs.Dialect.Completeness

/-!
# Lines collapsed once

A writer collapses the lines of every node, on its own and again inside the nodes that hold it. The
text is the same as if only the whole were collapsed.

* `Text.SameLines` — texts that differ in the lengths of their runs of newlines only. What writers
  make of texts keeps the relation: `SameLines.append`, `SameLines.intercalate`,
  `SameLines.trimStart`.
* `Agree` — two computations fail alike or give related results, with a rule for each way to combine
  computations.
* `Writer.unfinished` — the writer that leaves texts as its layouts give them.
* `Writer.agree_node` — what it writes of a node, collapsed, is what the writer writes.
* `Target.node_collapsed_once` — what follows for the targets.
-/

set_option autoImplicit false

namespace SchemaScript

namespace Text

/-! ## Texts with the same lines -/

theorem collapseLines_append_collapseLines (a b : List Char) :
    collapseLines (a ++ collapseLines b) = collapseLines (a ++ b) := by
  induction a with
  | nil => exact collapseLines_collapseLines b
  | cons c a ih =>
    have hhead : (a ++ collapseLines b).head? = (a ++ b).head? := by
      rw [List.head?_append, List.head?_append, head?_collapseLines]
    rw [List.cons_append, List.cons_append, collapseLines, collapseLines, hhead, ih]

theorem collapseLines_collapseLines_append (a b : List Char) :
    collapseLines (collapseLines a ++ b) = collapseLines (a ++ b) := by
  induction a with
  | nil => rfl
  | cons c a ih =>
    have hhead : (collapseLines a ++ b).head? = (a ++ b).head? := by
      rw [List.head?_append, List.head?_append, head?_collapseLines]
    rw [collapseLines]
    split
    · rename_i hpair
      have hnext : (a ++ b).head? = some '\n' := by rw [List.head?_append, hpair.2]; rfl
      rw [ih, List.cons_append, collapseLines, if_pos ⟨hpair.1, hnext⟩]
    · rw [List.cons_append, List.cons_append, collapseLines, collapseLines, hhead, ih]

theorem dropWhile_collapseLines (cs : List Char) :
    (collapseLines cs).dropWhile isBlank = collapseLines (cs.dropWhile isBlank) := by
  induction cs with
  | nil => rfl
  | cons c cs ih =>
    cases hc : isBlank c with
    | true =>
      rw [List.dropWhile_cons_of_pos hc, ← ih, collapseLines]
      split
      · rfl
      · exact List.dropWhile_cons_of_pos hc
    | false =>
      have hline : c ≠ '\n' := by
        rintro rfl
        exact absurd hc (by decide)
      rw [List.dropWhile_cons_of_neg (by simp [hc]), collapseLines, if_neg fun h => hline h.1,
        List.dropWhile_cons_of_neg (by simp [hc])]

/-- Two texts are the same but for the lengths of their runs of newlines. -/
def SameLines (a b : String) : Prop := collapse a = collapse b

theorem collapse_eq_empty {s : String} : collapse s = "" ↔ s = "" := by
  constructor
  · intro h
    have hhead : (collapse s).toList.head? = s.toList.head? := by
      rw [collapse, String.toList_ofList, head?_collapseLines]
    rw [h] at hhead
    rw [← String.toList_inj]
    exact List.head?_eq_none_iff.mp hhead.symm
  · rintro rfl
    rfl

namespace SameLines

variable {a b c d : String}

theorem refl (s : String) : SameLines s s := rfl

theorem collapse_left (s : String) : SameLines (collapse s) s := collapse_collapse s

theorem eq_empty_iff (h : SameLines a b) : a = "" ↔ b = "" := by
  rw [← collapse_eq_empty, h, collapse_eq_empty]

theorem append (hab : SameLines a b) (hcd : SameLines c d) : SameLines (a ++ c) (b ++ d) := by
  have hlines : ∀ s t : String, collapse (s ++ t) = collapse (collapse s ++ collapse t) := by
    intro s t
    simp only [collapse, String.toList_append, String.toList_ofList,
      collapseLines_append_collapseLines, collapseLines_collapseLines_append]
  rw [SameLines, hlines, hab, hcd, ← hlines]

theorem trimStart (h : SameLines a b) : SameLines (trimStart a) (trimStart b) := by
  have htrim : ∀ s : String, collapse (Text.trimStart s) = Text.trimStart (collapse s) := by
    intro s
    simp only [collapse, Text.trimStart, String.toList_ofList, dropWhile_collapseLines]
  rw [SameLines, htrim, htrim, h]

/-! ### Lists of texts -/

variable {as bs cs ds : List String}

theorem map {f : String → String} (hf : ∀ {a b}, SameLines a b → SameLines (f a) (f b))
    (h : List.Forall₂ SameLines as bs) : List.Forall₂ SameLines (as.map f) (bs.map f) := by
  induction h with
  | nil => exact .nil
  | cons hab _ ih => exact .cons (hf hab) ih

/-- Texts that are empty are left out on both sides. -/
theorem filter_ne_empty (h : List.Forall₂ SameLines as bs) :
    List.Forall₂ SameLines (as.filter (· ≠ "")) (bs.filter (· ≠ "")) := by
  induction h with
  | nil => exact .nil
  | @cons a b as bs hab hrest ih =>
    by_cases ha : a = ""
    · have hb : b = "" := hab.eq_empty_iff.mp ha
      rw [List.filter_cons_of_neg (by simp [ha]), List.filter_cons_of_neg (by simp [hb])]
      exact ih
    · have hb : b ≠ "" := fun hb => ha (hab.eq_empty_iff.mpr hb)
      rw [List.filter_cons_of_pos (by simpa using ha), List.filter_cons_of_pos (by simpa using hb)]
      exact .cons hab ih

theorem join (h : List.Forall₂ SameLines as bs) : SameLines (String.join as) (String.join bs) := by
  induction h with
  | nil => exact .refl _
  | cons hab _ ih =>
    rw [String.join_cons, String.join_cons]
    exact hab.append ih

theorem intercalate (sep : String) (h : List.Forall₂ SameLines as bs) :
    SameLines (sep.intercalate as) (sep.intercalate bs) := by
  cases h with
  | nil => exact .refl _
  | cons hab hrest =>
    rw [intercalate_cons, intercalate_cons]
    exact hab.append (join (map (fun h => (refl sep).append h) hrest))

end SameLines

end Text

/-! ## Computations that agree -/

/-- Two computations fail alike, or give results that are related. -/
inductive Agree {α β : Type} (R : α → β → Prop) : Except WriteError α → Except WriteError β → Prop
  | ok {a : α} {b : β} (h : R a b) : Agree R (.ok a) (.ok b)
  | error (e : WriteError) : Agree R (.error e) (.error e)

namespace Agree

variable {α β γ δ : Type} {R : α → β → Prop} {S : γ → δ → Prop}
variable {x : Except WriteError α} {y : Except WriteError β}

theorem refl {R : α → α → Prop} (hR : ∀ a, R a a) (x : Except WriteError α) : Agree R x x := by
  cases x with
  | error e => exact .error e
  | ok a => exact .ok (hR a)

theorem mono {R' : α → β → Prop} (h : Agree R x y) (hR : ∀ {a b}, R a b → R' a b) : Agree R' x y := by
  cases h with
  | ok h => exact .ok (hR h)
  | error e => exact .error e

theorem exists_ok {b : β} (h : Agree R x (.ok b)) : ∃ a, x = .ok a ∧ R a b := by
  cases h with
  | ok h => exact ⟨_, rfl, h⟩

theorem bind {f : α → Except WriteError γ} {g : β → Except WriteError δ} (h : Agree R x y)
    (hfg : ∀ {a b}, R a b → Agree S (f a) (g b)) : Agree S (x >>= f) (y >>= g) := by
  cases h with
  | ok h => exact hfg h
  | error e => exact .error e

theorem map {f : α → γ} {g : β → δ} (h : Agree R x y) (hfg : ∀ {a b}, R a b → S (f a) (g b)) :
    Agree S (x.map f) (y.map g) := by
  cases h with
  | ok h => exact .ok (hfg h)
  | error e => exact .error e

/-- Related results stay so in what is made of them. -/
theorem result {f : α → γ} {g : β → δ} (h : Agree R x y) (hfg : ∀ {a b}, R a b → S (f a) (g b)) :
    Agree S (x >>= fun a => pure (f a)) (y >>= fun b => pure (g b)) :=
  h.bind fun hab => .ok (hfg hab)

theorem mapM {ι : Type} {f : ι → Except WriteError α} {g : ι → Except WriteError β}
    (h : ∀ i, Agree R (f i) (g i)) (is : List ι) :
    Agree (List.Forall₂ R) (is.mapM f) (is.mapM g) := by
  induction is with
  | nil => exact .ok .nil
  | cons i is ih =>
    rw [List.mapM_cons, List.mapM_cons]
    exact (h i).bind fun hab => ih.result fun hrest => .cons hab hrest

end Agree

/-! ## Nodes -/

namespace Writer

open Text (SameLines collapse)

/-- The writer that leaves texts as its layouts give them. -/
def unfinished (w : Writer) : Writer := { w with finish := id }

/-- A text is what another is collapsed to. -/
def Collapsed (a b : String) : Prop := a = collapse b

theorem Collapsed.sameLines {a b : String} (h : Collapsed a b) : SameLines a b :=
  h ▸ SameLines.collapse_left b

/-- Nodes that are written one after another. -/
theorem agree_mapM {ι : Type} {f g : ι → Written} (h : ∀ i, Agree Collapsed (f i) (g i))
    (is : List ι) : Agree (List.Forall₂ SameLines) (is.mapM f) (is.mapM g) :=
  .mapM (fun i => (h i).mono Collapsed.sameLines) is

variable {w : Writer} (hw : w.finish = collapse)

include hw

/-- **The step for one node:** if the layouts give texts with the same lines, the node is written as
what the other is collapsed to. -/
theorem agree_write {kind : Kind} {form form' : Layout → Written}
    (h : ∀ layout, Agree SameLines (form layout) (form' layout)) :
    Agree Collapsed (w.write kind form) (w.unfinished.write kind form') := by
  have hdialect : w.unfinished.dialect = w.dialect := rfl
  rw [write, write, hdialect]
  cases w.dialect.treatment? kind with
  | none => exact .error _
  | some treatment =>
    cases treatment with
    | leaveOut => exact .ok rfl
    | write layout =>
      refine (h layout).map fun {a b} hlines => ?_
      rw [hw]
      exact hlines

/-- A node whose parts are no nodes. -/
theorem agree_leaf (kind : Kind) (form : Layout → Written) :
    Agree Collapsed (w.write kind form) (w.unfinished.write kind form) :=
  agree_write hw fun layout => .refl SameLines.refl (form layout)

/-! ### Values -/

omit hw in
theorem agree_terms_of_term {xs : List Term}
    (h : ∀ x ∈ xs, Agree Collapsed (w.term x) (w.unfinished.term x)) :
    Agree (List.Forall₂ SameLines) (w.terms xs) (w.unfinished.terms xs) := by
  induction xs with
  | nil => exact .ok .nil
  | cons x xs ih =>
    have hrest := ih fun y hy => h y (List.mem_cons_of_mem x hy)
    rw [terms, terms]
    exact (h x List.mem_cons_self).bind fun hx => hrest.result fun hxs => .cons hx.sameLines hxs

theorem agree_call (function : String) {args : List Term}
    (hargs : ∀ x ∈ args, Agree Collapsed (w.term x) (w.unfinished.term x)) :
    Agree Collapsed (w.term (.call function args)) (w.unfinished.term (.call function args)) := by
  have hcall : Agree SameLines (do return withArguments function (← w.terms args))
      (do return withArguments function (← w.unfinished.terms args)) :=
    (agree_terms_of_term hargs).result fun htexts =>
      ((SameLines.refl _).append (SameLines.intercalate ", " htexts)).append (.refl _)
  rw [term.eq_def, term.eq_def]
  refine agree_write hw fun layout => ?_
  cases layout with
  | call => exact hcall
  | sequenceCall =>
    dsimp only
    split
    · -- Only the first argument is written for the next value of a sequence.
      cases args with
      | nil => exact .ok (.refl _)
      | cons first rest =>
        have hfirst := hargs first List.mem_cons_self
        cases first with
        | literal _ => exact .ok (.refl _)
        | _ => exact hfirst.result fun h => (h.sameLines.append (.refl _)).append (.refl _)
    · exact hcall
  | _ => exact .error _

theorem agree_expression {xs : List Term}
    (hxs : ∀ x ∈ xs, Agree Collapsed (w.term x) (w.unfinished.term x)) :
    Agree Collapsed (w.term (.expression xs)) (w.unfinished.term (.expression xs)) := by
  rw [term, term]
  refine agree_write hw fun layout => ?_
  cases layout with
  | expression => exact (agree_terms_of_term hxs).result (SameLines.intercalate " ")
  | _ => exact .error _

omit hw in
mutual

theorem agree_term (hw : w.finish = collapse) :
    ∀ x : Term, Agree Collapsed (w.term x) (w.unfinished.term x)
  | .literal _ => by
    rw [term, term]
    exact agree_leaf hw .literal _
  | .call function args => agree_call hw function (agree_row hw args)
  | .expression xs => agree_expression hw (agree_row hw xs)

theorem agree_row (hw : w.finish = collapse) :
    ∀ xs : List Term, ∀ x ∈ xs, Agree Collapsed (w.term x) (w.unfinished.term x)
  | [] => by simp
  | x :: xs => List.forall_mem_cons.mpr ⟨agree_term hw x, agree_row hw xs⟩

end

theorem agree_terms (xs : List Term) :
    Agree (List.Forall₂ SameLines) (w.terms xs) (w.unfinished.terms xs) :=
  agree_terms_of_term (agree_row hw xs)

/-! ### Tables -/

theorem agree_storage (n : Nat) (s : Storage) :
    Agree Collapsed (w.storage n s) (w.unfinished.storage n s) :=
  agree_leaf hw s.kind _

theorem agree_mapM_storage (n : Nat) (options : List Storage) :
    Agree (List.Forall₂ SameLines) (options.mapM (w.storage n)) (options.mapM (w.unfinished.storage n)) :=
  agree_mapM (agree_storage hw n) options

theorem agree_storages (n : Nat) (options : List Storage) :
    Agree SameLines (w.storages n options) (w.unfinished.storages n options) :=
  (agree_mapM_storage hw n options).result SameLines.join

theorem agree_onDelete (n : Nat) (rule : OnDelete) :
    Agree Collapsed (w.onDelete n rule) (w.unfinished.onDelete n rule) :=
  agree_leaf hw rule.kind _

theorem agree_references (n : Nat) (key : ForeignKey) :
    Agree SameLines (w.references n key) (w.unfinished.references n key) := by
  unfold references
  cases key.onDelete with
  | none => exact .ok (.refl _)
  | some rule =>
    exact (agree_onDelete hw _ rule).result fun h =>
      ((SameLines.refl _).append ((SameLines.refl " ").append h.sameLines)).append (.refl _)

theorem agree_condition (check : Check) :
    Agree SameLines (w.condition check) (w.unfinished.condition check) :=
  (agree_term hw (.expression check.condition)).result fun h =>
    ((SameLines.refl _).append h.sameLines).append (.refl _)

theorem agree_columnKey (n : Nat) (words : String) (key : Key) :
    Agree SameLines (w.columnKey n words key) (w.unfinished.columnKey n words key) :=
  (agree_storages hw _ key.storage).result fun h => (SameLines.refl _).append h

theorem agree_columnClause (n : Nat) (clause : ColumnClause) :
    Agree Collapsed (w.columnClause n clause) (w.unfinished.columnClause n clause) := by
  cases clause with
  | dataType t =>
    refine agree_write hw fun layout => ?_
    cases layout with
    | dataType => exact .ok (.refl _)
    | _ => exact .error _
  | notNull name =>
    refine agree_write hw fun layout => ?_
    cases layout with
    | notNull => exact .ok (.refl _)
    | _ => exact .error _
  | defaultValue value =>
    refine agree_write hw fun layout => ?_
    cases layout with
    | defaultValue =>
      exact (agree_term hw value).result fun h => ((SameLines.refl _).append h.sameLines).append (.refl _)
    | _ => exact .error _
  | primaryKey key =>
    refine agree_write hw fun layout => ?_
    cases layout with
    | columnPrimaryKey => exact agree_columnKey hw n _ key
    | _ => exact .error _
  | unique key =>
    refine agree_write hw fun layout => ?_
    cases layout with
    | columnUnique => exact agree_columnKey hw n _ key
    | _ => exact .error _
  | foreignKey key =>
    refine agree_write hw fun layout => ?_
    cases layout with
    | columnForeignKey => exact (agree_references hw n key).result fun h => (SameLines.refl _).append h
    | _ => exact .error _
  | check c =>
    refine agree_write hw fun layout => ?_
    cases layout with
    | columnCheck => exact (agree_condition hw c).result fun h => (SameLines.refl _).append h
    | _ => exact .error _

theorem agree_tableKey (n : Nat) (words : String) (key : Key) (columns : List String) :
    Agree SameLines (w.tableKey n words key columns) (w.unfinished.tableKey n words key columns) :=
  (agree_mapM_storage hw _ key.storage).result fun h =>
    (SameLines.refl _).append (SameLines.join (SameLines.map (fun h => (SameLines.refl " ").append h)
      (SameLines.filter_ne_empty h)))

theorem agree_tableConstraint (n : Nat) (constraint : TableConstraint) :
    Agree Collapsed (w.tableConstraint n constraint) (w.unfinished.tableConstraint n constraint) := by
  cases constraint with
  | primaryKey key columns =>
    refine agree_write hw fun layout => ?_
    cases layout with
    | primaryKey => exact agree_tableKey hw n _ key columns
    | _ => exact .error _
  | unique key columns =>
    refine agree_write hw fun layout => ?_
    cases layout with
    | unique => exact agree_tableKey hw n _ key columns
    | _ => exact .error _
  | foreignKey key columns =>
    refine agree_write hw fun layout => ?_
    cases layout with
    | foreignKey => exact (agree_references hw n key).result fun h => (SameLines.refl _).append h
    | _ => exact .error _
  | check c =>
    refine agree_write hw fun layout => ?_
    cases layout with
    | check => exact (agree_condition hw c).result fun h => (SameLines.refl _).append h
    | _ => exact .error _

theorem agree_columnClauses (n width : Nat) (clauses : List ColumnClause) :
    Agree (List.Forall₂ SameLines) (w.columnClauses n width clauses)
      (w.unfinished.columnClauses n width clauses) := by
  cases clauses with
  | nil => exact .ok .nil
  | cons first others =>
    exact (agree_columnClause hw n first).bind fun h =>
      (agree_mapM (agree_columnClause hw _) others).result fun hs => .cons h.sameLines hs

theorem agree_column (n width : Nat) (c : Column) :
    Agree Collapsed (w.column n width c) (w.unfinished.column n width c) := by
  refine agree_write hw fun layout => ?_
  cases layout with
  | column =>
    -- Both writers sort by the order of their dialect, which is one.
    have hsorted : Agree Eq (w.sorted ColumnClause.kind c.clauses)
        (w.unfinished.sorted ColumnClause.kind c.clauses) := .refl (fun _ => rfl) _
    refine hsorted.bind fun {clauses _} heq => ?_
    subst heq
    exact (agree_columnClauses hw n width clauses).result fun h =>
      (SameLines.refl _).append (SameLines.intercalate " " h)
  | _ => exact .error _

theorem agree_mapM_column (n width : Nat) (columns : List Column) :
    Agree (List.Forall₂ SameLines) (columns.mapM (w.column n width))
      (columns.mapM (w.unfinished.column n width)) :=
  agree_mapM (agree_column hw n width) columns

theorem agree_table (n : Nat) (t : Table) :
    Agree Collapsed (w.table n t) (w.unfinished.table n t) := by
  refine agree_write hw fun layout => ?_
  cases layout with
  | table =>
    refine (agree_mapM_column hw _ _ t.columns).bind fun hcolumns => ?_
    refine (agree_mapM (agree_tableConstraint hw _) t.constraints).bind fun hconstraints => ?_
    refine (agree_storages hw n t.storage).result fun hoptions => ?_
    have hbody := SameLines.intercalate ",\n" (List.rel_append hcolumns hconstraints)
    exact (((SameLines.refl _).append hbody).append (.refl "\n)")).append hoptions |>.append (.refl _)
  | _ => exact .error _

/-! ### Statements -/

theorem agree_index (n : Nat) (i : Index) : Agree Collapsed (w.index n i) (w.unfinished.index n i) := by
  refine agree_write hw fun layout => ?_
  cases layout with
  | index =>
    exact (agree_storages hw _ i.storage).result fun h => ((SameLines.refl _).append h).append (.refl _)
  | _ => exact .error _

theorem agree_sequenceOption (option : SequenceOption) :
    Agree Collapsed (w.sequenceOption option) (w.unfinished.sequenceOption option) :=
  agree_leaf hw option.kind _

theorem agree_sequence (s : Sequence) : Agree Collapsed (w.sequence s) (w.unfinished.sequence s) := by
  refine agree_write hw fun layout => ?_
  cases layout with
  | sequence =>
    refine (agree_mapM (agree_sequenceOption hw) s.options).result fun h => ?_
    exact ((SameLines.refl _).append (SameLines.join h)).append (.refl _)
  | _ => exact .error _

theorem agree_synonym (s : Synonym) : Agree Collapsed (w.synonym s) (w.unfinished.synonym s) :=
  agree_leaf hw .synonym _

theorem agree_drop (d : Drop) : Agree Collapsed (w.drop d) (w.unfinished.drop d) :=
  agree_leaf hw .drop _

theorem agree_rename (r : Rename) : Agree Collapsed (w.rename r) (w.unfinished.rename r) :=
  agree_leaf hw .rename _

theorem agree_modify (n : Nat) (columns : List Column) :
    Agree Collapsed (w.modify n columns) (w.unfinished.modify n columns) := by
  refine agree_write hw fun layout => ?_
  cases layout with
  | modify =>
    exact (agree_mapM_column hw _ _ columns).result fun h =>
      ((SameLines.refl _).append (SameLines.intercalate ",\n" h)).append (.refl _)
  | _ => exact .error _

theorem agree_addition (n : Nat) (a : Addition) :
    Agree Collapsed (w.addition n a) (w.unfinished.addition n a) := by
  cases a with
  | column c => exact agree_column hw n 0 c
  | constraint c => exact agree_tableConstraint hw n c
  | storage s => exact agree_storage hw n s

theorem agree_modification (n : Nat) (m : Modification) :
    Agree Collapsed (w.modification n m) (w.unfinished.modification n m) := by
  cases m with
  | rename r => exact agree_rename hw r
  | modify columns => exact agree_modify hw n columns
  | storage s => exact agree_storage hw n s

/-- Additions lose the blanks at their start, and those that are empty are left out. -/
theorem agree_additions (n : Nat) (adds : List Addition) :
    Agree SameLines (w.additions n adds) (w.unfinished.additions n adds) := by
  refine (agree_mapM (agree_addition hw 0) adds).result fun h => ?_
  have htrimmed := SameLines.map SameLines.trimStart h
  have hlines := SameLines.map (fun h => (SameLines.refl (newLine (n + tab) ++ "ADD ")).append h)
    (SameLines.filter_ne_empty htrimmed)
  exact SameLines.intercalate "," hlines

omit hw in
/-- A change is left out on both sides or on neither. -/
theorem agree_change {body body' : String} (h : SameLines body body') (opening : String)
    (P : Prop) [Decidable P] :
    Agree SameLines (if body = "" ∧ P then return "" else return opening ++ body ++ ";")
      (if body' = "" ∧ P then return "" else return opening ++ body' ++ ";") := by
  simp only [h.eq_empty_iff]
  split
  · exact .ok (.refl _)
  · exact .ok (((SameLines.refl _).append h).append (.refl _))

theorem agree_alterTable (n : Nat) (a : AlterTable) :
    Agree Collapsed (w.alterTable n a) (w.unfinished.alterTable n a) := by
  refine agree_write hw fun layout => ?_
  cases layout with
  | alterTable =>
    refine (agree_additions hw n a.adds).bind fun hadds => ?_
    refine (agree_mapM (agree_modification hw _) a.mods).bind fun hmods => ?_
    refine (agree_mapM (agree_drop hw) a.drops).bind fun hdrops => ?_
    have hlines := SameLines.map (fun h => (SameLines.refl (newLine (n + tab))).append h) hdrops
    have hbody := (hadds.append (SameLines.join hmods)).append (SameLines.join hlines)
    exact agree_change hbody _ _
  | _ => exact .error _

theorem agree_alterIndex (n : Nat) (a : AlterIndex) :
    Agree Collapsed (w.alterIndex n a) (w.unfinished.alterIndex n a) := by
  refine agree_write hw fun layout => ?_
  cases layout with
  | alterIndex =>
    exact (agree_storages hw _ a.storage).bind fun hbody => agree_change hbody _ _
  | _ => exact .error _

theorem agree_comment (c : Comment) : Agree Collapsed (w.comment c) (w.unfinished.comment c) :=
  agree_leaf hw c.kind _

theorem agree_insert (n : Nat) (i : Insert) :
    Agree Collapsed (w.insert n i) (w.unfinished.insert n i) := by
  refine agree_write hw fun layout => ?_
  cases layout with
  | insert =>
    refine (agree_terms hw i.values).result fun h => ?_
    have hvalues := ((SameLines.refl "(").append (SameLines.intercalate ", " h)).append (.refl ")")
    exact ((SameLines.refl _).append hvalues).append (.refl _)
  | _ => exact .error _

theorem agree_commit : Agree Collapsed w.commit w.unfinished.commit := agree_leaf hw .commit _

theorem agree_inclusion (path : String) :
    Agree Collapsed (w.inclusion path) (w.unfinished.inclusion path) :=
  agree_leaf hw .inclusion _

theorem agree_statement (n : Nat) (s : Statement) :
    Agree Collapsed (w.statement n s) (w.unfinished.statement n s) := by
  cases s with
  | table t => exact agree_table hw n t
  | index i => exact agree_index hw n i
  | sequence s => exact agree_sequence hw s
  | synonym s => exact agree_synonym hw s
  | alterTable a => exact agree_alterTable hw n a
  | alterIndex a => exact agree_alterIndex hw n a
  | drop d => exact agree_drop hw d
  | comment c => exact agree_comment hw c
  | insert i => exact agree_insert hw n i
  | commit => exact agree_commit hw
  | inclusion path => exact agree_inclusion hw path

/-- **A node is written as what it is without collapsing, collapsed once.** -/
theorem agree_node (n : Nat) (node : Node) :
    Agree Collapsed (w.node n node) (w.unfinished.node n node) := by
  cases node with
  | statement s => exact agree_statement hw n s
  | column c width => exact agree_column hw n width c
  | columnClause c => exact agree_columnClause hw n c
  | tableConstraint c => exact agree_tableConstraint hw n c
  | onDelete rule => exact agree_onDelete hw n rule
  | storage s => exact agree_storage hw n s
  | sequenceOption o => exact agree_sequenceOption hw o
  | rename r => exact agree_rename hw r
  | modify columns => exact agree_modify hw n columns
  | term t => exact agree_term hw t

end Writer

/-- **Collapsing the lines of every node is collapsing those of the whole once.** The writers of the
targets are made, and write every node, at every column. Without collapsing anything they write a
text, and what they do write is that text collapsed. Either text is empty if and only if the other
is. -/
theorem Target.node_collapsed_once (t : Target) (o : WriteOptions) :
    ∃ w, Writer.ofDialect t.dialect o = .ok w ∧ ∀ (n : Nat) (node : Node),
      ∃ text, ({ w with finish := id } : Writer).node n node = .ok text ∧
        w.node n node = .ok (Text.collapse text) ∧ (Text.collapse text = "" ↔ text = "") := by
  refine ⟨t.writer o, t.ofDialect_eq o, fun n node => ?_⟩
  have hwritten : FailsOnly (fun _ => False) ((t.writer o).unfinished.node n node) := fun e he =>
    t.not_misfit e (Dialect.Complete.node t.complete n node e he)
  obtain ⟨text, htext⟩ := hwritten.exists_ok
  have hagree : Agree Writer.Collapsed ((t.writer o).node n node) (.ok text) :=
    htext ▸ Writer.agree_node rfl n node
  obtain ⟨out, hout, rfl⟩ := hagree.exists_ok
  exact ⟨text, htext, hout, Text.collapse_eq_empty⟩

end SchemaScript
