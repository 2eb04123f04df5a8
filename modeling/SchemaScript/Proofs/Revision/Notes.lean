import SchemaScript.Proofs.Revision.Revised

/-!
# Every change is noted

* `Warning.Filled` — a warning has a name for each place in its message.
* `Noted.Reports` — what comes of a step is what was to be expected unless something is noted, and
  what is noted is filled.
* `Noted.Reports.bind`, `Noted.Reports.foldlM`, `Noted.Reports.mapM` — steps in a row, and for each
  item of a list.
* `Slots.reports_foldAt`, `Table.reports_normalize` — one step of the first stages of a revision.
* `Script.reports_dropIndexes` — the last stage, from what it comes to statement by statement.
* `Script.revise_notes` — a whole revision.
-/

set_option autoImplicit false

namespace SchemaScript

/-! ## Steps that report -/

/-- A warning has just as many names as its message has room for. -/
def Warning.Filled (w : Warning) : Prop := w.args.length = w.kind.arity

namespace Noted

variable {α β : Type}

/-- A value with notes is an expected value unless something is noted, and the notes are filled. -/
structure Reports (x : Noted α) (expected : α) : Prop where
  silent : x.notes = [] → x.value = expected
  filled : ∀ w ∈ x.notes, w.Filled

namespace Reports

theorem pure (a : α) : Reports (Pure.pure a) a := ⟨fun _ => rfl, by simp⟩

theorem note {w : Warning} (hw : w.args.length = w.kind.arity) (a expected : α) :
    Reports ⟨a, [w]⟩ expected :=
  ⟨by simp, by simpa [Warning.Filled] using hw⟩

theorem bind {x : Noted α} {a : α} {f : α → Noted β} {g : α → β} (hx : x.Reports a)
    (hf : ∀ a, (f a).Reports (g a)) : (x >>= f).Reports (g a) := by
  constructor
  · intro h
    rw [bind_notes, List.append_eq_nil_iff] at h
    have hvalue := (hf x.value).silent h.2
    rw [bind_value, hvalue, hx.silent h.1]
  · rw [bind_notes, List.forall_mem_append]
    exact ⟨hx.filled, (hf x.value).filled⟩

/-- A value that reports, with something made of it. -/
theorem map {x : Noted α} {a : α} (hx : x.Reports a) (g : α → β) :
    (x >>= fun a => Pure.pure (g a)).Reports (g a) :=
  hx.bind fun a => pure (g a)

/-- Steps of a list in a row. -/
theorem foldlM {f : α → β → Noted α} {g : α → β → α} (hf : ∀ a b, (f a b).Reports (g a b))
    (bs : List β) (a : α) : (bs.foldlM f a).Reports (bs.foldl g a) := by
  induction bs generalizing a with
  | nil => exact pure a
  | cons b bs ih =>
    rw [List.foldlM_cons, List.foldl_cons]
    exact (hf a b).bind ih

/-- A step for each item of a list. -/
theorem mapM {f : α → Noted α} (hf : ∀ a, (f a).Reports a) (as : List α) :
    (as.mapM f).Reports as := by
  induction as with
  | nil => exact pure []
  | cons a as ih =>
    rw [List.mapM_cons]
    exact (hf a).bind (g := fun b => b :: as) fun b => ih.map (b :: ·)

end Reports

end Noted

/-! ## Changes folded -/

namespace Slots

variable (catalog : Catalog) (slots : Slots)

theorem reports_foldTable (position : Nat) (a : AlterTable) :
    (slots.foldTable catalog position a).Reports slots := by
  unfold foldTable
  split
  · exact .pure slots
  · split
    · exact .pure slots
    · exact .note (by rfl) _ slots

theorem reports_foldIndex (position : Nat) (a : AlterIndex) :
    (slots.foldIndex catalog position a).Reports slots := by
  unfold foldIndex
  split
  · exact .pure slots
  · split
    · exact .pure slots
    · exact .note (by rfl) _ slots

/-- **One statement folded:** whatever it is folded into, that is noted. -/
theorem reports_foldAt (position : Nat) : (slots.foldAt catalog position).Reports slots := by
  unfold foldAt
  split
  · exact reports_foldTable catalog slots position _
  · exact reports_foldIndex catalog slots position _
  · exact .pure slots

end Slots

/-! ## Constraints in order -/

namespace Table

/-- **One constraint more:** it is added, or else it is noted that it becomes a clause. -/
theorem reports_attach (t : Table) (constraint : TableConstraint) :
    (t.attach constraint).Reports (t.addConstraint constraint) := by
  unfold attach
  split
  · exact .pure _
  · split
    · exact .note (by rfl) _ _
    · exact .pure _

theorem foldl_addConstraint (constraints : List TableConstraint) (t : Table) :
    constraints.foldl addConstraint t = { t with constraints := t.constraints ++ constraints } := by
  induction constraints generalizing t with
  | nil => simp
  | cons constraint constraints ih => simp [ih, addConstraint]

theorem reports_attachConstraints (t : Table) : t.attachConstraints.Reports t := by
  have hrun := Noted.Reports.foldlM reports_attach t.constraints { t with constraints := [] }
  rwa [foldl_addConstraint] at hrun

end Table

namespace ColumnClause

variable (table column : String) (m : ColumnClause)

theorem reports_named : (named table column m).Reports m := by
  unfold named
  split
  · exact .note (by rfl) _ _
  · exact .note (by rfl) _ _
  · exact .note (by rfl) _ _
  · exact .pure _

theorem reports_unnamed : (unnamed table column m).Reports m := by
  unfold unnamed
  split
  · exact .note (by rfl) _ _
  · exact .pure _

theorem filled_implied? {w : Warning} (h : m.implied? table column = some w) : w.Filled := by
  cases m with
  | notNull name | unique key =>
    cases h
    rfl
  | _ => cases h

end ColumnClause

namespace Column

variable (table : String) (c : Column)

theorem reports_dropImplied : (c.dropImplied table).Reports c := by
  unfold dropImplied
  split
  · constructor
    · intro h
      have hall : c.clauses.filter (fun m => (m.implied? table c.name).isNone) = c.clauses := by
        rw [List.filter_eq_self]
        intro m hm
        rw [List.filterMap_eq_nil_iff.mp h m hm]
        rfl
      simp only [hall]
    · intro w hw
      obtain ⟨m, -, hm⟩ := List.mem_filterMap.mp hw
      exact m.filled_implied? table c.name hm
  · exact .pure c

/-- **One column in order.** -/
theorem reports_normalize : (c.normalize table).Reports c := by
  refine (c.reports_dropImplied table).bind (g := id) fun c => ?_
  refine ((Noted.Reports.mapM (ColumnClause.reports_named table c.name) c.clauses).map
    fun clauses => { c with clauses }).bind (g := id) fun c => ?_
  exact (Noted.Reports.mapM (ColumnClause.reports_unnamed table c.name) c.clauses).map
    fun clauses => { c with clauses }

end Column

/-- **One table in order.** -/
theorem Table.reports_normalize (t : Table) : t.normalize.Reports t := by
  refine t.reports_attachConstraints.bind (g := id) fun t => ?_
  exact (Noted.Reports.mapM (Column.reports_normalize t.name) t.columns).map
    fun columns => { t with columns }

theorem Statement.reports_normalize (st : Statement) : st.normalize.Reports st := by
  cases st with
  | table t => exact t.reports_normalize.map Statement.table
  | _ => exact .pure _

/-! ## Superfluous indexes removed -/

theorem Statement.filled_redundantNote? {s : Script} {st : Statement} {w : Warning}
    (h : st.redundantNote? s = some w) : w.Filled := by
  cases st with
  | index i =>
    rw [redundantNote?] at h
    split at h
    · rename_i hredundant
      obtain ⟨t, place, key, -, -, -, -, hnote⟩ := Script.exists_key_of_isRedundant hredundant
      rw [redundantNote?, if_pos hredundant, h] at hnote
      cases hnote
      rfl
    · cases h
  | _ => cases h

/-! ## Whole revisions -/

namespace Script

theorem reports_foldAlterations (s : Script) : s.foldAlterations.Reports s := by
  have hrun := (Noted.Reports.foldlM (Slots.reports_foldAt s.catalog)
    s.catalog.others s.slots).map Slots.toScript
  have hself : (s.catalog.others.foldl (fun slots _ => slots) s.slots).toScript = s := by
    simp [slots, Slots.toScript]
  rwa [hself] at hrun

theorem reports_normalizeTables (s : Script) : s.normalizeTables.Reports s :=
  (Noted.Reports.mapM Statement.reports_normalize s.statements).map Script.mk

/-- **All superfluous indexes removed:** where none is noted, none was there. -/
theorem reports_dropIndexes (s : Script) : s.dropIndexes.Reports s := by
  have hnotes : s.dropIndexes.notes = s.statements.filterMap (Statement.redundantNote? s) := by
    rw [dropIndexes_eq]
  constructor
  · intro h
    rw [hnotes, List.filterMap_eq_nil_iff] at h
    rw [dropIndexes_of_irredundant]
    · rfl
    · intro i hi
      rw [Bool.eq_false_iff]
      intro hredundant
      obtain ⟨t, place, key, -, -, -, -, hnote⟩ := exists_key_of_isRedundant hredundant
      exact Option.some_ne_none _ (hnote.symm.trans (h _ hi))
  · intro w hw
    rw [hnotes] at hw
    obtain ⟨st, -, hnote⟩ := List.mem_filterMap.mp hw
    exact st.filled_redundantNote? hnote

theorem reports_revise (level : Level) (s : Script) : (s.revise level).Reports s := by
  cases level with
  | none => exact .pure s
  | basic => exact s.reports_foldAlterations
  | best =>
    refine s.reports_foldAlterations.bind (g := id) fun s => ?_
    exact s.reports_normalizeTables.bind (g := id) reports_dropIndexes

/-- A revision that leaves a script as it is notes only changes to tables: the script is then
revised already, so that no later step took an earlier one back. -/
theorem kind_of_value_eq {level : Level} {s : Script} (h : (s.revise level).value = s) :
    ∀ w ∈ (s.revise level).notes, w.kind = .alterTablePromoted := by
  have hleft : ∀ w ∈ s.leftNotes, w.kind = .alterTablePromoted := by
    intro w hw
    obtain ⟨a, -, hnote⟩ := List.mem_filterMap.mp hw
    obtain ⟨t, -, rfl⟩ := Option.map_eq_some_iff.mp hnote
    rfl
  cases level with
  | none => simp [revise]
  | basic =>
    have hfolded : s.Folded := h ▸ s.folded_foldAlterations
    rw [revise, foldAlterations_of_folded hfolded]
    exact hleft
  | best =>
    have hnormal : s.Normal := h ▸ s.normal_revise_best
    rw [revise_best_of_normal hnormal]
    exact hleft

/-- **Every change is noted, and what is noted has changed.** A revision that notes nothing leaves
the script as it is. One that notes anything but changes to tables, of which all may be left,
changes the script. And a note has a name for each place in its message. -/
theorem revise_notes (level : Level) (s : Script) :
    ((s.revise level).notes = [] → (s.revise level).value = s) ∧
    (∀ w ∈ (s.revise level).notes, w.kind ≠ .alterTablePromoted → (s.revise level).value ≠ s) ∧
    ∀ w ∈ (s.revise level).notes, w.args.length = w.kind.arity := by
  obtain ⟨hsilent, hfilled⟩ := s.reports_revise level
  refine ⟨hsilent, ?_, hfilled⟩
  intro w hw hkind hvalue
  exact hkind (kind_of_value_eq hvalue w hw)

/-- A foreign key that gets a name is noted, so that the script has changed. Once it has the name,
nothing is noted. -/
theorem revise_notes_foreign_key :
    ∃ s s' : Script, ∃ w, w ∈ (s.revise .best).notes ∧ w.kind ≠ .alterTablePromoted ∧
      (s.revise .best).value ≠ s ∧ w.args.length = w.kind.arity ∧
      (s'.revise .best).notes = [] ∧ (s'.revise .best).value = s' := by
  have hnote : (⟨.anonymousConstraint, ["fk", "t", "x"]⟩ : Warning) ∈
      (Script.revise .best ⟨[.table
        { name := "t", columns := [⟨"x", "t", [.foreignKey { target := ⟨"p", ["id"]⟩ }]⟩] }]⟩).notes := by
    decide
  have hsilent : (Script.revise .best ⟨[.table
      { name := "t"
        columns := [⟨"x", "t", [.foreignKey { name := some "x_fk", target := ⟨"p", ["id"]⟩ }]⟩] }
      ]⟩).notes = [] := by
    decide
  obtain ⟨-, hchanged, hfilled⟩ := revise_notes .best ⟨[.table
    { name := "t", columns := [⟨"x", "t", [.foreignKey { target := ⟨"p", ["id"]⟩ }]⟩] }]⟩
  exact ⟨_, _, _, hnote, by decide, hchanged _ hnote (by decide), hfilled _ hnote, hsilent,
    (revise_notes .best _).1 hsilent⟩

end Script

end SchemaScript
