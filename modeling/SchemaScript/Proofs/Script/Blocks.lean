import SchemaScript.Proofs.Dialect.Completeness
import SchemaScript.Proofs.Script.RoundTrip

/-!
# The blocks of a written script

A script is written as the texts of its statements, with an empty line between them, and can be
taken apart there.

* `Text.paragraphs` — a text cut wherever two newlines are adjacent.
* `Text.IsBlock` — a text that has no such place, and no newline at either end.
* `Yields` — a computation gives nothing but results of one class.
* `Writer.yields_statement` — a statement is written as a block.
* `Script.paragraphs_written` — the paragraphs of a written script are the texts of its statements.
-/

set_option autoImplicit false

namespace SchemaScript

namespace Text

/-! ## Paragraphs -/

/-- Characters cut wherever two newlines are adjacent, the two left out. -/
def cutParagraphs : List Char → List (List Char)
  | [] => [[]]
  | '\n' :: '\n' :: cs => [] :: cutParagraphs cs
  | c :: cs => (cutParagraphs cs).modifyHead (c :: ·)

/-- A text cut wherever two newlines are adjacent. -/
def paragraphs (s : String) : List String := (cutParagraphs s.toList).map String.ofList

/-- A text with no newline at its start or end. -/
structure Edged (s : String) : Prop where
  head_ne : s.toList.head? ≠ some '\n'
  last_ne : s.toList.getLast? ≠ some '\n'

/-- A text without adjacent newlines, and with none at its start or end. -/
structure IsBlock (s : String) : Prop extends Edged s where
  no_gap : ¬ ['\n', '\n'] <:+: s.toList

theorem cutParagraphs_cons {c : Char} {cs : List Char} (h : c = '\n' → cs.head? ≠ some '\n') :
    cutParagraphs (c :: cs) = (cutParagraphs cs).modifyHead (c :: ·) := by
  rw [cutParagraphs]
  rintro tail rfl rfl
  exact h rfl rfl

theorem cutParagraphs_eq_singleton {cs : List Char} (h : ¬ ['\n', '\n'] <:+: cs) :
    cutParagraphs cs = [cs] := by
  induction cs with
  | nil => rfl
  | cons c cs ih =>
    obtain ⟨hhead, htail⟩ := Scan.pair_not_infix_cons h
    rw [cutParagraphs_cons hhead, ih htail]
    rfl

/-- A block ends where the next empty line begins. -/
theorem cutParagraphs_append {cs : List Char} (hlast : cs.getLast? ≠ some '\n')
    (h : ¬ ['\n', '\n'] <:+: cs) (rest : List Char) :
    cutParagraphs (cs ++ '\n' :: '\n' :: rest) = cs :: cutParagraphs rest := by
  induction cs with
  | nil => rfl
  | cons c cs ih =>
    obtain ⟨hhead, htail⟩ := Scan.pair_not_infix_cons h
    have hnext : c = '\n' → (cs ++ '\n' :: '\n' :: rest).head? ≠ some '\n' := by
      intro hc
      cases cs with
      | nil => exact absurd (congrArg some hc) hlast
      | cons d cs => exact hhead hc
    have htail_last : cs.getLast? ≠ some '\n' := by
      intro hcs
      exact hlast (by rw [List.getLast?_cons, hcs]; rfl)
    rw [List.cons_append, cutParagraphs_cons hnext, ih htail_last htail]
    rfl

/-- Blocks with an empty line between them are the paragraphs of the whole. -/
theorem paragraphs_intercalate {blocks : List String} (hne : blocks ≠ [])
    (h : ∀ b ∈ blocks, IsBlock b) : paragraphs ("\n\n".intercalate blocks) = blocks := by
  have hcut : ∀ (b : String) (bs : List String), (∀ x ∈ b :: bs, IsBlock x) →
      cutParagraphs ("\n\n".intercalate (b :: bs)).toList = (b :: bs).map String.toList := by
    intro b bs
    induction bs generalizing b with
    | nil =>
      intro hb
      rw [String.intercalate_singleton, cutParagraphs_eq_singleton (hb b (by simp)).no_gap]
      rfl
    | cons b' bs ih =>
      intro hb
      have hfirst := hb b (by simp)
      have hrest := ih b' fun x hx => hb x (by simp [hx])
      rw [String.intercalate_cons_cons, String.toList_append, String.toList_append, List.append_assoc]
      show cutParagraphs (b.toList ++ '\n' :: '\n' :: ("\n\n".intercalate (b' :: bs)).toList) = _
      rw [cutParagraphs_append hfirst.last_ne hfirst.no_gap, hrest]
      rfl
  cases blocks with
  | nil => exact absurd rfl hne
  | cons b bs =>
    rw [paragraphs, hcut b bs h, List.map_map]
    exact (List.map_congr_left fun x _ => String.ofList_toList).trans (List.map_id _)

example : paragraphs "a\nb\n\nc\n\n\nd" = ["a\nb", "c", "\nd"] := by decide

/-! ## Blocks -/

theorem getLast?_append_any {a b : String} (hb : b.toList.getLast?.any (· ≠ '\n')) :
    (a ++ b).toList.getLast?.any (· ≠ '\n') := by
  rw [String.toList_append, List.getLast?_append]
  cases hlast : b.toList.getLast? with
  | none => rw [hlast] at hb; cases hb
  | some c => rwa [hlast] at hb

theorem ne_of_any {c : Option Char} (h : c.any (· ≠ '\n')) : c ≠ some '\n' := by
  rintro rfl
  simp at h

/-- A text that opens with one piece and ends with another. -/
theorem Edged.of_ends {a b : String} (ha : a.toList.head?.any (· ≠ '\n'))
    (hb : b.toList.getLast?.any (· ≠ '\n')) : Edged (a ++ b) := by
  refine ⟨ne_of_any ?_, ne_of_any (getLast?_append_any hb)⟩
  rw [String.toList_append, List.head?_append]
  cases hhead : a.toList.head? with
  | none => rw [hhead] at ha; cases ha
  | some c => rwa [hhead] at ha

theorem Edged.of_no_newline {s : String} (h : '\n' ∉ s.toList) : Edged s :=
  ⟨fun hhead => h (List.mem_of_head? hhead), fun hlast => h (List.mem_of_getLast? hlast)⟩

theorem Edged.collapse {s : String} (h : Edged s) : IsBlock (collapse s) := by
  have hlines : (Text.collapse s).toList = collapseLines s.toList := String.toList_ofList
  refine ⟨⟨?_, ?_⟩, ?_⟩
  · rw [hlines, head?_collapseLines]
    exact h.head_ne
  · rw [hlines, getLast?_collapseLines]
    exact h.last_ne
  · rw [hlines]
    exact no_gap_collapseLines s.toList

end Text

/-! ## What statements are written as -/

/-- A computation gives nothing but results of one class. -/
def Yields {ε α : Type} (P : α → Prop) (x : Except ε α) : Prop := ∀ a, x = .ok a → P a

namespace Yields

variable {ε α β : Type} {P : β → Prop}

theorem ok {b : β} (h : P b) : Yields P (.ok b : Except ε β) := by
  intro b' hb
  cases hb
  exact h

theorem error (e : ε) : Yields P (.error e : Except ε β) := by
  intro b hb
  cases hb

theorem bind {x : Except ε α} {f : α → Except ε β} (h : ∀ a, Yields P (f a)) :
    Yields P (x >>= f) := by
  cases x with
  | error e => exact error e
  | ok a => exact h a

end Yields

namespace Writer

variable {w : Writer} (hw : w.finish = Text.collapse)

include hw

/-- A node is written as a block if no layout for it has a newline at either end. -/
theorem yields_write {kind : Kind} {form : Layout → Written}
    (h : ∀ layout, Yields Text.Edged (form layout)) :
    Yields Text.IsBlock (w.write kind form) := by
  intro out hout
  rw [write] at hout
  split at hout
  · cases hout
  · cases hout
    exact (Text.Edged.of_no_newline (s := "") (by simp)).collapse
  · rename_i layout _
    cases hform : form layout with
    | error e => rw [hform] at hout; cases hout
    | ok raw =>
      rw [hform, hw] at hout
      cases hout
      exact (h layout raw hform).collapse

theorem yields_table (n : Nat) (t : Table) : Yields Text.IsBlock (w.table n t) := by
  refine yields_write hw fun layout => ?_
  split
  · exact .bind fun _ => .bind fun _ => .bind fun _ => .ok (.of_ends (by simp) rfl)
  · exact .error _

theorem yields_index (n : Nat) (i : Index) : Yields Text.IsBlock (w.index n i) := by
  refine yields_write hw fun layout => ?_
  split
  · exact .bind fun _ => .ok (.of_ends (by simp) rfl)
  · exact .error _

theorem yields_sequence (s : Sequence) : Yields Text.IsBlock (w.sequence s) := by
  refine yields_write hw fun layout => ?_
  split
  · exact .bind fun _ => .ok (.of_ends (by simp) rfl)
  · exact .error _

theorem yields_synonym (s : Synonym) : Yields Text.IsBlock (w.synonym s) := by
  refine yields_write hw fun layout => ?_
  split
  · split
    · exact .ok (.of_ends (by simp) rfl)
    · exact .ok (.of_ends (by simp) rfl)
  · exact .error _

theorem yields_alterTable (n : Nat) (a : AlterTable) : Yields Text.IsBlock (w.alterTable n a) := by
  refine yields_write hw fun layout => ?_
  split
  · refine .bind fun _ => .bind fun _ => .bind fun _ => ?_
    dsimp only
    split
    · exact .ok (.of_no_newline (by simp))
    · exact .ok (.of_ends (by simp) rfl)
  · exact .error _

theorem yields_alterIndex (n : Nat) (a : AlterIndex) : Yields Text.IsBlock (w.alterIndex n a) := by
  refine yields_write hw fun layout => ?_
  split
  · refine .bind fun _ => ?_
    split
    · exact .ok (.of_no_newline (by simp))
    · exact .ok (.of_ends (by simp) rfl)
  · exact .error _

theorem yields_comment (c : Comment) : Yields Text.IsBlock (w.comment c) := by
  refine yields_write hw fun layout => ?_
  split
  · split
    · exact .ok (.of_ends (by simp) rfl)
    · exact .ok (.of_ends (by simp) rfl)
  · exact .error _

theorem yields_insert (n : Nat) (i : Insert) : Yields Text.IsBlock (w.insert n i) := by
  refine yields_write hw fun layout => ?_
  split
  · exact .bind fun _ => .ok (.of_ends (by simp) rfl)
  · exact .error _

theorem yields_commit : Yields Text.IsBlock w.commit := by
  refine yields_write hw fun layout => ?_
  split
  · exact .ok (.of_no_newline (by decide))
  · exact .error _

/-- The name of a part of a table ends the line that drops it. -/
theorem yields_drop {d : Drop} (hname : IsName d.name) : Yields Text.IsBlock (w.drop d) := by
  have hline : '\n' ∉ (dropLine d).toList := by
    have hname := Scan.isWord_not_mem hname.isWord (d := '\n') (by decide)
    cases hd : d.object <;> simp [dropLine, DropObject.word, DropObject.isTablePart, hd, hname]
  refine yields_write hw fun layout => ?_
  split
  · exact .ok (.of_no_newline hline)
  · split
    · exact .ok (.of_no_newline (by simp))
    · exact .ok (.of_no_newline hline)
  · exact .error _

/-- The path of an inclusion ends its line. -/
theorem yields_inclusion {path : String}
    (hpath : '\n' ∉ path.toList) : Yields Text.IsBlock (w.inclusion path) := by
  refine yields_write hw fun layout => ?_
  split
  · exact .ok (.of_no_newline (by simp [hpath]))
  · exact .ok (.of_no_newline (by simp [hpath]))
  · exact .error _

/-- **A statement is written as a block.** -/
theorem yields_statement (n : Nat) {st : Statement}
    (hst : st.WellFormed) : Yields Text.IsBlock (w.statement n st) := by
  cases st with
  | table t => exact yields_table hw n t
  | index i => exact yields_index hw n i
  | sequence s => exact yields_sequence hw s
  | synonym s => exact yields_synonym hw s
  | alterTable a => exact yields_alterTable hw n a
  | alterIndex a => exact yields_alterIndex hw n a
  | drop d => exact yields_drop hw hst
  | comment c => exact yields_comment hw c
  | insert i => exact yields_insert hw n i
  | commit => exact yields_commit hw
  | inclusion path => exact yields_inclusion hw (hst.path rfl).2

end Writer

/-! ## Scripts -/

/-- The place of a statement's kind in the order of a target is the one at which it is listed. -/
theorem Target.place_kind (t : Target) (st : Statement) :
    t.dialect.place st.kind = t.dialect.order.idxOf st.kind :=
  Dialect.place_eq_idxOf t.nodup_order
    (t.complete.ordered _ (List.mem_append_left _ st.kind_mem))

/-- The statements of a script are written in the order in which they stand, or in the order of
their kinds. -/
theorem Script.arranged_order (t : Target) (o : WriteOptions) (s : Script) :
    if o.sort then StablySorted (fun st => t.dialect.order.idxOf st.kind) s.statements (s.arranged t o)
    else s.arranged t o = s.statements := by
  rw [arranged]
  split
  · simp only [t.place_kind]
    exact stablySorted_mergeSort (fun st : Statement => t.dialect.order.idxOf st.kind) s.statements
  · rfl

theorem layBlocks_eq_empty {blocks : List String} : layBlocks blocks = "" ↔ blocks = [] := by
  cases blocks with
  | nil => simp [layBlocks]
  | cons b bs => simp [layBlocks]

/-- The last block ends a text of blocks. -/
theorem getLast?_intercalate {blocks : List String} (hne : blocks ≠ [])
    (h : ∀ b ∈ blocks, Text.IsBlock b ∧ b ≠ "") :
    ("\n\n".intercalate blocks).toList.getLast?.any (· ≠ '\n') := by
  induction blocks with
  | nil => exact absurd rfl hne
  | cons b bs ih =>
    cases bs with
    | nil =>
      obtain ⟨hblock, hb⟩ := h b (by simp)
      rw [String.intercalate_singleton]
      cases hlast : b.toList.getLast? with
      | none => exact absurd (String.toList_eq_nil_iff.mp (List.getLast?_eq_none_iff.mp hlast)) hb
      | some c =>
        have hc := hblock.last_ne
        rw [hlast] at hc
        simpa using hc
    | cons b' bs =>
      rw [String.intercalate_cons_cons]
      exact Text.getLast?_append_any (ih (by simp) fun x hx => h x (by simp [hx]))

/-- **The blocks of a written script are its statements.** Every statement of a script that a text
holds is written as a block. The script comes out empty if and only if all of them do. Otherwise it
ends with one newline, and what stands in front of that, cut at the empty lines, is the texts that
are not empty, in the order of the statements or, if they are sorted, of their kinds, those of one
kind as they came. -/
theorem Script.paragraphs_written {text : String} {s : Script} (h : Script.parse text = .ok s)
    (t : Target) (o : WriteOptions) :
    ∃ (written : Statement → String) (order : List Statement) (out : String),
      (∀ st ∈ s.statements,
        (t.writer o).statement 0 st = .ok (written st) ∧ Text.IsBlock (written st)) ∧
      (if o.sort then StablySorted (fun st => t.dialect.order.idxOf st.kind) s.statements order
        else order = s.statements) ∧
      s.writeFor t o = .ok out ∧
      (out = "" ↔ ∀ st ∈ s.statements, written st = "") ∧
      (out ≠ "" → ∃ body, out = body ++ "\n" ∧ body.toList.getLast? ≠ some '\n' ∧
        Text.paragraphs body = (order.map written).filter (· ≠ "")) := by
  have hstatement : ∀ st ∈ s.arranged t o, ∃ out, (t.writer o).statement 0 st = .ok out ∧
      ((t.writer o).statement 0 st = .ok out ∧ Text.IsBlock out) := by
    intro st hst
    have hwf := (Script.of_parse h st (mem_arranged.mp hst)).1
    have hfails : FailsOnly (fun _ => False) ((t.writer o).statement 0 st) := fun e he =>
      t.not_misfit e (Dialect.Complete.statement t.complete 0 st e he)
    obtain ⟨out, hout⟩ := hfails.exists_ok
    exact ⟨out, hout, hout, Writer.yields_statement rfl 0 hwf out hout⟩
  obtain ⟨written, hmap, hwritten⟩ := mapM_eq_ok hstatement
  have hout : s.writeFor t o = .ok (layBlocks (((s.arranged t o).map written).filter (· ≠ ""))) := by
    rw [writeFor_eq, Target.script_eq, hmap]
    rfl
  refine ⟨written, s.arranged t o, _, fun st hst => hwritten st (mem_arranged.mpr hst),
    s.arranged_order t o, hout, ?_, fun hne => ?_⟩
  · rw [layBlocks_eq_empty, List.filter_eq_nil_iff]
    simp [mem_arranged]
  · have hblocks : ∀ b ∈ ((s.arranged t o).map written).filter (· ≠ ""),
        Text.IsBlock b ∧ b ≠ "" := by
      intro b hb
      obtain ⟨hmem, hb⟩ := List.mem_filter.mp hb
      obtain ⟨st, hst, rfl⟩ := List.mem_map.mp hmem
      exact ⟨(hwritten st hst).2, of_decide_eq_true hb⟩
    have hnil := mt layBlocks_eq_empty.mpr hne
    generalize ((s.arranged t o).map written).filter (· ≠ "") = blocks at *
    refine ⟨"\n\n".intercalate blocks, ?_, Text.ne_of_any (getLast?_intercalate hnil hblocks),
      Text.paragraphs_intercalate hnil fun b hb => (hblocks b hb).1⟩
    cases blocks with
    | nil => exact absurd rfl hnil
    | cons b bs => rfl

/-- A synonym is not written for Postgres, and leaves no gap between its neighbours. -/
theorem Script.paragraphs_written_synonym :
    let s : Script := ⟨[.commit, .synonym ⟨"a", none⟩, .inclusion "b.sql", .drop ⟨.table, "c"⟩]⟩
    Script.parse "COMMIT; CREATE SYNONYM a; @b.sql\n DROP TABLE c;" = .ok s ∧
      ∃ body, s.writeFor .postgres {} = .ok (body ++ "\n") ∧
        Text.paragraphs body = ["COMMIT;", "\\i b.sql", "DROP TABLE c;"] := by
  intro s
  have hparse : Script.parse "COMMIT; CREATE SYNONYM a; @b.sql\n DROP TABLE c;" = .ok s := by
    decide +kernel
  obtain ⟨written, order, out, hwritten, rfl, hout, hempty, hbody⟩ :=
    paragraphs_written hparse .postgres {}
  have hcommit : written _ = "COMMIT;" := (Except.ok.inj (hwritten .commit (by simp [s])).1).symm
  have hsynonym : written _ = "" :=
    (Except.ok.inj (hwritten (.synonym ⟨"a", none⟩) (by simp [s])).1).symm
  have hinclusion : written _ = "\\i b.sql" :=
    (Except.ok.inj (hwritten (.inclusion "b.sql") (by simp [s])).1).symm
  have hdrop : written _ = "DROP TABLE c;" :=
    (Except.ok.inj (hwritten (.drop ⟨.table, "c"⟩) (by simp [s])).1).symm
  have hne : out ≠ "" := fun hnone =>
    absurd (hcommit.symm.trans (hempty.mp hnone .commit (by simp [s]))) (by decide)
  obtain ⟨body, rfl, -, hparagraphs⟩ := hbody hne
  refine ⟨hparse, body, hout, ?_⟩
  simp only [hparagraphs, s, List.map_cons, List.map_nil, hcommit, hsynonym, hinclusion, hdrop]
  decide

end SchemaScript
