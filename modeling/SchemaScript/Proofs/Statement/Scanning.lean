import SchemaScript.Proofs.Statement.Spelling

/-!
# What is scanned of a statement

A drop is written with a semicolon of its own unless it is that of a part of a table, be it a
statement or a change to a table. So what is written for a statement need not be the words of a
statement, but it still scans as words that are told by the statement.

* `Drop.lineWords`, `Statement.lineWords` — the words that a drop and a statement are written as.
* `Target.stands_statement` — what is written for a statement scans as the words of its native form,
  on lines of its own. -/

set_option autoImplicit false

namespace SchemaScript

open Writer (newLine tab)

/-! ## Words as they are written -/

section Words

variable (t : Target)

/-- The words that a drop is written as. A dialect without synonyms drops none. -/
def Drop.lineWords (d : Drop) : List Word :=
  if d.object = .synonym ∧ t.writes .synonym = false then []
  else Keyword.drop.word :: (d.words ++ if d.object.isTablePart then [] else [Word.semicolon])

/-- The words that a change to a table is written as, behind the words `ALTER TABLE`. -/
def AlterTable.lineWords (a : AlterTable) : List Word :=
  Word.ofText a.table :: ([Word.comma].intercalate (a.adds.map fun x => Keyword.add.word :: x.words) ++
    (a.mods.flatMap Modification.words ++ (a.drops.flatMap (Drop.lineWords t) ++ [Word.semicolon])))

/-- The words that the inclusion of nothing is written as, which is not told from stray signs. -/
def Target.bareInclusion : Target → List Word
  | .oracle => []
  | .postgres => [⟨.identifier, "i"⟩]

/-- The words that a statement is written as. -/
def Statement.lineWords : Statement → List Word
  | .alterTable a => Keyword.alter.word :: Keyword.table.word :: a.lineWords t
  | .drop d => d.lineWords t
  | .inclusion path => if path = "" then t.bareInclusion else [⟨.inclusion, path⟩]
  | s => s.words

end Words

/-! ## Drops -/

theorem Spells.stands {s : String} {ws : List Word} (h : Spells s ws) : Stands s ws := by
  intro rest hrest
  apply h.scan
  cases rest with
  | nil => simp [Scan.Delimited]
  | cons c rest =>
    have hc : c = '\n' := hrest c rfl
    simpa [Scan.Delimited, hc] using (by decide : Scan.isDelimiter '\n' = true)

namespace Target

variable {t : Target} {o : WriteOptions}

/-- Any drop spells the words that it is written as. -/
theorem spells_lineWords {d : Drop} (h : IsName d.name) :
    ∃ text, (t.writer o).drop d = .ok text ∧ Spells text (d.lineWords t) ∧
      (d.lineWords t ≠ [] → Solid text) := by
  by_cases hsynonym : d.object = .synonym ∧ t.writes .synonym = false
  · refine ⟨"", drop_native hsynonym.1 hsynonym.2, ?_, ?_⟩
    · rw [Drop.lineWords, if_pos hsynonym]
      exact spells_empty
    · rw [Drop.lineWords, if_pos hsynonym]
      exact fun hne => absurd rfl hne
  · have hnative : ∀ l ∈ d.leaves, l.Native t o := by
      intro l hl
      rw [Drop.leaves] at hl
      split at hl
      · rename_i hobject
        rw [List.mem_singleton] at hl
        subst hl
        simpa [hobject, Leaf.Native] using hsynonym
      · cases hl
    obtain ⟨text, htext, hspells, hsolid⟩ := spells_dropLine h
    rw [Drop.lineWords, if_neg hsynonym, drop_eq hnative, htext]
    cases hpart : d.object.isTablePart with
    | true =>
      rw [if_pos rfl, if_pos rfl, String.append_empty, List.append_nil, hspells.tidy.collapsed]
      exact ⟨text, rfl, hspells, fun _ => hsolid⟩
    | false =>
      have hall := hspells.append_opens opens_semicolon (by decide)
      rw [if_neg (by decide), if_neg (by decide), hall.tidy.collapsed]
      exact ⟨_, rfl, hall.spells, fun _ => hsolid.append _⟩

/-- A change that drops something spells the words that it is written as. -/
theorem opens_alterTable_drop (n : Nat) {table : String} {d : Drop} (htable : IsName table)
    (hd : IsName d.name) :
    ∃ text, (t.writer o).alterTable n ⟨table, [], [], [d]⟩ = .ok text ∧
      Opens text (Statement.lineWords t (.alterTable ⟨table, [], [], [d]⟩)) ∧ Solid text := by
  obtain ⟨text, htext, hspells, -⟩ := spells_lineWords (t := t) (o := o) hd
  have hbody : alterBody t o n ⟨table, [], [], [d]⟩ = .ok (newLine (n + tab) ++ text) := by
    have hdrop : [d].mapM (t.writer o).drop = .ok [text] := by
      rw [List.mapM_cons, htext]
      rfl
    simp only [alterBody, hdrop]
    exact congrArg Except.ok (by simp)
  have hne : newLine (n + tab) ++ text ≠ "" := by
    rw [newLine]
    simp
  have halter : Opens "ALTER TABLE " [Keyword.alter.word, Keyword.table.word] :=
    opens_phrase [.alter, .table] rfl
  have hline := ((opens_newLine n).append_spells hspells).append_opens opens_semicolon (by decide)
  have hparted : Parted (newLine (n + tab) ++ text ++ ";") :=
    ((parted_newLine (n + tab)).append text).append ";"
  have hall := (halter.append_spells htable.spells).append_opens hline hparted
  rw [← String.append_assoc] at hall
  refine ⟨_, ?_, by simpa [Statement.lineWords, AlterTable.lineWords] using hall, ?_⟩
  · rw [alterTable_eq n rfl, hbody, ← hall.tidy.collapsed]
    simp [Except.map, bind, Except.bind, pure, Except.pure, hne]
  · exact ((Solid.append (by decide) _).append _).append _

end Target

/-! ## Inclusions -/

/-- Nothing is included by the signs of an inclusion alone, which are left out. -/
theorem Scan.words_inclusion_nil {rest : List Char} (hrest : ∀ c ∈ rest.head?, c = '\n') :
    words ('@' :: rest) = words rest ∧
      words ('\\' :: 'i' :: ' ' :: rest) = ⟨.identifier, "i"⟩ :: words rest := by
  have hpath : runLength? (· ≠ '\n') rest = none := by
    cases rest with
    | nil => rfl
    | cons c rest =>
      obtain rfl : c = '\n' := hrest c rfl
      rfl
  constructor
  · have hinc : inclusion? ('@' :: rest) = none := by
      simp only [inclusion?, hpath, Option.map_none]
    have hlex : lexeme? ('@' :: rest) = none := by
      simp [lexeme?_unquoted, word?, hinc, digits?, runLength?, runLength, sign?]
    rw [words_of_no_gap (gapLength_eq_zero (by decide) (by decide) (by decide) rfl), wordsHere]
    simp only [hlex]
  · have hblanks : runLength (fun c => c == ' ' || c == '\t') (' ' :: rest) = 1 := by
      refine @runLength_append _ [' '] rest rfl fun c hc => ?_
      rw [hrest c hc]
      decide
    have hinc : inclusion? ('\\' :: 'i' :: ' ' :: rest) = none := by
      simp only [inclusion?, runLength?, hblanks]
      simp only [Option.bind_eq_bind, Option.bind_some, List.drop_succ_cons, List.drop_zero]
      exact congrArg (Option.bind · _) hpath
    have hlex : lexeme? ('\\' :: 'i' :: ' ' :: rest) = none := by
      simp [lexeme?_unquoted, word?, hinc, digits?, runLength?, runLength, sign?]
    have hword : Word.Lexical ⟨.identifier, "i"⟩ := .word (by decide) (by decide)
    rw [words_of_no_gap (gapLength_eq_zero (by decide) (by decide) (by decide) rfl), wordsHere]
    simp only [hlex]
    have hdelimited : Delimited (' ' :: rest) := by simp [Delimited, isDelimiter]
    have hscan := words_append hword (by decide) hdelimited
    rwa [words_blank (by decide)] at hscan

namespace Target

variable {t : Target} {o : WriteOptions}

theorem stands_lineWords_inclusion {path : String} (h : Word.Lexical ⟨.inclusion, path⟩) :
    ∃ text, (t.writer o).inclusion path = .ok text ∧
      Stands text (Statement.lineWords t (.inclusion path)) ∧ Solid text := by
  by_cases hpath : path = ""
  · subst hpath
    cases t with
    | oracle =>
      refine ⟨"@", write_eq .atInclusion rfl rfl (Text.tidy_of_no_newline (by decide)), ?_, by decide⟩
      exact fun rest hrest => (Scan.words_inclusion_nil hrest).1
    | postgres =>
      refine ⟨"\\i ", write_eq .backslashInclusion rfl rfl (Text.tidy_of_no_newline (by decide)), ?_,
        by decide⟩
      exact fun rest hrest => (Scan.words_inclusion_nil hrest).2
  · rw [Statement.lineWords, if_neg hpath]
    exact stands_inclusion h hpath

/-! ## Statements -/

theorem opens_alterTable (n : Nat) {a : AlterTable} (hwf : a.WellFormed)
    (hw : ∀ l ∈ a.leaves, l.Writable t) (hne : (a.native t o).isEmpty = false) :
    ∃ text, (t.writer o).alterTable n (a.native t o) = .ok text ∧
      Opens text (Statement.lineWords t (.alterTable (a.native t o))) ∧ Solid text := by
  have hother : (a.native t o).drops = [] → ∃ text, (t.writer o).alterTable n (a.native t o) = .ok text ∧
      Opens text (Statement.lineWords t (.alterTable (a.native t o))) ∧ Solid text := by
    intro hdrops
    have hparts : ∀ d ∈ a.drops, d.object.isTablePart := by
      intro d hd
      rw [show a.drops = [] from hdrops] at hd
      cases hd
    have hwords : Statement.lineWords t (.alterTable (a.native t o)) =
        (Statement.alterTable (a.native t o)).words := by
      simp [Statement.lineWords, Statement.words, AlterTable.lineWords, AlterTable.words, hdrops]
    rw [hwords]
    exact spells_alterTable n (hwf.native hne) hparts (AlterTable.native_leaves hwf hparts hw)
  obtain ⟨table, adds, mods, drops⟩ := a
  have hactions := hwf.actions
  cases hactions with
  | drop hd => exact opens_alterTable_drop n hwf.table hd
  | _ => exact hother rfl

/-- **What is written for a statement scans as the words of its native form**, on lines of its
own. -/
theorem stands_statement (n : Nat) {s s' : Statement} (hwf : s.WellFormed)
    (hw : ∀ l ∈ s.leaves, l.Writable t) (hnative : s.native? t o = some s') :
    ∃ text, (t.writer o).statement n s = .ok text ∧ Stands text (s'.lineWords t) ∧ Solid text := by
  rw [← (statement_native n hwf hw).2 s' hnative]
  -- a statement that is not written as a drop is written as its words
  have hother : s.Restorable → s'.lineWords t = s'.words → ∃ text,
      (t.writer o).statement n s' = .ok text ∧ Stands text (s'.lineWords t) ∧ Solid text := by
    intro hrestorable hwords
    rw [hwords]
    exact spells_statement n (hwf.native hnative) (hrestorable.native hnative)
      (Statement.native_leaves hwf hrestorable hw hnative)
  cases s with
  | alterTable a =>
    rw [Statement.native?] at hnative
    split at hnative
    · cases hnative
    · rename_i hne
      cases hnative
      obtain ⟨text, htext, hopens, hsolid⟩ := opens_alterTable n hwf hw (by simpa using hne)
      exact ⟨text, htext, hopens.stands, hsolid⟩
  | drop d =>
    rw [Statement.native?] at hnative
    split at hnative
    · cases hnative
    · rename_i hsynonym
      cases hnative
      obtain ⟨text, htext, hspells, hsolid⟩ := spells_lineWords (t := t) (o := o) hwf
      refine ⟨text, htext, hspells.stands, hsolid ?_⟩
      simp [Drop.lineWords, hsynonym]
  | inclusion path =>
    cases hnative
    exact stands_lineWords_inclusion hwf
  | synonym | alterIndex =>
    refine hother trivial ?_
    rw [Statement.native?] at hnative
    split at hnative <;> cases hnative
    rfl
  | _ =>
    cases hnative
    exact hother trivial rfl

end Target

end SchemaScript
