import SchemaScript.Proofs.Statement.WellFormed
import SchemaScript.Proofs.Table.Reading

/-!
# Reading scripts back

The words of a statement, and that the rules read each statement from its words.

* `Statement.words` — the words of a statement, in the order they are written.
* `Addition.Announced` — what is added to a table is told from an option by its first words.
* `Statement.runsTo` — a statement is read from its words.
* `readStatements_words` — so is a list of statements.
-/

set_option autoImplicit false

namespace SchemaScript

open Reader

/-! ## Words -/

/-- The words of an index, behind the word `INDEX`. -/
def Index.words (i : Index) : List Word :=
  Word.ofText i.name :: Keyword.on.word :: Word.ofText i.table ::
    (nameWords i.columns ++ (i.storage.flatMap Storage.words ++ [Word.semicolon]))

/-- The words of an option of a sequence. -/
def SequenceOption.words : SequenceOption → List Word
  | .startWith v => [Keyword.start.word, Keyword.with_.word, Word.ofText v]
  | .order => [Keyword.order.word]

/-- The words of a sequence, behind the word `SEQUENCE`. -/
def Sequence.words (s : Sequence) : List Word :=
  Word.ofText s.name :: (s.options.flatMap SequenceOption.words ++ [Word.semicolon])

/-- The words of a synonym, behind the word `SYNONYM`. -/
def Synonym.words (s : Synonym) : List Word :=
  Word.ofText s.name ::
    ((s.target.map fun n => [Keyword.for_.word, Word.ofText n]).getD [] ++ [Word.semicolon])

/-- The keyword for what is dropped. -/
def DropObject.keyword : DropObject → Keyword
  | .table => .table
  | .index => .index
  | .column => .column
  | .constraint => .constraint
  | .sequence => .sequence
  | .synonym => .synonym

/-- The words of a drop, behind the word `DROP`. -/
def Drop.words (d : Drop) : List Word := [d.object.keyword.word, Word.ofText d.name]

/-- The words of a new name, behind the word `RENAME`. -/
def Rename.words : Rename → List Word
  | .table newName => [Keyword.to.word, Word.ofText newName]
  | .column name newName =>
    [Keyword.column.word, Word.ofText name, Keyword.to.word, Word.ofText newName]

/-- The words of what is added, behind the word `ADD`. -/
def Addition.words : Addition → List Word
  | .column c => c.words
  | .constraint c => c.words
  | .storage s => s.words

/-- The words of what is changed of a table. -/
def Modification.words : Modification → List Word
  | .rename r => Keyword.rename.word :: r.words
  | .modify columns => Keyword.modify.word :: Word.lparen ::
      ([Word.comma].intercalate (columns.map Column.words) ++ [Word.rparen])
  | .storage s => s.words

/-- The words of a change to a table, behind the words `ALTER TABLE`. -/
def AlterTable.words (a : AlterTable) : List Word :=
  Word.ofText a.table :: ([Word.comma].intercalate (a.adds.map fun x => Keyword.add.word :: x.words) ++
    (a.mods.flatMap Modification.words ++
      (a.drops.flatMap (fun d => Keyword.drop.word :: d.words) ++ [Word.semicolon])))

/-- The words of a change to an index, behind the words `ALTER INDEX`. -/
def AlterIndex.words (a : AlterIndex) : List Word :=
  Word.ofText a.index :: (a.storage.flatMap Storage.words ++ [Word.semicolon])

/-- The word of a text in single quotes. -/
def Word.quoted (text : String) : Word := ⟨.singleQuoted, Text.quoted text⟩

/-- The words of a comment, behind the word `COMMENT`. -/
def Comment.words : Comment → List Word
  | .table name text => [Keyword.on.word, Keyword.table.word, Word.ofText name, Keyword.is.word,
      Word.quoted text, Word.semicolon]
  | .column owner part text => [Keyword.on.word, Keyword.column.word,
      Word.ofText (owner ++ "." ++ part), Keyword.is.word, Word.quoted text, Word.semicolon]

/-- The words of a new row, behind the word `INSERT`. -/
def Insert.words (i : Insert) : List Word :=
  Keyword.into.word :: Word.ofText i.table ::
    ((if i.columns.isEmpty then [] else nameWords i.columns) ++ Keyword.values.word :: Word.lparen ::
      ([Word.comma].intercalate (i.values.map Term.words) ++ [Word.rparen, Word.semicolon]))

/-- The words of a statement. -/
def Statement.words : Statement → List Word
  | .table t => Keyword.create.word :: ((if t.isGlobal then [Keyword.global.word] else []) ++
      (if t.temporary then [Keyword.temporary.word] else []) ++ Keyword.table.word :: t.words)
  | .index i => Keyword.create.word :: ((if i.unique then [Keyword.unique.word] else []) ++
      Keyword.index.word :: i.words)
  | .sequence s => Keyword.create.word :: Keyword.sequence.word :: s.words
  | .synonym s => Keyword.create.word :: Keyword.synonym.word :: s.words
  | .alterTable a => Keyword.alter.word :: Keyword.table.word :: a.words
  | .alterIndex a => Keyword.alter.word :: Keyword.index.word :: a.words
  | .drop d => Keyword.drop.word :: (d.words ++ [Word.semicolon])
  | .comment c => Keyword.comment.word :: c.words
  | .insert i => Keyword.insert.word :: i.words
  | .commit => [Keyword.commit.word, Word.semicolon]
  | .inclusion path => [⟨.inclusion, path⟩]

variable {vs : List Word}

theorem OpenWith.semicolon (vs : List Word) : OpenWith TokenKind.closes (Word.semicolon :: vs) := rfl

/-! ## Creations -/

theorem Index.runsTo {i : Index} (h : i.WellFormed) :
    RunsTo (Index.read i.unique) (i.words ++ vs) i vs := by
  have hwords : i.words ++ vs = Word.ofText i.name :: Keyword.on.word :: Word.ofText i.table ::
      (nameWords i.columns ++ (i.storage.flatMap Storage.words ++ Word.semicolon :: vs)) := by
    simp [words]
  rw [hwords]
  refine h.name.runsTo.bind (.bind (.discard_expect rfl) (h.table.runsTo.bind ?_))
  refine h.columns.runsTo.bind ((Storage.runsTo_readIndexOptions h.storage (.semicolon vs)).bind ?_)
  exact .bind (.discard_expect rfl) (.pure i vs)

theorem SequenceOption.runsTo {option : SequenceOption} (h : option.WellFormed) :
    RunsTo SequenceOption.read (option.words ++ vs) option vs := by
  cases option with
  | startWith v =>
    refine .accept rfl (.bind (.discard_expect rfl) ?_)
    refine .expect (Storage.kind_ofText_digits h) fun t ht => ?_
    rw [← Token.word_value, ht]
    exact .pure _ vs
  | order => exact .pass nofun (.bind (.discard_expect rfl) (.pure _ vs))

theorem Sequence.runsTo {s : Sequence} (h : s.WellFormed) :
    RunsTo Sequence.read (s.words ++ vs) s vs := by
  have hoptions : RunsTo (repeatWhile
      (fun ts => startsWith (.keyword .start) ts || startsWith (.keyword .order) ts)
      SequenceOption.read) (s.options.flatMap SequenceOption.words ++ Word.semicolon :: vs) s.options
      (Word.semicolon :: vs) := by
    have hanswers : ∀ ws : List Word, Answers
        (fun ts => startsWith (.keyword .start) ts || startsWith (.keyword .order) ts) ws
        (decide (kindOf ws = some (.keyword .start)) || decide (kindOf ws = some (.keyword .order))) :=
      fun ws ts hts =>
        congr (congrArg or (RunsTo.answers_startsWith ts hts)) (RunsTo.answers_startsWith ts hts)
    refine .repeatWhile (F := fun _ => True) ?_ ?_ (fun _ _ _ => trivial) ?_ (hanswers _) trivial
    · exact fun option hmem us _ => SequenceOption.runsTo (h.options option hmem)
    · intro option _ us
      cases option <;> exact hanswers _
    · intro option _
      cases option <;> nofun
  have hwords : s.words ++ vs =
      Word.ofText s.name :: (s.options.flatMap SequenceOption.words ++ Word.semicolon :: vs) := by
    simp [words]
  rw [hwords]
  exact h.name.runsTo.bind (hoptions.bind (.bind (.discard_expect rfl) (.pure s vs)))

theorem Synonym.runsTo {s : Synonym} (h : s.WellFormed) :
    RunsTo Synonym.read (s.words ++ vs) s vs := by
  obtain ⟨name, target⟩ := s
  refine h.name.runsTo.bind ?_
  cases target with
  | none => exact .pass nofun (.bind (.pure none _) (.bind (.discard_expect rfl) (.pure _ vs)))
  | some n =>
    refine .accept rfl (.bind (h.target n rfl).runsTo.map ?_)
    exact .bind (.discard_expect rfl) (.pure _ vs)

/-! ## Changes -/

theorem Drop.runsTo {d : Drop} (h : IsName d.name) : RunsTo Drop.read (d.words ++ vs) d vs := by
  obtain ⟨object, name⟩ := d
  have hname : RunsTo (do return { object, name := ← Reader.name } : Reader Drop)
      (Word.ofText name :: vs) ⟨object, name⟩ vs := h.runsTo.bind (.pure _ vs)
  refine .nextWord fun t hk => ?_
  cases object <;>
  · simp only [DropObject.keyword] at hk
    simp only [hk]
    exact .bind (.pure _ _) hname

/-- The words that open an option of a table on their own. -/
def Storage.openingWords : List String :=
  ["TABLESPACE", "LOGGING", "NOLOGGING", "PARALLEL", "NOPARALLEL"]

/-- What is added to a table, told from an option: no column has the name of an opening word. -/
def Addition.Announced : Addition → Prop
  | .column c => Text.upper c.name ∉ Storage.openingWords
  | _ => True

theorem IsName.startsIndexOption {n : String} (h : IsName n)
    (hne : Text.upper n ∉ Storage.openingWords) : (Word.ofText n).kind.startsIndexOption = false := by
  by_cases hk : ∃ k : Keyword, (Word.ofText n).kind = .keyword k
  · obtain ⟨k, hk⟩ := hk
    have hupper : Text.upper n = k.name := by
      simp only [Word.ofText_word h.isWord] at hk
      have hof := Target.wordKind_eq_keyword hk
      rw [String.ofList_toList] at hof
      exact Keyword.ofWord?_eq_some.mp hof
    rw [hk]
    rw [hupper] at hne
    cases k <;> first | rfl | exact absurd (by decide) hne
  · have hkind : ∀ k : Keyword, (Word.ofText n).kind ≠ .keyword k := fun k heq => hk ⟨k, heq⟩
    generalize (Word.ofText n).kind = kind at hkind
    cases kind with
    | keyword k => exact absurd rfl (hkind k)
    | _ => rfl

theorem TokenKind.startsTableOption_column {first : TokenKind} {us : List Word}
    (hfirst : first.startsIndexOption = false) (hus : OpenWith TokenKind.startsColumnClause us) :
    first.startsTableOption (kindOf us) = false := by
  unfold TokenKind.startsTableOption
  split
  · exact decide_eq_false (hus.ne rfl)
  · exact decide_eq_false (hus.ne rfl)
  · exact decide_eq_false (hus.ne rfl)
  · exact hfirst

namespace Addition

theorem announcesColumn_column {c : Column} (h : c.WellFormed) :
    announcesColumn (kindOf (c.words ++ vs)) (kindOf (c.words ++ vs).tail) = false := by
  have hsecond : (kindOf (c.words ++ vs).tail).any
      (fun kind => kind.isName && !kind.startsColumnClause) = false :=
    (TableElement.open_clauses h vs).any_false fun kind hk => by simp [hk]
  rw [announcesColumn, hsecond, Bool.and_false]

theorem announcesColumn_constraint (c : TableConstraint) :
    announcesColumn (kindOf (c.words ++ vs)) (kindOf (c.words ++ vs).tail) = false := by
  cases c with
  | primaryKey key columns | unique key columns | foreignKey key columns =>
    obtain ⟨name, _⟩ := key
    cases name <;> rfl
  | check c =>
    obtain ⟨name, _⟩ := c
    cases name <;> rfl

theorem runsTo_column {c : Column} (h : (Addition.column c).WellFormed)
    (hc : ∀ l ∈ c.leaves, l.Canonical) (hvs : OpenWith TokenKind.closes vs) :
    RunsTo readOne (c.words ++ vs) (.column c) vs := by
  refine .nextKind (.secondKind ?_)
  rw [announcesColumn_column h.1.toWellFormed]
  exact .bind (TableElement.runsTo_column h.1 h.2 hc hvs) (.pure _ vs)

theorem runsTo_constraint {c : TableConstraint} (h : c.WellFormed)
    (hc : ∀ l ∈ c.leaves, l.Canonical) (hvs : OpenWith TokenKind.closes vs) :
    RunsTo readOne (c.words ++ vs) (.constraint c) vs := by
  refine .nextKind (.secondKind ?_)
  rw [announcesColumn_constraint]
  exact .bind (TableElement.runsTo_constraint h hc hvs) (.pure _ vs)

theorem startsTableOption_constraint (c : TableConstraint) (vs : List Word) :
    kindOf (c.words ++ vs) ≠ some .lparen ∧
      Answers Storage.startsTableOption (c.words ++ vs) false := by
  have hanswers := @Storage.answers_startsTableOption (c.words ++ vs)
  cases c with
  | primaryKey key columns | unique key columns | foreignKey key columns =>
    obtain ⟨name, _⟩ := key
    cases name <;> exact ⟨nofun, hanswers⟩
  | check c =>
    obtain ⟨name, _⟩ := c
    cases name <;> exact ⟨nofun, hanswers⟩

/-- One addition is read on its own from its words. -/
theorem runsTo_readAll {a : Addition} (h : a.WellFormed) (ha : a.Announced)
    (hc : ∀ l ∈ a.leaves, l.Canonical) (hvs : OpenWith TokenKind.closes vs) :
    RunsTo readAll (a.words ++ vs) [a] vs := by
  cases a with
  | column c =>
    have hname : (Word.ofText c.name).kind ≠ .lparen := by
      intro heq
      have hname := h.1.name.isName
      rw [heq] at hname
      cases hname
    have hno : Answers Storage.startsTableOption (c.words ++ vs) false := fun ts hts =>
      (Storage.answers_startsTableOption ts hts).trans
        (TokenKind.startsTableOption_column (h.1.name.startsIndexOption ha)
          (TableElement.open_clauses h.1.toWellFormed vs))
    refine .pass (fun heq => hname (Option.some.inj heq)) (.choice hno ?_)
    exact .bind (.map (runsTo_column h hc hvs)) (.pure _ vs)
  | constraint c =>
    obtain ⟨hlparen, hno⟩ := startsTableOption_constraint c vs
    refine .pass hlparen (.choice hno ?_)
    exact .bind (.map (runsTo_constraint h hc hvs)) (.pure _ vs)
  | storage s =>
    have hyes : Answers Storage.startsTableOption (s.words ++ vs) true := fun ts hts =>
      (Storage.answers_startsTableOption ts hts).trans (Storage.startsTableOption_words h vs)
    have hread : RunsTo Storage.readTableOptions (s.words ++ vs) [s] vs := by
      have hlist := Storage.runsTo_readTableOptions (List.forall_mem_singleton.mpr h) hvs
      rwa [List.flatMap_cons, List.flatMap_nil, List.append_nil] at hlist
    refine .pass (Storage.kindOf_words_ne h vs nofun) (.choice hyes ?_)
    exact .bind (.map hread) (.pure _ vs)

end Addition

theorem Rename.runsTo {r : Rename} (h : r.WellFormed) :
    RunsTo Rename.read (r.words ++ vs) r vs := by
  cases r with
  | table newName =>
    exact .pass nofun (.bind (.discard_expect rfl) (IsName.runsTo h |>.bind (.pure _ vs)))
  | column name newName =>
    refine .accept rfl (h.1.runsTo.bind (.bind (.discard_expect rfl) ?_))
    exact h.2.runsTo.bind (.pure _ vs)

theorem runsTo_readModifiedColumns {columns : List Column} (hne : columns ≠ [])
    (h : ∀ c ∈ columns, c.WellFormed ∧ c.table = "")
    (hc : ∀ c ∈ columns, ∀ l ∈ c.leaves, l.Canonical) :
    RunsTo readModifiedColumns (Word.lparen :: ([Word.comma].intercalate (columns.map Column.words) ++
      Word.rparen :: vs)) columns vs := by
  have hlist : RunsTo (commaSeparated Column.read)
      ([Word.comma].intercalate (columns.map Column.words) ++ Word.rparen :: vs) columns
      (Word.rparen :: vs) := by
    refine .commaSeparated (F := OpenWith TokenKind.closes) hne ?_ (fun _ => rfl) nofun rfl
    exact fun c hmem us hus => Column.runsTo (h c hmem).1 (h c hmem).2 (hc c hmem) hus
  exact .accept rfl (hlist.bind (.bind (.discard_expect rfl) (.pure _ vs)))

namespace AlterTable

/-- The words of additions one after the other, behind the first `ADD`. -/
theorem words_adds (a : Addition) (adds : List Addition) :
    [Word.comma].intercalate ((a :: adds).map fun x => Keyword.add.word :: x.words) =
      Keyword.add.word :: (a.words ++
        adds.flatMap fun x => Word.comma :: Keyword.add.word :: x.words) := by
  rw [List.intercalate_cons_map]
  rfl

/-- Additions behind commas are read one by one. -/
theorem runsTo_additions (vs : List Word) {adds : List Addition}
    (h : ∀ a ∈ adds, a.WellFormed ∧ a.Announced)
    (hc : ∀ a ∈ adds, ∀ l ∈ a.leaves, l.Canonical) :
    RunsTo (repeatWhile Addition.continues (do skip; skip; Addition.readAll))
      (adds.flatMap (fun x => Word.comma :: Keyword.add.word :: x.words) ++ Word.semicolon :: vs)
      (adds.map List.singleton) (Word.semicolon :: vs) := by
  have hanswers : ∀ ws : List Word, Answers Addition.continues ws
      (decide (kindOf ws = some .comma) && decide (kindOf ws.tail = some (.keyword .add))) := by
    intro ws ts hts
    have htail : ts.tail.map Token.word = ws.tail := by rw [← hts, List.map_tail]
    rw [Addition.continues, RunsTo.answers_startsWith ts hts,
      RunsTo.answers_startsWith ts.tail htail]
  induction adds with
  | nil => exact .repeatWhile_nil (hanswers _)
  | cons a adds ih =>
    rw [List.flatMap_cons, List.append_assoc, List.map_cons]
    have hfollow : OpenWith TokenKind.closes (adds.flatMap
        (fun x => Word.comma :: Keyword.add.word :: x.words) ++ Word.semicolon :: vs) := by
      cases adds <;> rfl
    obtain ⟨hwf, hannounced⟩ := h a (by simp)
    have hread := Addition.runsTo_readAll hwf hannounced (hc a (by simp)) hfollow
    refine .repeatWhile_cons (hanswers _) (.bind .skip (.bind .skip hread)) ?_ (ih ?_ ?_)
    · simp only [List.cons_append, List.length_cons, List.length_append]
      omega
    · exact fun b hb => h b (by simp [hb])
    · exact fun b hb => hc b (by simp [hb])

/-- What is changed of a table is read from its words. -/
theorem runsTo_readChange {a : AlterTable} (h : a.WellFormed)
    (hannounced : ∀ x ∈ a.adds, x.Announced) (hc : ∀ l ∈ a.leaves, l.Canonical) :
    RunsTo (readChange a.table) (a.words.tail ++ vs) a (Word.semicolon :: vs) := by
  obtain ⟨table, adds, mods, drops⟩ := a
  obtain ⟨-, hactions⟩ := h
  cases hactions with
  | adds hne hadds =>
    obtain ⟨first, others, rfl⟩ := List.exists_cons_of_ne_nil hne
    have hleaves : ∀ x ∈ first :: others, ∀ l ∈ x.leaves, l.Canonical := by
      refine fun x hx l hl => hc l ?_
      simp only [leaves, List.flatMap_nil, List.append_nil]
      exact List.mem_flatMap.mpr ⟨x, hx, hl⟩
    have hwords : (AlterTable.mk table (first :: others) [] []).words.tail ++ vs =
        Keyword.add.word :: (first.words ++ (others.flatMap
          (fun x => Word.comma :: Keyword.add.word :: x.words) ++ Word.semicolon :: vs)) := by
      rw [words, words_adds]
      simp
    have hfollow : OpenWith TokenKind.closes (others.flatMap
        (fun x => Word.comma :: Keyword.add.word :: x.words) ++ Word.semicolon :: vs) := by
      cases others <;> rfl
    have hfirst := Addition.runsTo_readAll (hadds first (by simp)) (hannounced first (by simp))
      (hleaves first (by simp)) hfollow
    have hothers := runsTo_additions vs
      (fun x (hx : x ∈ others) => ⟨hadds x (by simp [hx]), hannounced x (by simp [hx])⟩)
      fun x hx => hleaves x (by simp [hx])
    have hflatten : (others.map List.singleton).flatten = others :=
      List.flatMap_singleton' others
    rw [hwords]
    refine .accept rfl (hfirst.bind (hothers.bind ?_))
    rw [hflatten]
    exact .pure _ _
  | drop hd => exact .pass (fun h => by cases h) (.accept rfl ((Drop.runsTo hd).bind (.pure _ _)))
  | rename hr =>
    rename_i r
    have hwords : (AlterTable.mk table [] [.rename r] []).words.tail ++ vs =
        Keyword.rename.word :: (r.words ++ Word.semicolon :: vs) := by
      simp [words, Modification.words]
    rw [hwords]
    refine .pass (fun h => by cases h) (.pass (fun h => by cases h) (.accept rfl ?_))
    exact (Rename.runsTo hr).bind (.pure _ _)
  | modify hne hcolumns =>
    rename_i columns
    have hwords : (AlterTable.mk table [] [.modify columns] []).words.tail ++ vs =
        Keyword.modify.word :: Word.lparen :: ([Word.comma].intercalate (columns.map Column.words) ++
          Word.rparen :: Word.semicolon :: vs) := by
      simp [words, Modification.words]
    have hleaves : ∀ c ∈ columns, ∀ l ∈ c.leaves, l.Canonical := by
      refine fun c hmem l hl => hc l ?_
      simp only [leaves, List.flatMap_nil, List.append_nil, List.flatMap_cons, Modification.leaves]
      exact List.mem_flatMap.mpr ⟨c, hmem, hl⟩
    rw [hwords]
    refine .pass (fun h => by cases h) (.pass (fun h => by cases h) ?_)
    refine .pass (fun h => by cases h) (.accept rfl ?_)
    exact (runsTo_readModifiedColumns hne hcolumns hleaves).bind (.pure _ _)
  | storage hne hoptions =>
    rename_i options
    obtain ⟨s, options, rfl⟩ := List.exists_cons_of_ne_nil hne
    have hwords : (AlterTable.mk table [] ((s :: options).map .storage) []).words.tail ++ vs =
        (s :: options).flatMap Storage.words ++ Word.semicolon :: vs := by
      simp [words, Modification.words, List.flatMap_map]
    have hread := Storage.runsTo_readTableOptions hoptions (OpenWith.semicolon vs)
    rw [hwords]
    -- an option opens with none of the words for the other changes
    have hnot : ∀ k ∈ [Keyword.add, .drop, .rename, .modify],
        kindOf ((s :: options).flatMap Storage.words ++ Word.semicolon :: vs) ≠
          some (.keyword k) := by
      intro k hk
      rw [List.flatMap_cons, List.append_assoc]
      have hstarts := Storage.startsTableOption_words (hoptions s (by simp))
        (options.flatMap Storage.words ++ Word.semicolon :: vs)
      intro heq
      rw [heq] at hstarts
      simp only [List.mem_cons, List.not_mem_nil, or_false] at hk
      rcases hk with rfl | rfl | rfl | rfl <;> cases hstarts
    refine .pass (hnot _ (by simp)) (.pass (hnot _ (by simp)) (.pass (hnot _ (by simp))
      (.pass (hnot _ (by simp)) (hread.bind (.pure _ _)))))

theorem runsTo {a : AlterTable} (h : a.WellFormed) (hannounced : ∀ x ∈ a.adds, x.Announced)
    (hc : ∀ l ∈ a.leaves, l.Canonical) : RunsTo AlterTable.read (a.words ++ vs) a vs :=
  h.table.runsTo.bind ((runsTo_readChange h hannounced hc).bind
    (.bind (.discard_expect rfl) (.pure a vs)))

end AlterTable

theorem AlterIndex.runsTo {a : AlterIndex} (h : a.WellFormed) :
    RunsTo AlterIndex.read (a.words ++ vs) a vs := by
  have hwords : a.words ++ vs =
      Word.ofText a.index :: (a.storage.flatMap Storage.words ++ Word.semicolon :: vs) := by
    simp [words]
  rw [hwords]
  refine h.index.runsTo.bind
    ((Storage.runsTo_readIndexOptions h.storage (OpenWith.semicolon vs)).bind ?_)
  have hne : ¬ a.storage.isEmpty := by simpa using h.ne_nil
  rw [if_neg hne]
  exact .bind (.discard_expect rfl) (.pure a vs)

/-! ## Comments and rows -/

theorem runsTo_readString (text : String) : RunsTo readString (Word.quoted text :: vs) text vs := by
  have hunwrapped : Text.unwrapped (Text.quoted text) = Text.double text.toList := by
    rw [Text.unwrapped, Text.toList_quoted]
    simp
  refine .next fun t ht => ?_
  have hkind : t.kind = .singleQuoted := by rw [← Token.word_kind, ht]; rfl
  have hvalue : t.value = Text.quoted text := by rw [← Token.word_value, ht]; rfl
  simp only [hkind, hvalue, hunwrapped, Text.undouble_double, String.ofList_toList]
  exact .pure text vs

theorem span_append {p : Char → Bool} (as bs : List Char) (has : ∀ a ∈ as, p a)
    (hbs : ∀ b ∈ bs.head?, p b = false) : (as ++ bs).span p = (as, bs) := by
  rw [List.span_eq_takeWhile_dropWhile, List.takeWhile_append_of_pos has,
    List.dropWhile_append_of_pos has]
  cases bs with
  | nil => simp
  | cons b bs => simp [hbs b rfl]

/-- A target without a dot is that of a comment on a table. -/
theorem Comment.on_table {name : String} (h : '.' ∉ name.toList) (text : String) :
    Comment.on name text = .table name text := by
  have hspan := span_append (p := (· ≠ '.')) name.toList []
    (fun c hc => decide_eq_true fun heq => h (heq ▸ hc)) nofun
  rw [List.append_nil] at hspan
  rw [Comment.on, hspan]

/-- A target with a dot is that of a comment on a column. -/
theorem Comment.on_column {owner : String} (h : '.' ∉ owner.toList) (part text : String) :
    Comment.on (owner ++ "." ++ part) text = .column owner part text := by
  have htext : (owner ++ "." ++ part).toList = owner.toList ++ '.' :: part.toList := by simp
  have hspan := span_append (p := (· ≠ '.')) owner.toList ('.' :: part.toList)
    (fun c hc => decide_eq_true fun heq => h (heq ▸ hc)) (by simp)
  rw [Comment.on, htext, hspan]
  simp

theorem Comment.runsTo {c : Comment} (h : c.WellFormed) :
    RunsTo Comment.read (c.words ++ vs) c vs := by
  have hrest : ∀ (target text : String), IsName target → RunsTo (do
      let target ← name
      discard <| expectWord .is
      let text ← readString
      readTerminator
      return Comment.on target text) (Word.ofText target :: Keyword.is.word :: Word.quoted text ::
        Word.semicolon :: vs) (Comment.on target text) vs := by
    intro target text htarget
    refine htarget.runsTo.bind (.bind (.discard_expect rfl) ((runsTo_readString text).bind ?_))
    exact .bind (.discard_expect rfl) (.pure _ vs)
  cases c with
  | table name text =>
    have hread := hrest name text h.1
    rw [on_table h.2] at hread
    refine .bind (.discard_expect rfl) (.nextWord fun t hk => ?_)
    rw [if_neg (by simp [hk])]
    exact hread
  | column owner part text =>
    have hread := hrest _ text h.1
    rw [on_column h.2] at hread
    refine .bind (.discard_expect rfl) (.nextWord fun t hk => ?_)
    rw [if_neg (by simp [hk])]
    exact hread

theorem Insert.runsTo {i : Insert} (h : i.WellFormed)
    (hc : ∀ x ∈ i.values, Canonical .value [x]) : RunsTo Insert.read (i.words ++ vs) i vs := by
  obtain ⟨table, columns, values⟩ := i
  have hvalues : RunsTo (parenthesized (commaSeparated readValue)) (Word.lparen ::
      ([Word.comma].intercalate (values.map Term.words) ++ Word.rparen :: Word.semicolon :: vs))
      values (Word.semicolon :: vs) := by
    refine .parenthesized (.commaSeparated
      (F := fun us => kindOf us = some .comma ∨ kindOf us = some .rparen) h.ne_nil ?_
      (fun _ => .inl rfl) nofun (.inr rfl))
    intro x hx us hus
    have hwords : Phrase.wordsOf .value [x] = x.words := List.append_nil x.words
    rw [← hwords]
    refine Derives.runsTo_readValue (hc x hx).derives ?_
    rcases hus with hus | hus <;> 
      simp [Phrase.Follow, hus, TokenKind.startsTail, TokenKind.isOperator, TokenKind.isConjunction]
  have hrest : RunsTo (do
      discard <| expectWord .values
      let values ← parenthesized (commaSeparated readValue)
      readTerminator
      return Insert.mk table columns values) (Keyword.values.word :: Word.lparen ::
        ([Word.comma].intercalate (values.map Term.words) ++ Word.rparen :: Word.semicolon :: vs))
      ⟨table, columns, values⟩ vs :=
    .bind (.discard_expect rfl) (hvalues.bind (.bind (.discard_expect rfl) (.pure _ vs)))
  have hwords : (Insert.mk table columns values).words ++ vs = Keyword.into.word ::
      Word.ofText table :: ((if columns.isEmpty then [] else nameWords columns) ++
        Keyword.values.word :: Word.lparen :: ([Word.comma].intercalate (values.map Term.words) ++
          Word.rparen :: Word.semicolon :: vs)) := by
    simp [words]
  rw [hwords]
  refine .bind (.discard_expect rfl) (h.table.runsTo.bind (.nextKind ?_))
  rcases h.columns with hnil | hcolumns
  · cases hnil
    exact .bind (.pure _ _) hrest
  · have hne : ¬ columns.isEmpty := by simpa using hcolumns.ne_nil
    rw [if_neg hne]
    exact hcolumns.runsTo.bind hrest

/-! ## Statements -/

/-- What is added to tables by a statement is told from options. -/
def Statement.Announced : Statement → Prop
  | .alterTable a => ∀ x ∈ a.adds, x.Announced
  | _ => True

theorem kindOf_created (t : Table) : kindOf ((if t.isGlobal then [Keyword.global.word] else []) ++
    (if t.temporary then [Keyword.temporary.word] else []) ++ Keyword.table.word :: t.words ++ vs) ≠
      some (.keyword .or) := by
  cases t.isGlobal <;> cases t.temporary <;> nofun

/-- A table is read from its words, behind the word `CREATE`. -/
theorem runsTo_table {t : Table} (h : t.WellFormed) (hc : ∀ l ∈ t.leaves, l.Canonical) :
    RunsTo readCreated ((if t.isGlobal then [Keyword.global.word] else []) ++
      (if t.temporary then [Keyword.temporary.word] else []) ++ Keyword.table.word :: t.words ++ vs)
      (.table t) vs := by
  have hread : RunsTo (Table.read t.isGlobal t.temporary) (t.words ++ vs) t vs := Table.runsTo h hc
  cases hglobal : t.isGlobal with
  | true =>
    have htemporary := h.temporary hglobal
    rw [hglobal, htemporary] at hread
    rw [htemporary]
    refine .nextWord fun token hk => ?_
    simp only [hk]
    exact .bind (.discard_accept rfl) (.bind (.discard_expect rfl) (hread.bind (.pure _ vs)))
  | false =>
    rw [hglobal] at hread
    cases htemporary : t.temporary with
    | true =>
      rw [htemporary] at hread
      refine .nextWord fun token hk => ?_
      simp only [hk]
      exact .bind (.discard_expect rfl) (hread.bind (.pure _ vs))
    | false =>
      rw [htemporary] at hread
      refine .nextWord fun token hk => ?_
      simp only [hk]
      exact hread.bind (.pure _ vs)

/-- **A statement is read from its words.** -/
theorem Statement.runsTo {s : Statement} (h : s.WellFormed) (hannounced : s.Announced)
    (hc : ∀ l ∈ s.leaves, l.Canonical) : RunsTo Statement.read (s.words ++ vs) s vs := by
  cases s with
  | table t =>
    refine .nextWord fun token hk => ?_
    simp only [hk]
    exact .pass (kindOf_created t) (runsTo_table h hc)
  | index i =>
    refine .nextWord fun token hk => ?_
    simp only [hk]
    obtain ⟨name, table, columns, unique, storage⟩ := i
    cases unique with
    | true =>
      refine .pass nofun (.nextWord fun token hk => ?_)
      simp only [hk]
      exact .bind (.discard_expect rfl) ((Index.runsTo h).bind (.pure _ vs))
    | false =>
      refine .pass nofun (.nextWord fun token hk => ?_)
      simp only [hk]
      exact (Index.runsTo h).bind (.pure _ vs)
  | sequence s =>
    refine .nextWord fun token hk => ?_
    simp only [hk]
    refine .pass nofun (.nextWord fun token hk => ?_)
    simp only [hk]
    exact (Sequence.runsTo h).bind (.pure _ vs)
  | synonym s =>
    refine .nextWord fun token hk => ?_
    simp only [hk]
    refine .pass nofun (.nextWord fun token hk => ?_)
    simp only [hk]
    exact (Synonym.runsTo h).bind (.pure _ vs)
  | alterTable a =>
    refine .nextWord fun token hk => ?_
    simp only [hk]
    refine .pass nofun (.bind (.discard_expect rfl) ?_)
    exact (AlterTable.runsTo h hannounced hc).bind (.pure _ vs)
  | alterIndex a =>
    refine .nextWord fun token hk => ?_
    simp only [hk]
    exact .accept rfl ((AlterIndex.runsTo h).bind (.pure _ vs))
  | drop d =>
    have hwords : (Statement.drop d).words ++ vs =
        Keyword.drop.word :: (d.words ++ Word.semicolon :: vs) := by simp [words]
    rw [hwords]
    refine .nextWord fun token hk => ?_
    simp only [hk]
    exact (Drop.runsTo h).bind (.bind (.discard_expect rfl) (.pure _ vs))
  | comment c =>
    refine .nextWord fun token hk => ?_
    simp only [hk]
    exact (Comment.runsTo h).bind (.pure _ vs)
  | insert i =>
    refine .nextWord fun token hk => ?_
    simp only [hk]
    exact (Insert.runsTo h fun x hx => hc (.value x) (List.mem_map_of_mem hx)).bind (.pure _ vs)
  | commit =>
    refine .nextWord fun token hk => ?_
    simp only [hk]
    exact .bind (.discard_expect rfl) (.pure _ vs)
  | inclusion path =>
    refine .next fun token ht => ?_
    have hk : token.kind = .inclusion := by rw [← Token.word_kind, ht]
    have hv : token.value = path := by rw [← Token.word_value, ht]
    simp only [hk, hv]
    exact .pure _ vs

theorem Statement.words_ne_nil (s : Statement) : s.words ≠ [] := by
  cases s <;> exact List.cons_ne_nil _ _

/-- **A list of statements is read from its words.** -/
theorem readStatements_words {statements : List Statement}
    (h : ∀ s ∈ statements, s.WellFormed ∧ s.Announced ∧ ∀ l ∈ s.leaves, l.Canonical) :
    RunsTo readStatements (statements.flatMap Statement.words) statements [] := by
  have hanswers : ∀ ws : List Word, Answers (fun ts => !ts.isEmpty) ws (!ws.isEmpty) := by
    intro ws ts hts
    rw [← hts]
    cases ts <;> rfl
  have hlist : RunsTo readStatements (statements.flatMap Statement.words ++ []) statements [] := by
    refine .repeatWhile (F := fun _ => True) ?_ ?_ (fun _ _ _ => trivial) ?_ (hanswers []) trivial
    · exact fun s hs us _ => Statement.runsTo (h s hs).1 (h s hs).2.1 (h s hs).2.2
    · intro s _ us ts hts
      rw [hanswers _ ts hts]
      simp [s.words_ne_nil]
    · exact fun s _ => s.words_ne_nil
  rwa [List.append_nil] at hlist

end SchemaScript
