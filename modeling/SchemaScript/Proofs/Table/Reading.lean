import SchemaScript.Proofs.Table.WellFormed

/-!
# Reading tables back

The words of a table and of its parts, and that the rules read each from its words.

* `Column.words`, `TableConstraint.words`, `Table.words` — the words, in the order they are written.
* `TokenKind.closes`, `TokenKind.endsClause` — what may stand behind an entry, and behind a clause.
* `Table.runsTo` — a table is read from its words.
-/

set_option autoImplicit false

namespace SchemaScript

open Reader

/-! ## Words -/

/-- Names with commas between them, in parentheses. -/
def nameWords (ns : List String) : List Word :=
  Word.lparen :: ([Word.comma].intercalate (ns.map fun n => [Word.ofText n]) ++ [Word.rparen])

/-- The name of a constraint that has one. -/
def constraintWords : Option String → List Word
  | some n => [Keyword.constraint.word, Word.ofText n]
  | none => []

/-- The words of a storage option. -/
def Storage.words : Storage → List Word
  | .tablespace n => [Keyword.tablespace.word, Word.ofText n]
  | .indexTablespace n =>
    [Keyword.using_.word, Keyword.index.word, Keyword.tablespace.word, Word.ofText n]
  | .logging true => [Keyword.logging.word]
  | .logging false => [Keyword.nologging.word]
  | .parallel false _ => [Keyword.noparallel.word]
  | .parallel true none => [Keyword.parallel.word]
  | .parallel true (some d) => [Keyword.parallel.word, Word.ofText d]
  | .rowMovement true => [Keyword.enable.word, Keyword.row.word, Keyword.movement.word]
  | .rowMovement false => [Keyword.disable.word, Keyword.row.word, Keyword.movement.word]
  | .onCommit true =>
    [Keyword.on.word, Keyword.commit.word, Keyword.preserve.word, Keyword.rows.word]
  | .onCommit false =>
    [Keyword.on.word, Keyword.commit.word, Keyword.delete.word, Keyword.rows.word]

/-- The words of the precision of a type that has one. -/
def precisionWords : Option String → List Word
  | some p => Word.lparen :: (Scan.words p.toList ++ [Word.rparen])
  | none => []

/-- The words of a type. -/
def DataType.words (t : DataType) : List Word := Word.ofText t.name :: precisionWords t.precision

/-- The words of a delete rule. -/
def OnDelete.words : OnDelete → List Word
  | .cascade => [Keyword.on.word, Keyword.delete.word, Keyword.cascade.word]
  | .setNull => [Keyword.on.word, Keyword.delete.word, Keyword.set.word, Keyword.null.word]

/-- The words of what a foreign key points at and of the rules it sets, behind the word
`REFERENCES`. -/
def ForeignKey.words (key : ForeignKey) : List Word :=
  Word.ofText key.target.table :: (nameWords key.target.columns ++
    ((key.onDelete.map OnDelete.words).getD [] ++
      if key.deferrable then [Keyword.deferrable.word] else []))

/-- The words of a condition, behind the word `CHECK`. -/
def Check.words (c : Check) : List Word :=
  Word.lparen :: (Term.rowWords c.condition ++ [Word.rparen])

/-- The words behind a key. -/
def Key.words (key : Key) : List Word := key.storage.flatMap Storage.words

/-- The words of a column clause. -/
def ColumnClause.words : ColumnClause → List Word
  | .dataType t => t.words
  | .defaultValue x => Keyword.default.word :: Word.lparen :: (x.words ++ [Word.rparen])
  | .notNull name => constraintWords name ++ [Keyword.not.word, Keyword.null.word]
  | .primaryKey key =>
    constraintWords key.name ++ Keyword.primary.word :: Keyword.key.word :: key.words
  | .unique key => constraintWords key.name ++ Keyword.unique.word :: key.words
  | .foreignKey key => constraintWords key.name ++ Keyword.references.word :: key.words
  | .check c => constraintWords c.name ++ Keyword.check.word :: c.words

/-- The words of a column. -/
def Column.words (c : Column) : List Word :=
  Word.ofText c.name :: c.clauses.flatMap ColumnClause.words

/-- The words of a table constraint. -/
def TableConstraint.words : TableConstraint → List Word
  | .primaryKey key columns => constraintWords key.name ++ Keyword.primary.word ::
      Keyword.key.word :: (nameWords columns ++ key.words)
  | .unique key columns =>
    constraintWords key.name ++ Keyword.unique.word :: (nameWords columns ++ key.words)
  | .foreignKey key columns => constraintWords key.name ++ Keyword.foreign.word ::
      Keyword.key.word :: (nameWords columns ++ Keyword.references.word :: key.words)
  | .check c => constraintWords c.name ++ Keyword.check.word :: c.words

/-- The words of an entry of the body of a table. -/
def TableElement.words : TableElement → List Word
  | .column c => c.words
  | .constraint c => c.words

/-- The entries of a table: its columns, as they are outside it, and its constraints. -/
def Table.elements (t : Table) : List TableElement :=
  t.columns.map (fun c => .column { c with table := "" }) ++ t.constraints.map .constraint

/-- The words of a table, behind the word `TABLE`. -/
def Table.words (t : Table) : List Word :=
  Word.ofText t.name :: Word.lparen :: ([Word.comma].intercalate (t.elements.map TableElement.words) ++
    Word.rparen :: (t.storage.flatMap Storage.words ++ [Word.semicolon]))

/-! ## What may follow -/

/-- The signs behind an entry of a list, or behind a statement. -/
def TokenKind.closes : TokenKind → Bool
  | .comma | .rparen | .semicolon => true
  | _ => false

/-- What may stand behind a column clause. -/
def TokenKind.endsClause (k : TokenKind) : Bool := k.closes || k.startsColumnClause

/-- Words that open with one of a class. -/
def OpenWith (test : TokenKind → Bool) (ws : List Word) : Prop := (kindOf ws).any test = true

variable {vs : List Word}

theorem OpenWith.ne {test : TokenKind → Bool} (h : OpenWith test vs) {k : TokenKind}
    (hk : test k = false) : kindOf vs ≠ some k := by
  rintro heq
  rw [OpenWith, heq, Option.any_some, hk] at h
  cases h

theorem OpenWith.any_false {test p : TokenKind → Bool} (h : OpenWith test vs)
    (hp : ∀ k, test k → p k = false) : (kindOf vs).any p = false := by
  unfold OpenWith at h
  cases hk : kindOf vs with
  | none => rfl
  | some k =>
    rw [hk] at h
    exact hp k h

theorem OpenWith.endsClause (h : OpenWith TokenKind.closes vs) : OpenWith TokenKind.endsClause vs := by
  unfold OpenWith at *
  cases hk : kindOf vs with
  | none => simp [hk] at h
  | some k =>
    rw [hk, Option.any_some] at h
    simp [TokenKind.endsClause, h]

/-! ## Names and options -/

theorem IsName.runsTo {n : String} (h : IsName n) : RunsTo name (Word.ofText n :: vs) n vs :=
  .name h.isName rfl

theorem AreNames.runsTo {ns : List String} (h : AreNames ns) :
    RunsTo nameList (nameWords ns ++ vs) ns vs := by
  have hlist : RunsTo (commaSeparated name)
      ([Word.comma].intercalate (ns.map fun n => [Word.ofText n]) ++ Word.rparen :: vs) ns
      (Word.rparen :: vs) :=
    .commaSeparated (F := fun _ => True) h.ne_nil (fun n hn _ _ => (h.names n hn).runsTo)
      (fun _ => trivial) nofun trivial
  rw [nameWords, List.cons_append, List.append_assoc]
  exact .parenthesized hlist

theorem runsTo_constraintName {n : Option String} (hn : ∀ m ∈ n, IsName m)
    (hvs : kindOf vs ≠ some (.keyword .constraint)) :
    RunsTo readConstraintName? (constraintWords n ++ vs) n vs := by
  cases n with
  | none => exact .pass hvs (.pure none vs)
  | some n => exact .accept rfl ((hn n rfl).runsTo.bind (.pure (some n) vs))

/-- A constraint's name and the keyword behind it. -/
theorem runsTo_named {β : Type} {b : β} {n : Option String} {k : Keyword} {us : List Word}
    {e : String} {g : Option String → Token → Reader β} (hn : ∀ m ∈ n, IsName m)
    (hk : k ≠ .constraint) (hg : ∀ t : Token, t.kind = .keyword k → RunsTo (g n t) us b vs) :
    RunsTo (do let name ← readConstraintName?; let t ← next e; g name t)
      (constraintWords n ++ k.word :: us) b vs := by
  have hne : kindOf (k.word :: us) ≠ some (.keyword .constraint) := by
    rw [kindOf_cons, Keyword.word_kind]
    exact fun heq => hk (TokenKind.keyword.inj (Option.some.inj heq))
  exact (runsTo_constraintName hn hne).bind (.nextWord hg)

namespace Storage

theorem kind_ofText_placeholder {n : String} (h : Scan.isPlaceholder n.toList) :
    (Word.ofText n).kind = .placeholder := by
  have hlex : Word.Lexical ⟨.placeholder, n⟩ := .placeholder h rfl
  have hinline : Word.Inline ⟨.placeholder, n⟩ := ⟨hlex, nofun⟩
  exact congrArg Word.kind hinline.ofText_eq

theorem kind_ofText_digits {d : String} (h : Scan.isNumeral d.toList) :
    (Word.ofText d).kind = .digits := by
  have hlex : Word.Lexical ⟨.digits, d⟩ := .digits h rfl
  have hinline : Word.Inline ⟨.digits, d⟩ := ⟨hlex, nofun⟩
  exact congrArg Word.kind hinline.ofText_eq

theorem runsTo_readSpace {n : String} (h : IsSpace n) :
    RunsTo readSpace (Word.ofText n :: vs) n vs := by
  refine .nextKind ?_
  rcases h with h | h
  · have hk : kindOf (Word.ofText n :: vs) ≠ some .placeholder := by
      intro heq
      have hname := h.isName
      rw [Option.some.inj heq] at hname
      cases hname
    rw [if_neg hk]
    exact h.runsTo
  · rw [if_pos (by rw [kindOf_cons, kind_ofText_placeholder h])]
    refine .next fun t ht => ?_
    rw [← Token.word_value, ht]
    exact .pure n vs

theorem runsTo_readIndexOption {s : Storage} (h : s.OfIndex) (hvs : kindOf vs ≠ some .digits) :
    RunsTo readIndexOption (s.words ++ vs) s vs := by
  cases h with
  | tablespace hn =>
    refine .nextWord fun t hk => ?_
    simp only [hk]
    exact (runsTo_readSpace hn).bind (.pure _ vs)
  | logging enabled =>
    cases enabled with
    | true | false =>
      refine .nextWord fun t hk => ?_
      simp only [hk]
      exact .pure _ vs
  | parallel =>
    rw [words, List.singleton_append]
    refine .nextWord fun t hk => ?_
    simp only [hk]
    refine .nextKind ?_
    rw [if_neg hvs]
    exact .pure _ vs
  | degree hd =>
    rw [words, List.cons_append, List.singleton_append]
    refine .nextWord fun t hk => ?_
    simp only [hk]
    refine .nextKind ?_
    rw [if_pos (by rw [kindOf_cons, kind_ofText_digits hd])]
    refine .next fun t' ht' => ?_
    rw [← Token.word_value, ht']
    exact .pure _ vs
  | noparallel =>
    refine .nextWord fun t hk => ?_
    simp only [hk]
    exact .pure _ vs

theorem runsTo_readTableOption {s : Storage} (h : s.OfTable) (hvs : kindOf vs ≠ some .digits) :
    RunsTo readTableOption (s.words ++ vs) s vs := by
  cases h with
  | index h =>
    have hindex := runsTo_readIndexOption h hvs
    cases h with
    | logging enabled =>
      cases enabled with
      | true | false => exact .pass nofun (.pass nofun (.pass nofun hindex))
    | _ => exact .pass nofun (.pass nofun (.pass nofun hindex))
  | rowMovement enabled =>
    have hrest : ∀ enabled, RunsTo (readRowMovement enabled)
        (Keyword.row.word :: Keyword.movement.word :: vs) (.rowMovement enabled) vs := fun enabled =>
      .bind (.discard_expect rfl) (.bind (.discard_expect rfl) (.pure _ vs))
    cases enabled with
    | true => exact .accept rfl (hrest true)
    | false => exact .pass nofun (.accept rfl (hrest false))
  | onCommit preserve =>
    have hrest : RunsTo readOnCommit ((Storage.onCommit preserve).words ++ vs).tail
        (.onCommit preserve) vs := by
      cases preserve with
      | true | false =>
        refine .bind (.discard_expect rfl) (.nextWord fun t hk => ?_)
        simp only [hk]
        exact .bind (.pure _ _) (.bind (.discard_expect rfl) (.pure _ vs))
    cases preserve with
    | true | false => exact .pass nofun (.pass nofun (.accept rfl hrest))

theorem startsIndexOption_words {s : Storage} (h : s.OfIndex) (us : List Word) :
    (kindOf (s.words ++ us)).any TokenKind.startsIndexOption := by
  cases h with
  | logging enabled => cases enabled <;> rfl
  | _ => rfl

theorem answers_startsTableOption {ws : List Word} : Answers startsTableOption ws
    ((kindOf ws).any fun k => k.startsTableOption (kindOf ws.tail)) := by
  intro ts hts
  rw [← hts, ← List.map_tail]
  cases ts with
  | nil => rfl
  | cons t ts => simp [startsTableOption, head?_kind]

theorem startsTableOption_words {s : Storage} (h : s.OfTable) (us : List Word) :
    (kindOf (s.words ++ us)).any fun k => k.startsTableOption (kindOf (s.words ++ us).tail) := by
  cases h with
  | index h =>
    cases h with
    | logging enabled => cases enabled <;> rfl
    | _ => rfl
  | rowMovement enabled => cases enabled <;> rfl
  | onCommit preserve => cases preserve <;> rfl

theorem kindOf_words {s : Storage} (h : s.OfTable) (us : List Word) :
    ∃ k : Keyword, kindOf (s.words ++ us) = some (.keyword k) := by
  cases h with
  | index h =>
    cases h with
    | logging enabled => cases enabled <;> exact ⟨_, rfl⟩
    | _ => exact ⟨_, rfl⟩
  | rowMovement enabled => cases enabled <;> exact ⟨_, rfl⟩
  | onCommit preserve => cases preserve <;> exact ⟨_, rfl⟩

theorem kindOf_words_ne {s : Storage} (h : s.OfTable) (us : List Word) {kind : TokenKind}
    (hkind : ∀ k, kind ≠ .keyword k) : kindOf (s.words ++ us) ≠ some kind := by
  obtain ⟨k, hk⟩ := kindOf_words h us
  rw [hk]
  exact fun heq => hkind k (Option.some.inj heq).symm

theorem words_ne_nil (s : Storage) : s.words ≠ [] := by
  unfold words
  split <;> nofun

theorem runsTo_readIndexOptions {options : List Storage} (h : ∀ s ∈ options, s.OfIndex)
    (hvs : OpenWith TokenKind.closes vs) :
    RunsTo readIndexOptions (options.flatMap words ++ vs) options vs := by
  refine .repeatWhile (F := fun us => kindOf us ≠ some .digits) ?_ ?_ ?_ ?_ ?_ (hvs.ne rfl)
  · exact fun s hs us hus => runsTo_readIndexOption (h s hs) hus
  · exact fun s hs us ts hts =>
      (RunsTo.answers_head ts hts).trans (startsIndexOption_words (h s hs) us)
  · exact fun s hs us => kindOf_words_ne (.index (h s hs)) us nofun
  · exact fun s _ => s.words_ne_nil
  · refine fun ts hts => (RunsTo.answers_head ts hts).trans (hvs.any_false fun k hk => ?_)
    cases k <;> first | rfl | cases hk

theorem runsTo_readTableOptions {options : List Storage} (h : ∀ s ∈ options, s.OfTable)
    (hvs : OpenWith TokenKind.closes vs) :
    RunsTo readTableOptions (options.flatMap words ++ vs) options vs := by
  refine .repeatWhile (F := fun us => kindOf us ≠ some .digits) ?_ ?_ ?_ ?_ ?_ (hvs.ne rfl)
  · exact fun s hs us hus => runsTo_readTableOption (h s hs) hus
  · exact fun s hs us ts hts =>
      (answers_startsTableOption ts hts).trans (startsTableOption_words (h s hs) us)
  · exact fun s hs us => kindOf_words_ne (h s hs) us nofun
  · exact fun s _ => s.words_ne_nil
  · refine fun ts hts => (answers_startsTableOption ts hts).trans (hvs.any_false fun k hk => ?_)
    cases k <;> first | rfl | cases hk

end Storage

/-! ## Clauses -/

/-- A value or condition that is read from the words it is written as, or any other leaf. -/
def Leaf.Canonical : Leaf → Prop
  | .value x => SchemaScript.Canonical .value [x]
  | .condition ts => SchemaScript.Canonical .condition ts
  | _ => True

theorem Key.runsTo {key : Key} (h : key.WellFormed) (hvs : kindOf vs ≠ some (.keyword .using_)) :
    RunsTo (Key.read key.name) (key.words ++ vs) key vs := by
  obtain ⟨name, storage⟩ := key
  rcases h.storage with rfl | ⟨_, rfl, hspace⟩
  · exact .pass hvs (.pure _ vs)
  · cases hspace with
    | indexTablespace hn =>
      refine .accept rfl (.bind (.discard_expect rfl) (.bind (.discard_expect rfl) ?_))
      exact (Storage.runsTo_readSpace hn).bind (.pure _ vs)

theorem OnDelete.runsTo {rule : Option OnDelete} (hvs : kindOf vs ≠ some (.keyword .on)) :
    RunsTo OnDelete.read? ((rule.map OnDelete.words).getD [] ++ vs) rule vs := by
  refine .nextKind (.secondKind ?_)
  cases rule with
  | none =>
    rw [if_neg fun h => hvs h.1]
    exact .pure none vs
  | some rule =>
    cases rule with
    | cascade =>
      rw [if_pos ⟨rfl, rfl⟩]
      exact .bind .skip (.bind .skip (.accept rfl (.pure _ vs)))
    | setNull =>
      rw [if_pos ⟨rfl, rfl⟩]
      refine .bind .skip (.bind .skip (.pass nofun ?_))
      exact .bind (.discard_expect rfl) (.bind (.discard_expect rfl) (.pure _ vs))

theorem ForeignKey.runsTo {key : ForeignKey} (h : key.WellFormed)
    (hon : kindOf vs ≠ some (.keyword .on)) (hvs : kindOf vs ≠ some (.keyword .deferrable)) :
    RunsTo (ForeignKey.read key.name) (key.words ++ vs) key vs := by
  obtain ⟨name, ⟨table, columns⟩, rule, deferrable⟩ := key
  rw [words, List.cons_append, List.append_assoc, List.append_assoc]
  refine h.table.runsTo.bind (h.columns.runsTo.bind ?_)
  cases deferrable with
  | true =>
    have hfollow : kindOf ([Keyword.deferrable.word] ++ vs) ≠ some (.keyword .on) := nofun
    exact (OnDelete.runsTo hfollow).bind (.accept rfl (.pure _ vs))
  | false => exact (OnDelete.runsTo hon).bind (.pass hvs (.pure _ vs))

theorem Check.runsTo {c : Check} (h : Canonical .condition c.condition) :
    RunsTo (Check.read c.name) (c.words ++ vs) c vs := by
  obtain ⟨name, condition⟩ := c
  have hread : RunsTo readExpression (Term.rowWords condition ++ Word.rparen :: vs) condition
      (Word.rparen :: vs) :=
    Derives.runsTo_readExpression h.derives (Derives.follow_rparen rfl)
  rw [words, List.cons_append, List.append_assoc]
  exact (RunsTo.parenthesized hread).bind (.pure _ vs)

theorem runsTo_readDefault {x : Term} (h : Canonical .value [x]) :
    RunsTo readDefault (Word.lparen :: (x.words ++ Word.rparen :: vs)) x vs := by
  have hwords : Phrase.wordsOf .value [x] = x.words := List.append_nil x.words
  have hread : RunsTo readValue (x.words ++ Word.rparen :: vs) x (Word.rparen :: vs) := by
    rw [← hwords]
    exact Derives.runsTo_readValue h.derives (Derives.follow_rparen rfl)
  exact .accept rfl (hread.bind (.bind (.discard_expect rfl) (.pure x vs)))

theorem Scan.words_numeral {a : String} (ha : Scan.isNumeral a.toList) (rest : List Char)
    (hrest : Scan.Delimited rest) :
    Scan.words (a.toList ++ rest) = ⟨.digits, a⟩ :: Scan.words rest := by
  have hlex : Word.Lexical ⟨.digits, a⟩ := .digits ha rfl
  exact Scan.words_append hlex nofun hrest

theorem DataType.runsTo_precision {precision : Option String}
    (h : ∀ p ∈ precision, IsPrecision p) (hvs : kindOf vs ≠ some .lparen) :
    RunsTo DataType.readPrecision? (precisionWords precision ++ vs) precision vs := by
  cases precision with
  | none => exact .pass hvs (.pure none vs)
  | some p =>
    cases h p rfl with
    | one ha =>
      have hwords := Scan.words_numeral ha [] (by simp [Scan.Delimited])
      rw [List.append_nil, Scan.words_nil] at hwords
      rw [precisionWords, hwords]
      refine .accept rfl (.expect rfl fun t ht => .pass (fun h => by cases h)
        (.bind (.discard_expect rfl) ?_))
      rw [← Token.word_value, ht]
      exact .pure _ vs
    | two ha hb =>
      rename_i a b
      have hb' := Scan.words_numeral hb [] (by simp [Scan.Delimited])
      have hwords := Scan.words_numeral ha (',' :: b.toList) (by simp [Scan.Delimited]; decide)
      rw [List.append_nil, Scan.words_nil] at hb'
      rw [Scan.words_mark (show TokenKind.comma.mark? = some ',' from rfl), hb'] at hwords
      have htext : (a ++ "," ++ b).toList = a.toList ++ ',' :: b.toList := by simp
      rw [precisionWords, htext, hwords]
      refine .accept rfl (.expect rfl fun t ht => .accept rfl (.expect rfl fun t' ht' => ?_))
      refine .bind (.discard_expect rfl) ?_
      rw [← Token.word_value, ht, ← Token.word_value, ht']
      exact .pure _ vs

theorem ColumnClause.runsTo_dataType {t : DataType} (h : t.WellFormed)
    (hvs : kindOf vs ≠ some .lparen) :
    RunsTo ColumnClause.read (t.words ++ vs) (.dataType t) vs := by
  obtain ⟨k, hkind, htype⟩ := h.isType
  have hfirst : kindOf (t.words ++ vs) ≠ some (.keyword .constraint) := by
    rw [DataType.words, List.cons_append, kindOf_cons, hkind]
    rintro heq
    cases heq
    cases htype
  have hnone : RunsTo readConstraintName? (t.words ++ vs) none (t.words ++ vs) :=
    runsTo_constraintName (n := none) nofun hfirst
  refine hnone.bind (.next fun token ht => ?_)
  have hk : token.kind = .keyword k := by rw [← Token.word_kind, ht, hkind]
  have hv : token.value = t.name := by rw [← Token.word_value, ht]; rfl
  -- a type is none of the words that open the other clauses
  split
  case h_7 word _ _ _ _ _ _ hword =>
    cases hk.symm.trans hword
    rw [if_pos ⟨htype, rfl⟩, hv]
    exact (DataType.runsTo_precision h.precision hvs).bind (.pure _ vs)
  case h_8 hword => exact absurd hk (hword k)
  all_goals
    rename_i hword
    cases hk.symm.trans hword
    cases htype

/-- A clause is read from its words. -/
theorem ColumnClause.runsTo {c : ColumnClause} (h : c.WellFormed) (hc : ∀ l ∈ c.leaves, l.Canonical)
    (hvs : OpenWith TokenKind.endsClause vs) : RunsTo ColumnClause.read (c.words ++ vs) c vs := by
  cases c with
  | dataType t => exact runsTo_dataType h (hvs.ne rfl)
  | defaultValue x =>
    have hx : SchemaScript.Canonical .value [x] := hc (.value x) (by simp [leaves])
    have hwords : (defaultValue x).words ++ vs = constraintWords none ++ Keyword.default.word ::
        (Word.lparen :: (x.words ++ Word.rparen :: vs)) := by simp [words, constraintWords]
    rw [hwords]
    refine runsTo_named (fun _ h => by cases h) (by decide) fun t hk => ?_
    simp only [hk]
    exact (runsTo_readDefault hx).bind (.pure _ vs)
  | notNull name =>
    rw [words, List.append_assoc]
    refine runsTo_named h (by decide) fun t hk => ?_
    simp only [hk]
    exact .bind (.discard_expect rfl) (.pure _ vs)
  | primaryKey key =>
    rw [words, List.append_assoc]
    refine runsTo_named h.name (by decide) fun t hk => ?_
    simp only [hk]
    exact .bind (.discard_expect rfl) ((Key.runsTo h (hvs.ne rfl)).bind (.pure _ vs))
  | unique key =>
    rw [words, List.append_assoc]
    refine runsTo_named h.name (by decide) fun t hk => ?_
    simp only [hk]
    exact (Key.runsTo h (hvs.ne rfl)).bind (.pure _ vs)
  | foreignKey key =>
    rw [words, List.append_assoc]
    refine runsTo_named h.name (by decide) fun t hk => ?_
    simp only [hk]
    exact (ForeignKey.runsTo h (hvs.ne rfl) (hvs.ne rfl)).bind (.pure _ vs)
  | check c =>
    have hcondition : SchemaScript.Canonical .condition c.condition :=
      hc (.condition c.condition) (by simp [leaves])
    rw [words, List.append_assoc]
    refine runsTo_named h (by decide) fun t hk => ?_
    simp only [hk]
    exact (Check.runsTo hcondition).bind (.pure _ vs)

/-! ## Columns and constraints -/

/-- The word that a clause opens with. -/
theorem ColumnClause.head_words {c : ColumnClause} (h : c.WellFormed) :
    ∃ w us, c.words = w :: us ∧ w.kind.startsColumnClause := by
  have hnamed : ∀ (n : Option String) (k : Keyword) (us : List Word),
      (TokenKind.keyword k).startsColumnClause →
      ∃ w vs, constraintWords n ++ k.word :: us = w :: vs ∧ w.kind.startsColumnClause := by
    intro n k us hk
    cases n with
    | none => exact ⟨k.word, us, rfl, hk⟩
    | some n => exact ⟨_, _, rfl, rfl⟩
  cases c with
  | dataType t =>
    obtain ⟨k, hkind, htype⟩ := DataType.WellFormed.isType h
    refine ⟨_, _, rfl, ?_⟩
    rw [hkind]
    cases k <;> first | rfl | cases htype
  | defaultValue x => exact ⟨_, _, rfl, rfl⟩
  | notNull name => exact hnamed _ _ _ rfl
  | primaryKey key => exact hnamed _ _ _ rfl
  | unique key => exact hnamed _ _ _ rfl
  | foreignKey key => exact hnamed _ _ _ rfl
  | check c => exact hnamed _ _ _ rfl

theorem ColumnClause.startsColumnClause_words {c : ColumnClause} (h : c.WellFormed)
    (us : List Word) : OpenWith TokenKind.startsColumnClause (c.words ++ us) := by
  obtain ⟨w, ws, hwords, hw⟩ := head_words h
  rw [hwords]
  exact hw

theorem OpenWith.imp {p q : TokenKind → Bool} (h : OpenWith p vs) (hpq : ∀ k, p k → q k) :
    OpenWith q vs := by
  unfold OpenWith at *
  cases hk : kindOf vs with
  | none => simp [hk] at h
  | some k =>
    rw [hk] at h
    exact hpq k h

theorem Column.ofClauses_clauses {c : Column} (h : c.WellFormed) (htable : c.table = "") :
    Column.ofClauses c.name c.clauses = c := by
  obtain ⟨name, table, clauses⟩ := c
  cases htable
  exact congrArg (Column.mk name "") ((clauses_ofClauses_eq_iff name clauses).mpr h.sorted)

/-- **A column is read from its words.** -/
theorem Column.runsTo {c : Column} (h : c.WellFormed) (htable : c.table = "")
    (hc : ∀ l ∈ c.leaves, l.Canonical) (hvs : OpenWith TokenKind.closes vs) :
    RunsTo Column.read (c.words ++ vs) c vs := by
  have hclause : ∀ clause ∈ c.clauses, ∀ us, OpenWith TokenKind.endsClause us →
      RunsTo ColumnClause.read (clause.words ++ us) clause us := fun clause hmem us hus =>
    ColumnClause.runsTo (h.clauses clause hmem)
      (fun l hl => hc l (List.mem_flatMap.mpr ⟨clause, hmem, hl⟩)) hus
  have hopen : ∀ clause ∈ c.clauses, ∀ us, OpenWith TokenKind.startsColumnClause (clause.words ++ us) :=
    fun clause hmem us => ColumnClause.startsColumnClause_words (h.clauses clause hmem) us
  have hends : ∀ clause ∈ c.clauses, ∀ us, OpenWith TokenKind.endsClause (clause.words ++ us) :=
    fun clause hmem us => (hopen clause hmem us).imp fun k hk => by simp [TokenKind.endsClause, hk]
  have heq := ofClauses_clauses h htable
  rw [words, List.cons_append]
  refine h.name.runsTo.bind ?_
  cases hcs : c.clauses with
  | nil => exact absurd hcs h.ne_nil
  | cons first others =>
    rw [hcs] at hclause hopen hends heq
    rw [List.flatMap_cons, List.append_assoc]
    have hothers : RunsTo (repeatWhile (fun ts => ts.head?.any (·.kind.startsColumnClause))
        ColumnClause.read) (others.flatMap ColumnClause.words ++ vs) others vs := by
      refine .repeatWhile (F := OpenWith TokenKind.endsClause) ?_ ?_ ?_ ?_ ?_ hvs.endsClause
      · exact fun clause hmem => hclause clause (by simp [hmem])
      · exact fun clause hmem us ts hts =>
          (RunsTo.answers_head ts hts).trans (hopen clause (by simp [hmem]) us)
      · exact fun clause hmem => hends clause (by simp [hmem])
      · intro clause hmem hnil
        have := hopen clause (by simp [hmem]) []
        rw [hnil] at this
        cases this
      · refine fun ts hts => (RunsTo.answers_head ts hts).trans (hvs.any_false fun k hk => ?_)
        cases k <;> first | rfl | cases hk
    have hfirst : OpenWith TokenKind.endsClause (others.flatMap ColumnClause.words ++ vs) := by
      cases others with
      | nil => exact hvs.endsClause
      | cons second others =>
        rw [List.flatMap_cons, List.append_assoc]
        exact hends second (by simp) _
    refine (hclause first (by simp) _ hfirst).bind (hothers.bind ?_)
    rw [heq]
    exact .pure c vs

/-- **A table constraint is read from its words.** -/
theorem TableConstraint.runsTo {c : TableConstraint} (h : c.WellFormed)
    (hc : ∀ l ∈ c.leaves, l.Canonical) (hvs : OpenWith TokenKind.closes vs) :
    RunsTo TableConstraint.read (c.words ++ vs) c vs := by
  cases c with
  | primaryKey key columns =>
    rw [words, List.append_assoc, List.cons_append, List.cons_append, List.append_assoc]
    refine runsTo_named h.1.name (by decide) fun t hk => ?_
    simp only [hk]
    refine .bind (.discard_expect rfl) (h.2.runsTo.bind ?_)
    exact (Key.runsTo h.1 (hvs.ne rfl)).bind (.pure _ vs)
  | unique key columns =>
    rw [words, List.append_assoc, List.cons_append, List.append_assoc]
    refine runsTo_named h.1.name (by decide) fun t hk => ?_
    simp only [hk]
    exact h.2.runsTo.bind ((Key.runsTo h.1 (hvs.ne rfl)).bind (.pure _ vs))
  | foreignKey key columns =>
    rw [words, List.append_assoc, List.cons_append, List.cons_append, List.append_assoc]
    refine runsTo_named h.1.name (by decide) fun t hk => ?_
    simp only [hk]
    refine .bind (.discard_expect rfl) (h.2.runsTo.bind (.bind (.discard_expect rfl) ?_))
    exact (ForeignKey.runsTo h.1 (hvs.ne rfl) (hvs.ne rfl)).bind (.pure _ vs)
  | check c =>
    have hcondition : SchemaScript.Canonical .condition c.condition :=
      hc (.condition c.condition) (by simp [leaves])
    rw [words, List.append_assoc]
    refine runsTo_named h (by decide) fun t hk => ?_
    simp only [hk]
    exact (Check.runsTo hcondition).bind (.pure _ vs)

namespace TableElement

theorem startsConstraint_words (c : TableConstraint) (us : List Word) :
    startsConstraint (kindOf (c.words ++ us)) (kindOf (c.words ++ us).tail) := by
  cases c with
  | primaryKey key columns | unique key columns | foreignKey key columns =>
    obtain ⟨name, _⟩ := key
    cases name <;> rfl
  | check c =>
    obtain ⟨name, _⟩ := c
    cases name <;> rfl

theorem startsConstraint_column {first : TokenKind} {second : List Word}
    (hfirst : first ≠ .keyword .constraint)
    (hsecond : OpenWith TokenKind.startsColumnClause second) :
    startsConstraint (some first) (kindOf second) = false := by
  unfold startsConstraint
  split
  · rename_i heq
    exact absurd (Option.some.inj heq) hfirst
  · exact decide_eq_false (hsecond.ne rfl)
  · exact decide_eq_false (hsecond.ne rfl)
  · exact decide_eq_false (hsecond.ne rfl)
  · exact decide_eq_false (hsecond.ne rfl)
  · rfl

theorem open_clauses {c : Column} (h : c.WellFormed) (us : List Word) :
    OpenWith TokenKind.startsColumnClause (c.clauses.flatMap ColumnClause.words ++ us) := by
  cases hcs : c.clauses with
  | nil => exact absurd hcs h.ne_nil
  | cons first others =>
    rw [List.flatMap_cons, List.append_assoc]
    exact ColumnClause.startsColumnClause_words (h.clauses first (by simp [hcs])) _

theorem runsTo_column {c : Column} (h : c.Listed) (htable : c.table = "")
    (hc : ∀ l ∈ c.leaves, l.Canonical) (hvs : OpenWith TokenKind.closes vs) :
    RunsTo TableElement.read (c.words ++ vs) (.column c) vs := by
  refine .nextKind (.secondKind ?_)
  have hstart : startsConstraint (kindOf (c.words ++ vs)) (kindOf (c.words ++ vs).tail) = false :=
    startsConstraint_column h.name_ne (open_clauses h.toWellFormed vs)
  rw [hstart]
  exact (Column.runsTo h.toWellFormed htable hc hvs).bind (.pure _ vs)

theorem runsTo_constraint {c : TableConstraint} (h : c.WellFormed)
    (hc : ∀ l ∈ c.leaves, l.Canonical) (hvs : OpenWith TokenKind.closes vs) :
    RunsTo TableElement.read (c.words ++ vs) (.constraint c) vs := by
  refine .nextKind (.secondKind ?_)
  rw [startsConstraint_words c vs]
  exact (TableConstraint.runsTo h hc hvs).bind (.pure _ vs)

end TableElement

theorem Table.foldl_elements {t : Table} (h : ∀ c ∈ t.columns, c.table = t.name) :
    t.elements.foldl TableElement.addTo
      { name := t.name, isGlobal := t.isGlobal, temporary := t.temporary } =
      { t with storage := [] } := by
  have hcolumns : t.elements.filterMap TableElement.column? =
      t.columns.map fun c => { c with table := "" } := by
    simp [elements, List.filterMap_append, List.filterMap_map, Function.comp_def,
      TableElement.column?]
  have hconstraints : t.elements.filterMap TableElement.constraint? = t.constraints := by
    simp [elements, List.filterMap_append, List.filterMap_map, Function.comp_def,
      TableElement.constraint?]
  rw [TableElement.foldl_addTo, hcolumns, hconstraints, List.map_map]
  have hmap : t.columns.map ((fun c => { c with table := t.name }) ∘
      fun c : Column => { c with table := "" }) = t.columns := by
    refine (List.map_congr_left fun c hc => ?_).trans (List.map_id _)
    rw [Function.comp_apply, id, ← h c hc]
  rw [hmap]
  rfl

/-- **A table is read from its words.** -/
theorem Table.runsTo {t : Table} (h : t.WellFormed) (hc : ∀ l ∈ t.leaves, l.Canonical) :
    RunsTo (Table.read t.isGlobal t.temporary) (t.words ++ vs) t vs := by
  have hcanonical : (∀ c ∈ t.columns, ∀ l ∈ c.leaves, l.Canonical) ∧
      ∀ c ∈ t.constraints, ∀ l ∈ c.leaves, l.Canonical := by
    constructor <;> (intro c hmem l hl; refine hc l ?_; simp only [leaves, List.mem_append,
      List.mem_flatMap]; grind)
  have helement : ∀ e ∈ t.elements, ∀ us, OpenWith TokenKind.closes us →
      RunsTo TableElement.read (e.words ++ us) e us := by
    intro e he us hus
    rcases List.mem_append.mp he with he | he
    · obtain ⟨c, hmem, rfl⟩ := List.mem_map.mp he
      exact TableElement.runsTo_column ((h.columns c hmem).1.rename "") rfl (hcanonical.1 c hmem) hus
    · obtain ⟨c, hmem, rfl⟩ := List.mem_map.mp he
      exact TableElement.runsTo_constraint (h.constraints c hmem) (hcanonical.2 c hmem) hus
  have hne : t.elements ≠ [] := by
    rcases h.ne_nil with hne | hne <;> simp [elements, hne]
  have hbody : RunsTo (commaSeparated TableElement.read)
      ([Word.comma].intercalate (t.elements.map TableElement.words) ++ Word.rparen ::
        (t.storage.flatMap Storage.words ++ Word.semicolon :: vs)) t.elements
      (Word.rparen :: (t.storage.flatMap Storage.words ++ Word.semicolon :: vs)) :=
    .commaSeparated (F := OpenWith TokenKind.closes) hne helement (fun _ => rfl) (fun h => by cases h) rfl
  have hwords : t.words ++ vs = Word.ofText t.name :: Word.lparen ::
      ([Word.comma].intercalate (t.elements.map TableElement.words) ++ Word.rparen ::
        (t.storage.flatMap Storage.words ++ Word.semicolon :: vs)) := by simp [words]
  have hoptions : RunsTo Storage.readTableOptions (t.storage.flatMap Storage.words ++
      Word.semicolon :: vs) t.storage (Word.semicolon :: vs) :=
    Storage.runsTo_readTableOptions h.storage rfl
  rw [hwords]
  refine h.name.runsTo.bind ((RunsTo.parenthesized hbody).bind (hoptions.bind ?_))
  refine .bind (.discard_expect rfl) ?_
  rw [foldl_elements fun c hmem => (h.columns c hmem).2]
  exact .pure t vs

end SchemaScript
