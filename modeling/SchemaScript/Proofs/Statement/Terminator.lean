import SchemaScript.Proofs.Statement.Scanning

/-!
# One terminator for each statement

A statement that is written ends with a semicolon and has no other, whatever its names, values and
texts are. Two kinds of drops are the exception: that of a part of a table as a statement, which has
no semicolon, and that of anything else in a change to a table, which has two.

* `EndsOnce` — exactly one semicolon among some tokens, at their end.
* `Unbroken` — words without a semicolon, and that the words of each node but a statement are such.
* `Statement.Terminated` — neither of the two drops.
* `Script.endsOnce_statement_iff` — a statement that is written ends once, unless it is one of them.
-/

set_option autoImplicit false

namespace SchemaScript

/-! ## Semicolons -/

/-- Classes of tokens of which the last is a semicolon, and no other. -/
def EndsOnce (kinds : List TokenKind) : Prop :=
  kinds.getLast? = some .semicolon ∧ .semicolon ∉ kinds.dropLast

instance (kinds : List TokenKind) : Decidable (EndsOnce kinds) := inferInstanceAs (Decidable (_ ∧ _))

@[simp] theorem Word.lparen_kind : Word.lparen.kind = .lparen := rfl

@[simp] theorem Word.rparen_kind : Word.rparen.kind = .rparen := rfl

@[simp] theorem Word.comma_kind : Word.comma.kind = .comma := rfl

/-- Words without a semicolon. -/
def Unbroken (ws : List Word) : Prop := ∀ w ∈ ws, w.kind ≠ .semicolon

section Unbroken

variable {α : Type} {w : Word} {us vs ws : List Word}

@[simp] theorem unbroken_nil : Unbroken [] := fun w hw => by cases hw

@[simp] theorem unbroken_cons : Unbroken (w :: ws) ↔ w.kind ≠ .semicolon ∧ Unbroken ws :=
  List.forall_mem_cons

@[simp] theorem unbroken_append : Unbroken (us ++ vs) ↔ Unbroken us ∧ Unbroken vs :=
  List.forall_mem_append

@[simp] theorem unbroken_flatMap {xs : List α} {f : α → List Word} :
    Unbroken (xs.flatMap f) ↔ ∀ x ∈ xs, Unbroken (f x) := by
  simp only [Unbroken, List.mem_flatMap, forall_exists_index, and_imp]
  exact ⟨fun h x hx w hw => h w x hx hw, fun h w x hx hw => h x hx w hw⟩

/-- Lists of words with commas between them. -/
theorem unbroken_intercalate {xs : List α} {f : α → List Word} (h : ∀ x ∈ xs, Unbroken (f x)) :
    Unbroken ([Word.comma].intercalate (xs.map f)) := by
  induction xs with
  | nil => exact unbroken_nil
  | cons x xs ih =>
    cases xs with
    | nil => simpa using h
    | cons y ys =>
      rw [List.map_cons, List.map_cons, List.intercalate_cons_cons, ← List.map_cons, unbroken_append,
        unbroken_append]
      exact ⟨⟨h x (by simp), by simp⟩, ih fun z hz => h z (by simp [hz])⟩

/-- Words that end with a semicolon and have no other. -/
def Ended (ws : List Word) : Prop := EndsOnce (ws.map Word.kind)

instance (ws : List Word) : Decidable (Ended ws) := inferInstanceAs (Decidable (EndsOnce _))

theorem ended_semicolon : Ended (ws ++ [Word.semicolon]) ↔ Unbroken ws := by
  simp [Ended, EndsOnce, Unbroken, Word.semicolon]

theorem Unbroken.not_ended (h : Unbroken ws) : ¬ Ended ws := by
  rintro ⟨hlast, -⟩
  obtain ⟨w, hw, hk⟩ := List.mem_map.mp (List.mem_of_getLast? hlast)
  exact h w hw hk

/-- Words without a semicolon in front of others change nothing. -/
theorem Unbroken.ended_append (h : Unbroken us) : Ended (us ++ vs) ↔ Ended vs := by
  rcases List.eq_nil_or_concat vs with rfl | ⟨vs, v, rfl⟩
  · simpa using iff_of_false h.not_ended unbroken_nil.not_ended
  · have hmem : TokenKind.semicolon ∉ us.map Word.kind := by simpa [Unbroken] using h
    rw [List.concat_eq_append, ← List.append_assoc]
    simp [Ended, EndsOnce, hmem]

theorem ended_cons (h : w.kind ≠ .semicolon) : Ended (w :: ws) ↔ Ended ws := by
  have hw : Unbroken [w] := by simpa using h
  exact hw.ended_append

end Unbroken

/-! ## Names, options and types -/

theorem TokenKind.ne_semicolon_of_isName {k : TokenKind} (h : k.isName) : k ≠ .semicolon := by
  rintro rfl
  cases h

theorem IsName.ne_semicolon {n : String} (h : IsName n) : (Word.ofText n).kind ≠ .semicolon :=
  TokenKind.ne_semicolon_of_isName h.isName

theorem ne_semicolon_of_isNumeral {d : String} (h : Scan.isNumeral d.toList) :
    (Word.ofText d).kind ≠ .semicolon := by
  simp [Storage.kind_ofText_digits h]

theorem IsSpace.ne_semicolon {n : String} (h : IsSpace n) : (Word.ofText n).kind ≠ .semicolon := by
  rcases h with hname | hplaceholder
  · exact hname.ne_semicolon
  · simp [Storage.kind_ofText_placeholder hplaceholder]

theorem AreNames.unbroken {ns : List String} (h : AreNames ns) : Unbroken (nameWords ns) := by
  have hnames := unbroken_intercalate fun n hn => show Unbroken [Word.ofText n] by
    simpa using (h.names n hn).ne_semicolon
  simpa [nameWords] using hnames

theorem unbroken_constraintWords {name : Option String} (h : ∀ n ∈ name, IsName n) :
    Unbroken (constraintWords name) := by
  cases name with
  | none => exact unbroken_nil
  | some n => simpa [constraintWords] using (h n rfl).ne_semicolon

theorem Storage.OfIndex.unbroken {s : Storage} (h : s.OfIndex) : Unbroken s.words := by
  cases h with
  | tablespace hn => simpa [Storage.words] using hn.ne_semicolon
  | degree hd => simpa [Storage.words] using ne_semicolon_of_isNumeral hd
  | logging enabled => cases enabled <;> simp [Storage.words]
  | _ => simp [Storage.words]

theorem Storage.OfTable.unbroken {s : Storage} (h : s.OfTable) : Unbroken s.words := by
  cases h with
  | index hs => exact hs.unbroken
  | rowMovement enabled => cases enabled <;> simp [Storage.words]
  | onCommit preserve => cases preserve <;> simp [Storage.words]

theorem Key.WellFormed.unbroken {key : Key} (h : key.WellFormed) : Unbroken key.words := by
  rw [Key.words]
  rcases h.storage with hnil | ⟨s, hs, hkey⟩
  · simp [hnil]
  · cases hkey with
    | indexTablespace hn => simpa [hs, Storage.words] using hn.ne_semicolon

theorem IsPrecision.unbroken {p : String} (h : IsPrecision p) : Unbroken (Scan.words p.toList) := by
  cases h with
  | one ha =>
    rw [(spells_numeral ha).words_eq]
    simpa using ne_semicolon_of_isNumeral ha
  | two ha hb =>
    have hspells := ((spells_numeral ha).append_opens opens_comma (by decide)).append_spells
      (spells_numeral hb)
    rw [hspells.words_eq]
    simpa using ⟨ne_semicolon_of_isNumeral ha, ne_semicolon_of_isNumeral hb⟩

theorem DataType.WellFormed.unbroken {d : DataType} (h : d.WellFormed) : Unbroken d.words := by
  obtain ⟨name, precision⟩ := d
  obtain ⟨k, hk, -⟩ := h.isType
  have hname : (Word.ofText name).kind ≠ .semicolon := by simp [hk]
  cases precision with
  | none => simpa [DataType.words, precisionWords] using hname
  | some p =>
    have hp := (h.precision p rfl).unbroken
    simpa [DataType.words, precisionWords] using ⟨hname, hp⟩

theorem ForeignKey.WellFormed.unbroken {key : ForeignKey} (h : key.WellFormed) :
    Unbroken key.words := by
  have hrule : Unbroken ((key.onDelete.map OnDelete.words).getD []) := by
    cases key.onDelete with
    | none => simp
    | some rule => cases rule <;> simp [OnDelete.words]
  have hdeferrable : Unbroken (if key.deferrable then [Keyword.deferrable.word] else []) := by
    split <;> simp
  simpa [ForeignKey.words] using
    ⟨h.table.ne_semicolon, h.columns.unbroken, hrule, hdeferrable⟩

/-! ## Values and conditions -/

/-- No phrase of the grammar has a semicolon. -/
theorem Derives.unbroken {p : Phrase} {ws : List Word} {ts : List Term} (h : Derives p ws ts) :
    Unbroken ws := by
  have hconstant : ∀ {k : TokenKind}, k.isConstant → k ≠ .semicolon := by
    rintro _ hk rfl
    cases hk
  have hoperator : ∀ {k : TokenKind}, k.isOperator → k ≠ .semicolon := by
    rintro _ hk rfl
    cases hk
  have hconjunction : ∀ {k : TokenKind}, k.isConjunction → k ≠ .semicolon := by
    rintro _ hk rfl
    cases hk
  induction h with
  | constant hw => simpa using hconstant hw
  | name hw => simpa using TokenKind.ne_semicolon_of_isName hw
  | callEmpty hw hl hr => simpa [hl, hr] using TokenKind.ne_semicolon_of_isName hw
  | call hw hl hr _ _ ihfirst ihothers =>
    simpa [hl, hr] using ⟨TokenKind.ne_semicolon_of_isName hw, ihfirst, ihothers⟩
  | null hw => simp [hw]
  | single _ ih => exact ih
  | expression _ ih => exact ih
  | nextValue hc _ _ ihfirst ihothers => simpa [hc] using ⟨ihfirst, ihothers⟩
  | nextTerm hc _ _ ihfirst ihothers => simpa [hc] using ⟨ihfirst, ihothers⟩
  | operator hw _ ih => simpa using ⟨hoperator hw, ih⟩
  | operatorGroup hw hl hr _ ih => simpa [hl, hr] using ⟨hoperator hw, ih⟩
  | signed hw => simp [hw]
  | between hw ha _ _ ihlow ihhigh => simpa [hw, ha] using ⟨ihlow, ihhigh⟩
  | among hw hl hr _ _ ihfirst ihothers => simpa [hw, hl, hr] using ⟨ihfirst, ihothers⟩
  | isNull hw hn => simp [hw, hn]
  | isNotNull hw hm hn => simp [hw, hm, hn]
  | group hl hr _ ih => simpa [hl, hr] using ih
  | groupOperator hl hr hw _ _ ih ihoperand =>
    simpa [hl, hr] using ⟨ih, hoperator hw, ihoperand⟩
  | comparison _ _ ihfirst ihrest => simpa using ⟨ihfirst, ihrest⟩
  | joined hw _ _ ihfirst ihothers => simpa using ⟨hconjunction hw, ihfirst, ihothers⟩
  | condition _ _ ihfirst ihothers => simpa using ⟨ihfirst, ihothers⟩
  | _ => exact unbroken_nil

theorem Leaf.Canonical.unbroken_value {x : Term} (h : (Leaf.value x).Canonical) :
    Unbroken x.words := by
  have hrow := h.derives.unbroken
  simpa [Phrase.wordsOf] using hrow

theorem Leaf.Canonical.unbroken_condition {ts : Expression} (h : (Leaf.condition ts).Canonical) :
    Unbroken (Term.rowWords ts) := h.derives.unbroken

/-! ## Tables -/

theorem unbroken_check {c : Check} (h : (Leaf.condition c.condition).Canonical) :
    Unbroken c.words := by
  simpa [Check.words] using h.unbroken_condition

theorem ColumnClause.WellFormed.unbroken {clause : ColumnClause} (h : clause.WellFormed)
    (hleaves : ∀ l ∈ clause.leaves, l.Canonical) : Unbroken clause.words := by
  cases clause with
  | dataType d => exact DataType.WellFormed.unbroken h
  | defaultValue x =>
    have hx := (hleaves (.value x) (by simp [leaves])).unbroken_value
    simpa [words] using hx
  | notNull name => simpa [words] using unbroken_constraintWords h
  | primaryKey key =>
    have hkey : key.WellFormed := h
    simpa [words] using ⟨unbroken_constraintWords hkey.name, hkey.unbroken⟩
  | unique key =>
    have hkey : key.WellFormed := h
    simpa [words] using ⟨unbroken_constraintWords hkey.name, hkey.unbroken⟩
  | foreignKey key =>
    have hkey : key.WellFormed := h
    simpa [words] using ⟨unbroken_constraintWords hkey.name, hkey.unbroken⟩
  | check c =>
    have hc := unbroken_check (hleaves (.condition c.condition) (by simp [leaves]))
    simpa [words] using ⟨unbroken_constraintWords h, hc⟩

theorem Column.WellFormed.unbroken {c : Column} (h : c.WellFormed)
    (hleaves : ∀ l ∈ c.leaves, l.Canonical) : Unbroken c.words := by
  rw [words, unbroken_cons, unbroken_flatMap]
  refine ⟨h.name.ne_semicolon, fun clause hclause => ?_⟩
  exact (h.clauses clause hclause).unbroken fun l hl =>
    hleaves l (List.mem_flatMap.mpr ⟨clause, hclause, hl⟩)

theorem TableConstraint.WellFormed.unbroken {c : TableConstraint} (h : c.WellFormed)
    (hleaves : ∀ l ∈ c.leaves, l.Canonical) : Unbroken c.words := by
  cases c with
  | primaryKey key columns =>
    simpa [words] using ⟨unbroken_constraintWords h.1.name, h.2.unbroken, h.1.unbroken⟩
  | unique key columns =>
    simpa [words] using ⟨unbroken_constraintWords h.1.name, h.2.unbroken, h.1.unbroken⟩
  | foreignKey key columns =>
    simpa [words] using ⟨unbroken_constraintWords h.1.name, h.2.unbroken, h.1.unbroken⟩
  | check c =>
    have hc := unbroken_check (hleaves (.condition c.condition) (by simp [leaves]))
    simpa [words] using ⟨unbroken_constraintWords h, hc⟩

theorem unbroken_storage {options : List Storage} (h : ∀ s ∈ options, s.OfTable) :
    Unbroken (options.flatMap Storage.words) := by
  rw [unbroken_flatMap]
  exact fun s hs => (h s hs).unbroken

/-! ## Statements -/

/-- A statement that is not one of the two drops without exactly one semicolon: that of a part of a
table, as a statement of its own, and that of anything else, in a change to a table. A dialect
without synonyms writes nothing for the drop of one. -/
def Statement.Terminated (t : Target) : Statement → Prop
  | .drop d => d.object.isTablePart = false
  | .alterTable a => ∀ d ∈ a.drops,
      d.object.isTablePart ∨ d.object = .synonym ∧ t.writes .synonym = false
  | _ => True

theorem Drop.unbroken_lineWords_iff (t : Target) {d : Drop} (h : IsName d.name) :
    Unbroken (d.lineWords t) ↔
      d.object.isTablePart ∨ d.object = .synonym ∧ t.writes .synonym = false := by
  rw [lineWords]
  split
  · rename_i hsynonym
    exact iff_of_true unbroken_nil (.inr hsynonym)
  · rename_i hsynonym
    cases hpart : d.object.isTablePart with
    | true => simpa [words] using h.ne_semicolon
    | false =>
      refine iff_of_false (fun hall => ?_) (by simpa using hsynonym)
      exact hall Word.semicolon (by simp) rfl

/-- The words of a drop are ended if it is not that of a part of a table. -/
theorem Drop.ended_lineWords_iff (t : Target) {d : Drop} (h : IsName d.name)
    (hsynonym : ¬ (d.object = .synonym ∧ t.writes .synonym = false)) :
    Ended (d.lineWords t) ↔ d.object.isTablePart = false := by
  rw [lineWords, if_neg hsynonym]
  have hwords : Unbroken (Keyword.drop.word :: d.words) := by simpa [words] using h.ne_semicolon
  cases hpart : d.object.isTablePart with
  | true => simpa using hwords.not_ended
  | false =>
    rw [if_neg (by decide), ← List.cons_append, ended_semicolon]
    exact iff_of_true hwords rfl

theorem Addition.WellFormed.unbroken {a : Addition} (h : a.WellFormed)
    (hleaves : ∀ l ∈ a.leaves, l.Canonical) : Unbroken a.words := by
  cases a with
  | column c => exact h.1.toWellFormed.unbroken hleaves
  | constraint c => exact TableConstraint.WellFormed.unbroken h hleaves
  | storage s => exact Storage.OfTable.unbroken h

theorem unbroken_modify {columns : List Column}
    (h : ∀ c ∈ columns, c.WellFormed ∧ ∀ l ∈ c.leaves, l.Canonical) :
    Unbroken (Modification.modify columns).words := by
  have hcolumns := unbroken_intercalate fun c hc => (h c hc).1.unbroken (h c hc).2
  simpa [Modification.words] using hcolumns

theorem AlterTable.ended_lineWords_iff (t : Target) {a : AlterTable} (h : a.WellFormed)
    (hleaves : ∀ l ∈ a.leaves, l.Canonical) :
    Ended (Statement.lineWords t (.alterTable a)) ↔ Statement.Terminated t (.alterTable a) := by
  obtain ⟨table, adds, mods, drops⟩ := a
  have htable := h.table.ne_semicolon
  have hactions := h.actions
  simp only [leaves, List.forall_mem_append, List.mem_flatMap, forall_exists_index, and_imp] at hleaves
  -- what is added and changed has no semicolon, so that only the drops matter
  have hadds : Unbroken ([Word.comma].intercalate (adds.map fun x => Keyword.add.word :: x.words)) := by
    refine unbroken_intercalate fun x hx => ?_
    cases hactions with
    | adds _ hadds =>
      simpa using (hadds x hx).unbroken fun l hl => hleaves.1.1 l x hx hl
    | _ => cases hx
  have hmods : Unbroken (mods.flatMap Modification.words) := by
    cases hactions with
    | rename hr =>
      rename_i r
      cases r with
      | table newName => simpa [Modification.words, Rename.words] using IsName.ne_semicolon hr
      | column name newName =>
        simpa [Modification.words, Rename.words] using ⟨hr.1.ne_semicolon, hr.2.ne_semicolon⟩
    | @modify columns _ hshape =>
      simpa using unbroken_modify fun c hc => ⟨(hshape c hc).1, fun l hl =>
        hleaves.1.2 l (.modify columns) (by simp) (List.mem_flatMap.mpr ⟨c, hc, hl⟩)⟩
    | storage _ hoptions => simpa [List.flatMap_map, Modification.words] using unbroken_storage hoptions
    | _ => exact unbroken_nil
  have hdrops : ∀ d ∈ drops, IsName d.name := by
    cases hactions with
    | drop hd => simpa using hd
    | _ => simp
  rw [Statement.lineWords, lineWords, ended_cons (by simp), ended_cons (by simp), ended_cons htable,
    hadds.ended_append, hmods.ended_append, ended_semicolon, unbroken_flatMap, Statement.Terminated]
  exact forall₂_congr fun d hd => d.unbroken_lineWords_iff t (hdrops d hd)

theorem Table.WellFormed.ended {x : Table} (h : x.WellFormed)
    (hleaves : ∀ l ∈ x.leaves, l.Canonical) : Ended (Statement.table x).words := by
  simp only [leaves, List.forall_mem_append, List.mem_flatMap, forall_exists_index, and_imp] at hleaves
  have hfront : Unbroken ((if x.isGlobal then [Keyword.global.word] else []) ++
      (if x.temporary then [Keyword.temporary.word] else [])) := by
    cases x.isGlobal <;> cases x.temporary <;> simp
  have helements : Unbroken ([Word.comma].intercalate (x.elements.map TableElement.words)) := by
    refine unbroken_intercalate fun e he => ?_
    rcases List.mem_append.mp he with he | he
    · obtain ⟨c, hc, rfl⟩ := List.mem_map.mp he
      exact (h.columns c hc).1.toWellFormed.unbroken fun l hl => hleaves.1.1 l c hc hl
    · obtain ⟨c, hc, rfl⟩ := List.mem_map.mp he
      exact (h.constraints c hc).unbroken fun l hl => hleaves.1.2 l c hc hl
  rw [Statement.words, words, ended_cons (by simp), hfront.ended_append, ended_cons (by simp),
    ended_cons h.name.ne_semicolon, ended_cons (by simp), helements.ended_append,
    ended_cons (by simp), ended_semicolon]
  exact unbroken_storage h.storage

theorem Index.WellFormed.ended {i : Index} (h : i.WellFormed) : Ended (Statement.index i).words := by
  have hunique : Unbroken (if i.unique then [Keyword.unique.word] else []) := by
    cases i.unique <;> simp
  rw [Statement.words, words, ended_cons (by simp), hunique.ended_append, ended_cons (by simp),
    ended_cons h.name.ne_semicolon, ended_cons (by simp), ended_cons h.table.ne_semicolon,
    h.columns.unbroken.ended_append, ended_semicolon]
  exact unbroken_storage fun s hs => .index (h.storage s hs)

theorem Sequence.WellFormed.ended {s : Sequence} (h : s.WellFormed) :
    Ended (Statement.sequence s).words := by
  rw [Statement.words, words, ended_cons (by simp), ended_cons (by simp),
    ended_cons h.name.ne_semicolon, ended_semicolon, unbroken_flatMap]
  intro option hoption
  have hwf := h.options option hoption
  cases option with
  | startWith value => simpa [SequenceOption.words] using ne_semicolon_of_isNumeral hwf
  | order => simp [SequenceOption.words]

theorem Synonym.WellFormed.ended {s : Synonym} (h : s.WellFormed) :
    Ended (Statement.synonym s).words := by
  obtain ⟨name, target⟩ := s
  rw [Statement.words, words, ended_cons (by simp), ended_cons (by simp),
    ended_cons h.name.ne_semicolon, ended_semicolon]
  cases target with
  | none => simp
  | some n => simpa using (h.target n rfl).ne_semicolon

theorem AlterIndex.WellFormed.ended {a : AlterIndex} (h : a.WellFormed) :
    Ended (Statement.alterIndex a).words := by
  rw [Statement.words, words, ended_cons (by simp), ended_cons (by simp),
    ended_cons h.index.ne_semicolon, ended_semicolon]
  exact unbroken_storage fun s hs => .index (h.storage s hs)

theorem Comment.WellFormed.ended {c : Comment} (h : c.WellFormed) :
    Ended (Statement.comment c).words := by
  -- a text is one word, whatever it holds
  have hend : ∀ text, Ended ([Keyword.is.word, Word.quoted text] ++ [Word.semicolon]) := fun text =>
    ended_semicolon.mpr (by simp [Word.quoted])
  cases c with
  | table name text =>
    rw [Statement.words, words, ended_cons (by simp), ended_cons (by simp), ended_cons (by simp),
      ended_cons h.1.ne_semicolon]
    exact hend text
  | column owner part text =>
    rw [Statement.words, words, ended_cons (by simp), ended_cons (by simp), ended_cons (by simp),
      ended_cons h.1.ne_semicolon]
    exact hend text

theorem Insert.WellFormed.ended {i : Insert} (h : i.WellFormed)
    (hleaves : ∀ x ∈ i.values, (Leaf.value x).Canonical) : Ended (Statement.insert i).words := by
  have hcolumns : Unbroken (if i.columns.isEmpty then [] else nameWords i.columns) := by
    rcases h.columns with hnil | hcolumns
    · simp [hnil]
    · split
      · exact unbroken_nil
      · exact hcolumns.unbroken
  have hvalues : Unbroken ([Word.comma].intercalate (i.values.map Term.words)) :=
    unbroken_intercalate fun x hx => (hleaves x hx).unbroken_value
  rw [Statement.words, words, ended_cons (by simp), ended_cons (by simp),
    ended_cons h.table.ne_semicolon, hcolumns.ended_append, ended_cons (by simp),
    ended_cons (by simp), hvalues.ended_append, ended_cons (by simp)]
  decide

/-! ## Scripts -/

/-- The values and conditions of the native form of a statement are read from the words they are
written as. -/
theorem Statement.canonical_native {t : Target} {o : WriteOptions} {s s' : Statement}
    (hwf : s.WellFormed) (hw : ∀ l ∈ s.leaves, l.Writable t) (hnative : s.native? t o = some s') :
    ∀ l ∈ s'.leaves, l.Canonical := by
  have hdrop : ∀ d : Drop, ∀ l ∈ d.leaves, l.Canonical := by
    intro d l hl
    rw [Drop.leaves] at hl
    split at hl
    · rw [List.mem_singleton] at hl
      subst hl
      trivial
    · cases hl
  have hother : s.Restorable → ∀ l ∈ s'.leaves, l.Canonical := fun hrestorable l hl =>
    (Statement.native_leaves hwf hrestorable hw hnative l hl).canonical
  cases s with
  | alterTable a =>
    rw [native?] at hnative
    split at hnative
    · cases hnative
    · cases hnative
      obtain ⟨table, adds, mods, drops⟩ := a
      have hactions := hwf.actions
      cases hactions with
      | drop hd => simpa [leaves, AlterTable.native, AlterTable.leaves] using hdrop _
      | _ => exact fun l hl => (AlterTable.native_leaves hwf (by simp) hw l hl).canonical
  | drop d =>
    rw [native?] at hnative
    split at hnative
    · cases hnative
    · cases hnative
      exact hdrop d
  | inclusion path =>
    cases hnative
    simp [leaves]
  | _ => exact hother trivial

/-- **The words that a statement is written as are ended, unless it is one of the two drops.** -/
theorem Statement.ended_lineWords_iff {t : Target} {o : WriteOptions} {s s' : Statement}
    (hwf : s.WellFormed) (hw : ∀ l ∈ s.leaves, l.Writable t) (hinclusion : ∀ path, s ≠ .inclusion path)
    (hnative : s.native? t o = some s') : Ended (s'.lineWords t) ↔ s.Terminated t := by
  have hshape := hwf.native hnative
  have hleaves := Statement.canonical_native hwf hw hnative
  cases s with
  | table x =>
    cases hnative
    exact iff_of_true (Table.WellFormed.ended hshape hleaves) trivial
  | index i =>
    cases hnative
    exact iff_of_true (Index.WellFormed.ended hshape) trivial
  | sequence s =>
    cases hnative
    exact iff_of_true (Sequence.WellFormed.ended hshape) trivial
  | synonym s =>
    rw [native?] at hnative
    split at hnative <;> cases hnative
    exact iff_of_true (Synonym.WellFormed.ended hshape) trivial
  | alterTable a =>
    rw [native?] at hnative
    split at hnative <;> cases hnative
    exact AlterTable.ended_lineWords_iff t hshape hleaves
  | alterIndex a =>
    rw [native?] at hnative
    split at hnative <;> cases hnative
    exact iff_of_true (AlterIndex.WellFormed.ended hshape) trivial
  | drop d =>
    rw [native?] at hnative
    split at hnative
    · cases hnative
    · rename_i hsynonym
      cases hnative
      exact d.ended_lineWords_iff t hshape hsynonym
  | comment c =>
    cases hnative
    exact iff_of_true (Comment.WellFormed.ended hshape) trivial
  | insert i =>
    cases hnative
    refine iff_of_true (Insert.WellFormed.ended hshape fun x hx => ?_) trivial
    exact hleaves (.value x) (List.mem_map_of_mem hx)
  | commit =>
    cases hnative
    exact iff_of_true (show Ended Statement.commit.words by decide) trivial
  | inclusion path => exact absurd rfl (hinclusion path)

/-- **A statement that is written has exactly one semicolon, at its end, unless it drops a part of a
table as a statement or anything else in a change to a table.** What it holds in quotes does not
matter. Nothing is written for what the dialect has no words for. -/
theorem Script.endsOnce_statement_iff {text : String} {s : Script} (t : Target) (o : WriteOptions)
    (n : Nat) {st : Statement} (hparse : Script.parse text = .ok s) (hst : st ∈ s.statements)
    (hinclusion : ∀ path, st ≠ .inclusion path)
    (hcalls : ∀ l ∈ st.leaves, ∀ call ∈ l.calls, t.NamesSequence call) :
    ∃ w out, Writer.ofDialect t.dialect o = .ok w ∧ w.statement n st = .ok out ∧
      (out ≠ "" → (EndsOnce ((tokenize out).1.map Token.kind) ↔ st.Terminated t)) := by
  obtain ⟨hwf, hreadable⟩ := Script.of_parse hparse st hst
  have hw : ∀ l ∈ st.leaves, l.Writable t := fun l hl => ⟨hreadable l hl, hcalls l hl⟩
  refine ⟨t.writer o, ?_⟩
  cases hnative : st.native? t o with
  | none => exact ⟨"", t.ofDialect_eq o, (t.statement_native n hwf hw).1 hnative, fun h => absurd rfl h⟩
  | some st' =>
    obtain ⟨out, hout, hstands, hsolid⟩ := Target.stands_statement n hwf hw hnative
    refine ⟨out, t.ofDialect_eq o, hout, fun _ => ?_⟩
    have hwords : Scan.words out.toList = st'.lineWords t := by
      simpa using hstands [] (by simp)
    have hkinds : (tokenize out).1.map Token.kind = (st'.lineWords t).map Word.kind := by
      rw [← hwords, Scan.words, Scan.wordsAt, List.map_map]
      rfl
    rw [hkinds]
    exact Statement.ended_lineWords_iff hwf hw hinclusion hnative

theorem Script.endsOnce_statement_quoted :
    ∃ s st w out, Script.parse "INSERT INTO t VALUES (f('a;b'), ';');" = .ok s ∧ st ∈ s.statements ∧
      (∀ path, st ≠ .inclusion path) ∧
      (∀ l ∈ st.leaves, ∀ call ∈ l.calls, Target.oracle.NamesSequence call) ∧
      Writer.ofDialect Target.oracle.dialect {} = .ok w ∧ w.statement 0 st = .ok out ∧ out ≠ "" ∧
      st.Terminated .oracle ∧ EndsOnce ((tokenize out).1.map Token.kind) := by
  have hparse : Script.parse "INSERT INTO t VALUES (f('a;b'), ';');" =
      .ok ⟨[.insert ⟨"t", [], [.call "f" [.literal "'a;b'"], .literal "';'"]⟩]⟩ := by decide +kernel
  have hinclusion : ∀ path, Statement.insert ⟨"t", [], [.call "f" [.literal "'a;b'"], .literal "';'"]⟩ ≠
      .inclusion path := fun path h => by cases h
  have hcalls : ∀ l ∈ (Statement.insert
      ⟨"t", [], [.call "f" [.literal "'a;b'"], .literal "';'"]⟩).leaves, ∀ call ∈ l.calls,
      Target.oracle.NamesSequence call := by
    simp [Statement.leaves, Leaf.calls, Term.calls, Term.rowCalls, Target.NamesSequence,
      Writer.isNextValue]
    decide
  obtain ⟨w, out, hw, hout, hends⟩ := Script.endsOnce_statement_iff .oracle {} 0 hparse
    (List.mem_singleton.mpr rfl) hinclusion hcalls
  have hne : out ≠ "" := by
    rintro rfl
    rw [Target.oracle.ofDialect_eq] at hw
    cases hw
    revert hout
    decide +kernel
  exact ⟨_, _, w, out, hparse, List.mem_singleton.mpr rfl, hinclusion, hcalls, hw, hout, hne, trivial,
    (hends hne).mpr trivial⟩

/-- A part of a table that is dropped as a statement has no semicolon, and a table that is dropped
in a change to another has two. -/
theorem Script.not_endsOnce_statement_drop :
    Script.parse "DROP COLUMN x;" = .ok ⟨[.drop ⟨.column, "x"⟩]⟩ ∧
      (Target.oracle.writer {}).statement 0 (.drop ⟨.column, "x"⟩) = .ok "DROP COLUMN x" ∧
      ¬ EndsOnce ((tokenize "DROP COLUMN x").1.map Token.kind) ∧
      Script.parse "ALTER TABLE t DROP TABLE x;" =
        .ok ⟨[.alterTable { table := "t", drops := [⟨.table, "x"⟩] }]⟩ ∧
      (Target.oracle.writer {}).statement 0 (.alterTable { table := "t", drops := [⟨.table, "x"⟩] }) =
        .ok "ALTER TABLE t\n    DROP TABLE x;;" ∧
      ¬ EndsOnce ((tokenize "ALTER TABLE t\n    DROP TABLE x;;").1.map Token.kind) := by
  refine ⟨?_, ?_, ?_, ?_, ?_, ?_⟩ <;> decide +kernel

end SchemaScript
