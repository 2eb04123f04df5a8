import SchemaScript.Proofs.Script.Leaves
import SchemaScript.Proofs.Table.Order
import SchemaScript.Proofs.Token.Reading
import SchemaScript.Table.Read

/-!
# Well-formed tables

What the rules for tables can give. The shape of a node is `WellFormed`; what it is made of at the
bottom are its `leaves`.

* `IsName`, `IsSpace`, `IsPrecision` — the texts that stand for names, tablespaces and precisions.
* `Leaf.Readable` — a value or condition that the grammar derives.
* `Table.WellFormed` — the shape of a table, and of its parts.
* `Table.of_read` — a table that has been read is well-formed, and its values are readable.
-/

set_option autoImplicit false

namespace SchemaScript

open Reader

/-! ## Names -/

/-- A text that is read as a name. -/
structure IsName (n : String) : Prop where
  isWord : Scan.isWord n.toList
  isName : (Word.ofText n).kind.isName

theorem Word.Lexical.isName {w : Word} (hw : w.Lexical) (hk : w.kind.isName) : IsName w.value := by
  refine ⟨(hw.isWord (Target.isIdentifier_or_keyword hk)).1, ?_⟩
  rw [(Word.Inline.of_isName hw hk).ofText_eq]
  exact hk

theorem Word.Lexical.isPlaceholder {w : Word} (hw : w.Lexical) (hk : w.kind = .placeholder) :
    Scan.isPlaceholder w.value.toList := by
  cases hw with
  | placeholder hv => exact hv
  | word _ hkind =>
    rw [hk] at hkind
    rcases Target.wordKind_cases w.value.toList with h | ⟨k, h⟩ <;> (rw [h] at hkind; cases hkind)
  | sign hv => rw [hk] at hv; cases hv
  | singleQuoted _ _ hkind | doubleQuoted _ _ _ hkind | digits _ hkind
    | inclusion _ _ hkind => rw [hk] at hkind; cases hkind

/-- The path of an inclusion is trimmed, and stays on its line. -/
theorem Word.Lexical.path {w : Word} (hw : w.Lexical) (hk : w.kind = .inclusion) :
    Text.trimChars Text.isBlank w.value.toList = w.value.toList ∧ '\n' ∉ w.value.toList := by
  cases hw with
  | inclusion hv hn => exact ⟨hv, hn⟩
  | word _ hkind =>
    rw [hk] at hkind
    rcases Target.wordKind_cases w.value.toList with h | ⟨k, h⟩ <;> (rw [h] at hkind; cases hkind)
  | sign hv => rw [hk] at hv; cases hv
  | singleQuoted _ _ hkind | doubleQuoted _ _ _ hkind | digits _ hkind
    | placeholder _ hkind => rw [hk] at hkind; cases hkind

/-- A text that is read as the name of a tablespace. -/
def IsSpace (n : String) : Prop := IsName n ∨ Scan.isPlaceholder n.toList

/-- A list of names, one or more. -/
structure AreNames (ns : List String) : Prop where
  ne_nil : ns ≠ []
  names : ∀ n ∈ ns, IsName n

/-- The precision of a type: one number, or two with a comma between them. -/
inductive IsPrecision : String → Prop
  | one {a : String} (ha : Scan.isNumeral a.toList) : IsPrecision a
  | two {a b : String} (ha : Scan.isNumeral a.toList) (hb : Scan.isNumeral b.toList) :
      IsPrecision (a ++ "," ++ b)

/-- What the tokens of a text lead a rule to give. -/
abbrev Gives {α : Type} (r : Reader α) (P : α → Prop) : Prop :=
  Consumes Word.Lexical r fun _ a => P a

/-- Passing over a token changes nothing of what is given. -/
theorem Gives.skip {α : Type} {r : Reader α} {P : α → Prop} (h : Gives r P) :
    Gives (do Reader.skip; r) P := by
  intro ts a rest hL _ hrun
  obtain ⟨_, mid, hskip, hr⟩ := bind_eq_ok.mp hrun
  cases hskip
  obtain ⟨taken, htail, hP⟩ := h ts.tail a rest (fun t ht => hL t (List.mem_of_mem_tail ht)) trivial hr
  cases ts with
  | nil => exact ⟨taken, htail, hP⟩
  | cons t ts => exact ⟨t :: taken, by rw [List.cons_append, ← htail]; rfl, hP⟩

theorem IsName.of_name : Gives name IsName := by
  refine ConsumesWhen.name.imp ?_
  rintro _ _ ⟨w, -, hw, hk, rfl⟩
  exact hw.isName hk

theorem AreNames.of_nameList : Gives nameList AreNames := by
  refine .parenthesized (P := fun _ ns => AreNames ns) ?_ fun _ _ _ _ _ _ h => h
  refine .commaSeparated IsName.of_name ?_ ?_
  · exact fun _ n hn => ⟨by simp, by simpa using hn⟩
  · intro _ n _ _ ns hn _ _ hns
    exact ⟨by simp, List.forall_mem_cons.mpr ⟨hn, hns.names⟩⟩

/-! ## Storage options -/

namespace Storage

/-- The storage options of an index. -/
inductive OfIndex : Storage → Prop
  | tablespace {n : String} (hn : IsSpace n) : OfIndex (.tablespace n)
  | logging (enabled : Bool) : OfIndex (.logging enabled)
  | parallel : OfIndex (.parallel true none)
  | degree {d : String} (hd : Scan.isNumeral d.toList) : OfIndex (.parallel true (some d))
  | noparallel : OfIndex (.parallel false none)

/-- The storage options of a table. -/
inductive OfTable : Storage → Prop
  | index {s : Storage} (hs : s.OfIndex) : OfTable s
  | rowMovement (enabled : Bool) : OfTable (.rowMovement enabled)
  | onCommit (preserve : Bool) : OfTable (.onCommit preserve)

/-- The storage options of a key. -/
inductive OfKey : Storage → Prop
  | indexTablespace {n : String} (hn : IsSpace n) : OfKey (.indexTablespace n)

theorem of_readSpace : Gives readSpace IsSpace := by
  refine .nextKind fun k _ => ?_
  split
  · rename_i hk
    subst hk
    refine .next fun t ht hk => .pure (.inr ?_)
    have hkind : t.word.kind = .placeholder := Option.some.inj hk
    exact ht.isPlaceholder hkind
  · exact .weaken (IsName.of_name.imp fun _ _ h => .inl h)

theorem of_readIndexOption : Gives readIndexOption OfIndex := by
  refine .next fun t ht _ => ?_
  split
  · exact .bind of_readSpace fun _ n hn => .pure (.tablespace hn)
  · exact .pure (.logging true)
  · exact .pure (.logging false)
  · refine .nextKind fun k _ => ?_
    split
    · rename_i hk
      subst hk
      refine .next fun d hd hk => .pure (.degree ?_)
      exact hd.isNumeral (Option.some.inj hk)
    · exact .pure .parallel
  · exact .pure .noparallel
  · exact .reject

theorem of_readIndexOptions : Gives readIndexOptions fun options => ∀ s ∈ options, s.OfIndex := by
  refine .repeatWhile (d := fun _ => True) (fun _ _ => trivial) of_readIndexOption nofun ?_
  exact fun _ s _ _ hs hrest => List.forall_mem_cons.mpr ⟨hs, hrest⟩

theorem of_readRowMovement (enabled : Bool) : Gives (readRowMovement enabled) OfTable :=
  .bind .discard_expect fun _ _ _ => .bind .discard_expect fun _ _ _ => .pure (.rowMovement enabled)

theorem of_readOnCommit : Gives readOnCommit OfTable := by
  have hrows : ∀ preserve, Gives (do discard <| expectWord .rows; return Storage.onCommit preserve)
      OfTable :=
    fun preserve => .bind .discard_expect fun _ _ _ => .pure (.onCommit preserve)
  refine .bind .discard_expect fun _ _ _ => .next fun t _ _ => ?_
  dsimp only
  split
  · exact hrows true
  · exact hrows false
  · exact .bind (P := fun _ _ => False) .reject fun _ _ h => h.elim

theorem of_readTableOption : Gives readTableOption OfTable := by
  refine .accept (fun _ _ _ => of_readRowMovement true) ?_
  refine .accept (fun _ _ _ => of_readRowMovement false) ?_
  refine .accept (fun _ _ _ => of_readOnCommit) ?_
  exact of_readIndexOption.imp fun _ _ h => .index h

theorem of_readTableOptions : Gives readTableOptions fun options => ∀ s ∈ options, s.OfTable := by
  refine .repeatWhile (d := fun _ => True) (fun _ _ => trivial) of_readTableOption nofun ?_
  exact fun _ s _ _ hs hrest => List.forall_mem_cons.mpr ⟨hs, hrest⟩

end Storage

/-! ## Clauses -/

/-- A value or condition that the grammar derives, or any other leaf. -/
def Leaf.Readable : Leaf → Prop
  | .value x => SchemaScript.Readable .value [x]
  | .condition ts => SchemaScript.Readable .condition ts
  | _ => True

/-- The shape of a type. -/
structure DataType.WellFormed (t : DataType) : Prop where
  isWord : Scan.isWord t.name.toList
  isType : ∃ k : Keyword, (Word.ofText t.name).kind = .keyword k ∧ k.isType
  precision : ∀ p ∈ t.precision, IsPrecision p

/-- The shape of a key. -/
structure Key.WellFormed (key : Key) : Prop where
  name : ∀ n ∈ key.name, IsName n
  storage : key.storage = [] ∨ ∃ s, key.storage = [s] ∧ s.OfKey

/-- The shape of a foreign key. -/
structure ForeignKey.WellFormed (key : ForeignKey) : Prop where
  name : ∀ n ∈ key.name, IsName n
  table : IsName key.target.table
  columns : AreNames key.target.columns

/-- The shape of a column clause. -/
def ColumnClause.WellFormed : ColumnClause → Prop
  | .dataType t => t.WellFormed
  | .defaultValue _ => True
  | .notNull name => ∀ n ∈ name, IsName n
  | .primaryKey key | .unique key => key.WellFormed
  | .foreignKey key => key.WellFormed
  | .check c => ∀ n ∈ c.name, IsName n

/-- The shape of a column. -/
structure Column.WellFormed (c : Column) : Prop where
  name : IsName c.name
  ne_nil : c.clauses ≠ []
  clauses : ∀ clause ∈ c.clauses, clause.WellFormed
  sorted : c.clauses.Pairwise fun a b => a.rank ≤ b.rank

/-- The shape of a table constraint. -/
def TableConstraint.WellFormed : TableConstraint → Prop
  | .primaryKey key columns | .unique key columns => key.WellFormed ∧ AreNames columns
  | .foreignKey key columns => key.WellFormed ∧ AreNames columns
  | .check c => ∀ n ∈ c.name, IsName n

/-- The shape of a column in a list with constraints, one of which the word `CONSTRAINT` opens. -/
structure Column.Listed (c : Column) : Prop extends c.WellFormed where
  name_ne : (Word.ofText c.name).kind ≠ .keyword .constraint

/-- The shape of a table. -/
structure Table.WellFormed (t : Table) : Prop where
  name : IsName t.name
  temporary : t.isGlobal → t.temporary
  columns : ∀ c ∈ t.columns, c.Listed ∧ c.table = t.name
  constraints : ∀ c ∈ t.constraints, c.WellFormed
  ne_nil : t.columns ≠ [] ∨ t.constraints ≠ []
  storage : ∀ s ∈ t.storage, s.OfTable

/-! ## What the rules give -/

theorem readConstraintName?_gives :
    Gives readConstraintName? fun name => ∀ n ∈ name, IsName n := by
  refine .accept (fun _ _ _ => .bind IsName.of_name fun _ n hn => .pure ?_) (.pure nofun)
  exact fun m hm => Option.some.inj hm ▸ hn

theorem Key.of_read {name : Option String} (hname : ∀ n ∈ name, IsName n) :
    Gives (Key.read name) Key.WellFormed := by
  refine .accept (fun _ _ _ => ?_) (.pure ⟨hname, .inl rfl⟩)
  refine .bind .discard_expect fun _ _ _ => .bind .discard_expect fun _ _ _ => ?_
  refine .bind Storage.of_readSpace fun _ n hn => .pure ⟨hname, .inr ⟨_, rfl, ?_⟩⟩
  exact .indexTablespace hn

theorem OnDelete.of_read? : Gives OnDelete.read? fun _ => True := by
  refine .nextKind fun k _ => .secondKind fun k' => ?_
  split
  · refine .weaken (Gives.skip (Gives.skip ?_))
    refine .accept (fun _ _ _ => .pure trivial) ?_
    exact .bind .discard_expect fun _ _ _ => .bind .discard_expect fun _ _ _ => .pure trivial
  · exact .pure trivial

theorem ForeignKey.of_read {name : Option String} (hname : ∀ n ∈ name, IsName n) :
    Gives (ForeignKey.read name) ForeignKey.WellFormed := by
  refine .bind IsName.of_name fun _ table htable => .bind AreNames.of_nameList fun _ columns hcols => ?_
  refine .bind OnDelete.of_read? fun _ rule _ => ?_
  exact .accept (fun _ _ _ => .pure ⟨hname, htable, hcols⟩) (.pure ⟨hname, htable, hcols⟩)

theorem Readable.of_readExpression : Gives readExpression (Readable .condition) :=
  Derives.of_readExpression.taken.imp fun ws _ h => ⟨ws, h.2, h.1⟩

theorem Readable.of_readValue : Gives readValue fun x => Readable .value [x] :=
  Derives.of_readValue.taken.imp fun ws _ h => ⟨ws, h.2, h.1⟩

theorem Check.of_read {name : Option String} (hname : ∀ n ∈ name, IsName n) :
    Gives (Check.read name) fun c =>
      (∀ n ∈ c.name, IsName n) ∧ Readable .condition c.condition := by
  have hcondition : Gives (parenthesized readExpression) (Readable .condition) :=
    .parenthesized Readable.of_readExpression fun _ _ _ _ _ _ h => h
  exact .bind hcondition fun _ ts hts => .pure ⟨hname, hts⟩

theorem DataType.of_readPrecision? :
    Gives DataType.readPrecision? fun precision => ∀ p ∈ precision, IsPrecision p := by
  refine .accept (fun _ _ _ => ?_) (.pure nofun)
  refine .expect fun a ha hak => .accept (fun _ _ _ => ?_) ?_
  · refine .expect fun b hb hbk => .bind .discard_expect fun _ _ _ => .pure fun p hp => ?_
    cases hp
    exact .two (ha.isNumeral hak) (hb.isNumeral hbk)
  · refine .bind .discard_expect fun _ _ _ => .pure fun p hp => ?_
    cases hp
    exact .one (ha.isNumeral hak)

theorem readDefault_gives : Gives readDefault fun x => Readable .value [x] := by
  refine .accept (fun _ _ _ => ?_) Readable.of_readValue
  exact .bind Readable.of_readValue fun _ x hx => .bind .discard_expect fun _ _ _ => .pure hx

theorem Key.WellFormed.leaves {key : Key} (_ : key.WellFormed) : ∀ l ∈ key.leaves, l.Readable := by
  intro l hl
  obtain ⟨s, -, rfl⟩ := List.mem_map.mp hl
  trivial

theorem DataType.wellFormed_of_token {t : Token} (ht : t.word.Lexical) {k : Keyword}
    (hk : t.kind = .keyword k) (htype : k.isType) {precision : Option String}
    (hp : ∀ p ∈ precision, IsPrecision p) : DataType.WellFormed ⟨t.value, precision⟩ := by
  have hinline : t.word.Inline := ⟨ht, by rw [Token.word_kind, hk]; nofun⟩
  have heq : Word.ofText t.value = t.word := hinline.ofText_eq
  refine ⟨(ht.isWord (.inr ⟨k, hk⟩)).1, ⟨k, ?_, htype⟩, hp⟩
  rw [heq]
  exact hk

theorem ColumnClause.of_read : Gives ColumnClause.read fun c =>
    c.WellFormed ∧ ∀ l ∈ c.leaves, l.Readable := by
  refine .bind readConstraintName?_gives fun _ name hname => .next fun t ht _ => ?_
  split
  · exact .bind .discard_expect fun _ _ _ => .pure ⟨hname, nofun⟩
  · refine .bind (Check.of_read hname) fun _ c hc => .pure ⟨hc.1, ?_⟩
    simpa [leaves, Leaf.Readable] using hc.2
  · refine .bind .discard_expect fun _ _ _ => .bind (Key.of_read hname) fun _ key hkey => .pure ?_
    exact ⟨hkey, hkey.leaves⟩
  · exact .bind (Key.of_read hname) fun _ key hkey => .pure ⟨hkey, hkey.leaves⟩
  · refine .bind (ForeignKey.of_read hname) fun _ key hkey => .pure ⟨hkey, ?_⟩
    simp [leaves, Leaf.Readable]
  · split
    · refine .bind readDefault_gives fun _ x hx => .pure ⟨trivial, ?_⟩
      simpa [leaves, Leaf.Readable] using hx
    · exact .reject
  · rename_i word _ _ _ _ _ _ hk
    split
    · rename_i htype
      refine .bind DataType.of_readPrecision? fun _ p hp => .pure ⟨?_, ?_⟩
      · exact DataType.wellFormed_of_token ht hk htype.1 hp
      · simp [leaves, Leaf.Readable]
    · exact .reject
  · exact .reject

theorem Column.wellFormed_ofClauses {name : String} {clauses : List ColumnClause}
    (hname : IsName name) (hne : clauses ≠ []) (h : ∀ c ∈ clauses, c.WellFormed) :
    (Column.ofClauses name clauses).WellFormed := by
  have hsorted := Column.stablySorted_ofClauses name clauses
  refine ⟨hname, ?_, fun c hc => h c (hsorted.perm.mem_iff.mp hc), hsorted.sorted⟩
  intro hnil
  have hperm := hsorted.perm
  rw [hnil] at hperm
  exact hne hperm.nil_eq.symm

theorem Column.leaves_ofClauses (name : String) (clauses : List ColumnClause) (l : Leaf) :
    l ∈ (Column.ofClauses name clauses).leaves ↔ ∃ c ∈ clauses, l ∈ c.leaves := by
  simp [leaves, Column.ofClauses]

/-- A name that opens with a token of a class. -/
theorem IsName.of_name_when (c : Option TokenKind → Prop) : ConsumesWhen c Word.Lexical name
    fun _ n => IsName n ∧ c (some (Word.ofText n).kind) := by
  refine .next fun t ht hc => ?_
  split
  · rename_i hk
    refine .pure ⟨ht.isName hk, ?_⟩
    rw [show t.value = t.word.value from rfl, (Word.Inline.of_isName ht hk).ofText_eq]
    exact hc
  · exact .reject

theorem Column.of_read (c : Option TokenKind → Prop) : ConsumesWhen c Word.Lexical Column.read
    fun _ column => column.WellFormed ∧ c (some (Word.ofText column.name).kind) ∧
      column.table = "" ∧ ∀ l ∈ column.leaves, l.Readable := by
  refine .bind (IsName.of_name_when c) fun _ name hname => ?_
  refine .bind ColumnClause.of_read fun _ first hfirst => ?_
  refine .bind (P := fun _ others => ∀ clause ∈ others, clause.WellFormed ∧
    ∀ l ∈ clause.leaves, l.Readable) ?_ fun _ others hothers => .pure ?_
  · refine .repeatWhile (d := fun _ => True) (fun _ _ => trivial) ColumnClause.of_read nofun ?_
    exact fun _ _ _ _ hclause hrest => List.forall_mem_cons.mpr ⟨hclause, hrest⟩
  · have hall : ∀ clause ∈ first :: others, clause.WellFormed ∧ ∀ l ∈ clause.leaves, l.Readable :=
      List.forall_mem_cons.mpr ⟨hfirst, hothers⟩
    refine ⟨wellFormed_ofClauses hname.1 (by simp) fun c hc => (hall c hc).1, hname.2, rfl, ?_⟩
    intro l hl
    obtain ⟨clause, hclause, hl⟩ := (leaves_ofClauses _ _ l).mp hl
    exact (hall clause hclause).2 l hl

theorem TableConstraint.of_read : Gives TableConstraint.read fun c =>
    c.WellFormed ∧ ∀ l ∈ c.leaves, l.Readable := by
  refine .bind readConstraintName?_gives fun _ name hname => .next fun t ht _ => ?_
  split
  · refine .bind .discard_expect fun _ _ _ => .bind AreNames.of_nameList fun _ columns hcols => ?_
    exact .bind (Key.of_read hname) fun _ key hkey => .pure ⟨⟨hkey, hcols⟩, hkey.leaves⟩
  · refine .bind AreNames.of_nameList fun _ columns hcols => ?_
    exact .bind (Key.of_read hname) fun _ key hkey => .pure ⟨⟨hkey, hcols⟩, hkey.leaves⟩
  · refine .bind .discard_expect fun _ _ _ => .bind AreNames.of_nameList fun _ columns hcols => ?_
    refine .bind .discard_expect fun _ _ _ => .bind (ForeignKey.of_read hname) fun _ key hkey => ?_
    exact .pure ⟨⟨hkey, hcols⟩, by simp [leaves, Leaf.Readable]⟩
  · refine .bind (Check.of_read hname) fun _ c hc => .pure ⟨hc.1, ?_⟩
    simpa [leaves, Leaf.Readable] using hc.2
  · exact .reject

/-! ## Bodies -/

namespace TableElement

/-- The column that an entry is. -/
def column? : TableElement → Option Column
  | .column c => some c
  | .constraint _ => none

/-- The constraint that an entry is. -/
def constraint? : TableElement → Option TableConstraint
  | .column _ => none
  | .constraint c => some c

/-- The shape of an entry and of the leaves of what has been read. -/
def WellRead : TableElement → Prop
  | .column c => c.Listed ∧ c.table = "" ∧ ∀ l ∈ c.leaves, l.Readable
  | .constraint c => c.WellFormed ∧ ∀ l ∈ c.leaves, l.Readable

theorem of_read : Gives TableElement.read WellRead := by
  refine .nextKind fun k _ => .secondKind fun k' => ?_
  split
  · exact .weaken (.bind TableConstraint.of_read fun _ c hc => .pure hc)
  · rename_i hstart
    have hne : k ≠ some (.keyword .constraint) := by
      rintro rfl
      exact hstart rfl
    refine .bind (P := fun _ c => c.WellFormed ∧ some (Word.ofText c.name).kind = k ∧
      c.table = "" ∧ ∀ l ∈ c.leaves, l.Readable) (Column.of_read (· = k)) fun _ c hc => .pure ?_
    exact ⟨⟨hc.1, fun heq => hne (by rw [← hc.2.1, heq])⟩, hc.2.2⟩

/-- The entries of a table added to it, the columns apart from the constraints. -/
theorem foldl_addTo (elements : List TableElement) (t : Table) :
    elements.foldl addTo t = { t with
      columns := t.columns ++ (elements.filterMap column?).map fun c => { c with table := t.name }
      constraints := t.constraints ++ elements.filterMap constraint? } := by
  induction elements generalizing t with
  | nil => simp
  | cons e es ih =>
    rw [List.foldl_cons, ih]
    cases e <;>
      simp [addTo, Table.addColumn, Table.addConstraint, List.filterMap_cons, column?, constraint?]

end TableElement

theorem Column.Listed.rename {c : Column} (h : c.Listed) (name : String) :
    { c with table := name : Column }.Listed :=
  ⟨⟨h.name, h.ne_nil, h.clauses, h.sorted⟩, h.name_ne⟩

/-- **A table that has been read is well-formed, and its values are readable.** -/
theorem Table.of_read (isGlobal temporary : Bool) (htemp : isGlobal → temporary) :
    Gives (Table.read isGlobal temporary) fun t => t.WellFormed ∧ ∀ l ∈ t.leaves, l.Readable := by
  refine .bind IsName.of_name fun _ name hname => ?_
  refine .bind (P := fun _ es => es ≠ [] ∧ ∀ e ∈ es, e.WellRead) ?_ fun _ es hes => ?_
  · refine .parenthesized (P := fun _ es => es ≠ [] ∧ ∀ e ∈ es, e.WellRead) ?_
      fun _ _ _ _ _ _ h => h
    refine .commaSeparated TableElement.of_read ?_ ?_
    · exact fun _ e he => ⟨by simp, by simpa using he⟩
    · exact fun _ e _ _ es he _ _ hes => ⟨by simp, List.forall_mem_cons.mpr ⟨he, hes.2⟩⟩
  refine .bind Storage.of_readTableOptions fun _ storage hstorage => ?_
  refine .bind .discard_expect fun _ _ _ => .pure ?_
  rw [TableElement.foldl_addTo]
  have hcolumn : ∀ c ∈ es.filterMap TableElement.column?, c.Listed ∧ ∀ l ∈ c.leaves, l.Readable := by
    intro c hc
    obtain ⟨e, he, heq⟩ := List.mem_filterMap.mp hc
    cases e <;> cases heq
    exact ⟨(hes.2 _ he).1, (hes.2 _ he).2.2⟩
  have hconstraint : ∀ c ∈ es.filterMap TableElement.constraint?,
      c.WellFormed ∧ ∀ l ∈ c.leaves, l.Readable := by
    intro c hc
    obtain ⟨e, he, heq⟩ := List.mem_filterMap.mp hc
    cases e <;> cases heq
    exact hes.2 _ he
  refine ⟨⟨hname, htemp, ?_, fun c hc => (hconstraint c hc).1, ?_, hstorage⟩, ?_⟩
  · intro c hc
    obtain ⟨c', hc', rfl⟩ := List.mem_map.mp hc
    exact ⟨(hcolumn c' hc').1.rename name, rfl⟩
  · cases es with
    | nil => exact absurd rfl hes.1
    | cons e es =>
      cases e with
      | column c => exact .inl (by simp [TableElement.column?])
      | constraint c => exact .inr (by simp [TableElement.constraint?])
  · intro l hl
    simp only [leaves, List.nil_append, List.mem_append, List.mem_flatMap, List.mem_map] at hl
    rcases hl with (⟨_, ⟨c, hc, rfl⟩, hl⟩ | ⟨c, hc, hl⟩) | ⟨s, -, rfl⟩
    · exact (hcolumn c hc).2 l hl
    · exact (hconstraint c hc).2 l hl
    · trivial

end SchemaScript
