import Mathlib.Data.List.TakeDrop
import SchemaScript.Proofs.Table.WellFormed
import SchemaScript.Script.Read

/-!
# Well-formed scripts

The shape of every script that is read from a text.

* `Statement.WellFormed` — the shape of a statement, given that of its parts.
* `Statement.of_read` — a statement that has been read is well-formed, and its values are readable.
* `Script.of_parse` — so are the statements of a script that a text holds.
-/

set_option autoImplicit false

namespace SchemaScript

open Reader

/-! ## Shapes -/

/-- The shape of an index. -/
structure Index.WellFormed (i : Index) : Prop where
  name : IsName i.name
  table : IsName i.table
  columns : AreNames i.columns
  storage : ∀ s ∈ i.storage, s.OfIndex

/-- The shape of an option of a sequence. -/
def SequenceOption.WellFormed : SequenceOption → Prop
  | .startWith v => Scan.isNumeral v.toList
  | .order => True

/-- The shape of a sequence. -/
structure Sequence.WellFormed (s : Sequence) : Prop where
  name : IsName s.name
  options : ∀ option ∈ s.options, option.WellFormed

/-- The shape of a synonym. -/
structure Synonym.WellFormed (s : Synonym) : Prop where
  name : IsName s.name
  target : ∀ n ∈ s.target, IsName n

/-- The shape of a new name. -/
def Rename.WellFormed : Rename → Prop
  | .table newName => IsName newName
  | .column name newName => IsName name ∧ IsName newName

/-- The shape of what is added to a table. -/
def Addition.WellFormed : Addition → Prop
  | .column c => c.Listed ∧ c.table = ""
  | .constraint c => c.WellFormed
  | .storage s => s.OfTable

/-- The shape of the actions of a change: some additions, one drop, one new name, some columns that
are defined anew, or some options. -/
inductive AlterTable.Actions : List Addition → List Modification → List Drop → Prop
  | adds {adds : List Addition} (ne_nil : adds ≠ []) (h : ∀ a ∈ adds, a.WellFormed) :
      Actions adds [] []
  | drop {d : Drop} (h : IsName d.name) : Actions [] [] [d]
  | rename {r : Rename} (h : r.WellFormed) : Actions [] [.rename r] []
  | modify {columns : List Column} (ne_nil : columns ≠ [])
      (h : ∀ c ∈ columns, c.WellFormed ∧ c.table = "") : Actions [] [.modify columns] []
  | storage {options : List Storage} (ne_nil : options ≠ []) (h : ∀ s ∈ options, s.OfTable) :
      Actions [] (options.map .storage) []

/-- The shape of a change to a table. -/
structure AlterTable.WellFormed (a : AlterTable) : Prop where
  table : IsName a.table
  actions : Actions a.adds a.mods a.drops

/-- The shape of a change to an index. -/
structure AlterIndex.WellFormed (a : AlterIndex) : Prop where
  index : IsName a.index
  ne_nil : a.storage ≠ []
  storage : ∀ s ∈ a.storage, s.OfIndex

/-- The shape of a comment: a name with a dot is that of a column. -/
def Comment.WellFormed : Comment → Prop
  | .table name _ => IsName name ∧ '.' ∉ name.toList
  | .column owner part _ => IsName (owner ++ "." ++ part) ∧ '.' ∉ owner.toList

/-- The shape of a new row. -/
structure Insert.WellFormed (i : Insert) : Prop where
  table : IsName i.table
  columns : i.columns = [] ∨ AreNames i.columns
  ne_nil : i.values ≠ []

/-- The shape of a statement. -/
def Statement.WellFormed : Statement → Prop
  | .table t => t.WellFormed
  | .index i => i.WellFormed
  | .sequence s => s.WellFormed
  | .synonym s => s.WellFormed
  | .alterTable a => a.WellFormed
  | .alterIndex a => a.WellFormed
  | .drop d => IsName d.name
  | .comment c => c.WellFormed
  | .insert i => i.WellFormed
  | .commit => True
  | .inclusion path => Word.Lexical ⟨.inclusion, path⟩

/-! ## What the rules give -/

theorem Index.of_read (unique : Bool) : Gives (Index.read unique) Index.WellFormed := by
  refine .bind IsName.of_name fun _ name hname => .bind .discard_expect fun _ _ _ => ?_
  refine .bind IsName.of_name fun _ table htable => .bind AreNames.of_nameList fun _ columns hcols => ?_
  refine .bind Storage.of_readIndexOptions fun _ storage hstorage => ?_
  exact .bind .discard_expect fun _ _ _ => .pure ⟨hname, htable, hcols, hstorage⟩

theorem SequenceOption.of_read : Gives SequenceOption.read SequenceOption.WellFormed := by
  refine .accept (fun _ _ _ => ?_) (.bind .discard_expect fun _ _ _ => .pure trivial)
  refine .bind .discard_expect fun _ _ _ => .expect fun t ht hk => .pure ?_
  exact ht.isNumeral hk

theorem Sequence.of_read : Gives Sequence.read Sequence.WellFormed := by
  refine .bind IsName.of_name fun _ name hname => ?_
  refine .bind (P := fun _ options => ∀ option ∈ options, option.WellFormed) ?_
    fun _ options hoptions => .bind .discard_expect fun _ _ _ => .pure ⟨hname, hoptions⟩
  refine .repeatWhile (d := fun _ => True) (fun _ _ => trivial) SequenceOption.of_read nofun ?_
  exact fun _ _ _ _ hoption hrest => List.forall_mem_cons.mpr ⟨hoption, hrest⟩

theorem Synonym.of_read : Gives Synonym.read Synonym.WellFormed := by
  refine .bind IsName.of_name fun _ name hname => ?_
  have hrest : ∀ (ws : List Word) (target : Option String), (∀ n ∈ target, IsName n) →
      Gives (do readTerminator; return { name, target }) Synonym.WellFormed :=
    fun _ target htarget => .bind .discard_expect fun _ _ _ => .pure ⟨hname, htarget⟩
  refine .accept (fun _ _ _ => .bind (.map (IsName.of_name.imp ?_)) hrest) (.bind (.pure nofun) hrest)
  exact fun _ n hn m hm => Option.some.inj hm ▸ hn

theorem readCreated_gives : Gives readCreated fun s => s.WellFormed ∧ ∀ l ∈ s.leaves, l.Readable := by
  have hstorage : ∀ options : List Storage, ∀ l ∈ options.map Leaf.storage, l.Readable := by
    intro options l hl
    obtain ⟨s, -, rfl⟩ := List.mem_map.mp hl
    trivial
  refine .next fun t _ _ => ?_
  split
  · refine .bind .discard_accept fun _ _ _ => .bind .discard_expect fun _ _ _ => ?_
    exact .bind (Table.of_read true true fun _ => rfl) fun _ t ht => .pure ht
  · refine .bind .discard_expect fun _ _ _ => ?_
    exact .bind (Table.of_read false true nofun) fun _ t ht => .pure ht
  · exact .bind (Table.of_read false false nofun) fun _ t ht => .pure ht
  · refine .bind .discard_expect fun _ _ _ => ?_
    exact .bind (Index.of_read true) fun _ i hi => .pure ⟨hi, hstorage _⟩
  · exact .bind (Index.of_read false) fun _ i hi => .pure ⟨hi, hstorage _⟩
  · refine .bind Sequence.of_read fun _ s hs => .pure ⟨hs, fun l hl => ?_⟩
    obtain ⟨option, -, rfl⟩ := List.mem_map.mp hl
    trivial
  · refine .bind Synonym.of_read fun _ s hs => .pure ⟨hs, ?_⟩
    simp [Statement.leaves, Leaf.Readable]
  · exact .reject

/-! ### Changes -/

theorem Drop.of_read : Gives Drop.read fun d => IsName d.name ∧ ∀ l ∈ d.leaves, l.Readable := by
  have hrest : ∀ (ws : List Word) (object : DropObject), True →
      Gives (do return { object, name := ← Reader.name })
        fun d : Drop => IsName d.name ∧ ∀ l ∈ d.leaves, l.Readable := by
    refine fun _ object _ => .bind IsName.of_name fun _ name hname => .pure ⟨hname, ?_⟩
    unfold Drop.leaves
    split <;> simp [Leaf.Readable]
  refine .next fun t _ _ => ?_
  split
  all_goals first
    | exact .bind (P := fun _ _ => True) .reject hrest
    | exact .bind (P := fun _ _ => True) (.pure trivial) hrest

namespace Addition

theorem of_readOne : Gives readOne fun a => a.WellFormed ∧ ∀ l ∈ a.leaves, l.Readable := by
  refine .nextKind fun k _ => .secondKind fun k' => ?_
  split
  · refine .weaken (Gives.skip (.bind TableElement.of_read fun _ e he => ?_))
    cases e with
    | column c => exact .pure ⟨⟨he.1, he.2.1⟩, he.2.2⟩
    | constraint c => exact .pure he
  · refine .weaken (.bind TableElement.of_read fun _ e he => ?_)
    cases e with
    | column c => exact .pure ⟨⟨he.1, he.2.1⟩, he.2.2⟩
    | constraint c => exact .pure he

/-- What is known of some additions that have been read. -/
def WellRead (adds : List Addition) : Prop :=
  adds ≠ [] ∧ ∀ a ∈ adds, a.WellFormed ∧ ∀ l ∈ a.leaves, l.Readable

theorem of_readTableOptions (ts : List Token) (adds : List Addition) (rest : List Token)
    (hL : ∀ t ∈ ts, t.word.Lexical) (hstart : Storage.startsTableOption ts = true)
    (hrun : (List.map Addition.storage <$> Storage.readTableOptions) ts = .ok (adds, rest)) :
    ∃ taken, ts = taken ++ rest ∧ WellRead adds := by
  obtain ⟨options, mid, hoptions, hpure⟩ :=
    (bind_eq_ok (f := fun options => pure (List.map Addition.storage options))).mp hrun
  obtain ⟨rfl, rfl⟩ := Prod.mk.inj (Except.ok.inj hpure)
  obtain ⟨taken, rfl, hmem⟩ := Storage.of_readTableOptions ts options mid hL trivial hoptions
  have hne : options ≠ [] := ConsumesWhen.repeatWhile_ne_nil hstart hoptions
  refine ⟨taken, rfl, by simpa using hne, fun a ha => ?_⟩
  obtain ⟨s, hs, rfl⟩ := List.mem_map.mp ha
  exact ⟨hmem s hs, by simp [leaves, Leaf.Readable]⟩

theorem of_readAll : Gives readAll WellRead := by
  have hmany : Gives (commaSeparated readOne) WellRead := by
    refine .commaSeparated of_readOne ?_ ?_
    · exact fun _ a ha => ⟨by simp, by simpa using ha⟩
    · exact fun _ a _ _ as ha _ _ has => ⟨by simp, List.forall_mem_cons.mpr ⟨ha, has.2⟩⟩
  have hone : Gives (List.singleton <$> readOne) WellRead :=
    .map (of_readOne.imp fun _ a ha => ⟨by simp [List.singleton], by simpa [List.singleton] using ha⟩)
  have hclose : ∀ (ws : List Word) (adds : List Addition), WellRead adds →
      Gives (do discard (expect .rparen); return adds) WellRead :=
    fun _ adds hadds => .bind .discard_expect fun _ _ _ => .pure hadds
  refine .accept (fun _ _ _ => ?_) ?_
  · exact .choice (P := fun _ => WellRead) of_readTableOptions hclose (.bind hmany hclose)
  · refine .choice (P := fun _ => WellRead) of_readTableOptions ?_ (.bind hone ?_)
    all_goals exact fun _ adds hadds => .pure hadds

end Addition

theorem Rename.of_read : Gives Rename.read Rename.WellFormed := by
  refine .accept (fun _ _ _ => ?_) ?_
  · refine .bind IsName.of_name fun _ name hname => .bind .discard_expect fun _ _ _ => ?_
    exact .bind IsName.of_name fun _ newName hnew => .pure ⟨hname, hnew⟩
  · refine .bind .discard_expect fun _ _ _ => ?_
    exact .bind IsName.of_name fun _ newName hnew => .pure hnew

theorem readModifiedColumns_gives : Gives readModifiedColumns fun columns => columns ≠ [] ∧
    ∀ c ∈ columns, (c.WellFormed ∧ c.table = "") ∧ ∀ l ∈ c.leaves, l.Readable := by
  have hcolumn : Gives Column.read fun c =>
      (c.WellFormed ∧ c.table = "") ∧ ∀ l ∈ c.leaves, l.Readable :=
    (Column.of_read _).imp fun _ c hc => ⟨⟨hc.1, hc.2.2.1⟩, hc.2.2.2⟩
  refine .accept (fun _ _ _ => ?_) (.bind hcolumn fun _ c hc => .pure ⟨by simp, by simpa using hc⟩)
  refine .bind (.commaSeparated hcolumn ?_ ?_) fun _ columns hcolumns =>
    .bind .discard_expect fun _ _ _ => .pure hcolumns
  · exact fun _ c hc => ⟨by simp, by simpa using hc⟩
  · exact fun _ c _ _ cs hc _ _ hcs => ⟨by simp, List.forall_mem_cons.mpr ⟨hc, hcs.2⟩⟩

namespace AlterTable

theorem of_readChange {table : String} (htable : IsName table) : Gives (readChange table)
    fun a => a.WellFormed ∧ ∀ l ∈ a.leaves, l.Readable := by
  refine .accept (fun _ _ _ => ?_) ?_
  · refine .bind Addition.of_readAll fun _ first hfirst => ?_
    refine .bind (P := fun _ others => ∀ adds ∈ others, Addition.WellRead adds) ?_
      fun _ others hothers => .pure ?_
    · refine .repeatWhile (d := fun _ => True) (fun _ _ => trivial)
        (Gives.skip (Gives.skip Addition.of_readAll)) nofun ?_
      exact fun _ _ _ _ hadds hrest => List.forall_mem_cons.mpr ⟨hadds, hrest⟩
    · have hall : ∀ a ∈ first ++ others.flatten, a.WellFormed ∧ ∀ l ∈ a.leaves, l.Readable := by
        refine List.forall_mem_append.mpr ⟨hfirst.2, fun a ha => ?_⟩
        obtain ⟨adds, hadds, ha⟩ := List.mem_flatten.mp ha
        exact (hothers adds hadds).2 a ha
      refine ⟨⟨htable, .adds (by simp [hfirst.1]) fun a ha => (hall a ha).1⟩, fun l hl => ?_⟩
      simp only [leaves, List.flatMap_nil, List.append_nil] at hl
      obtain ⟨a, ha, hl⟩ := List.mem_flatMap.mp hl
      exact (hall a ha).2 l hl
  · refine .accept (fun _ _ _ => ?_) (.accept (fun _ _ _ => ?_) (.accept (fun _ _ _ => ?_) ?_))
    · refine .bind Drop.of_read fun _ d hd => .pure ⟨⟨htable, .drop hd.1⟩, ?_⟩
      simpa [leaves] using hd.2
    · refine .bind Rename.of_read fun _ r hr => .pure ⟨⟨htable, .rename hr⟩, ?_⟩
      simp [leaves, Modification.leaves]
    · refine .bind readModifiedColumns_gives fun _ columns hcolumns => .pure ⟨⟨htable, ?_⟩, ?_⟩
      · exact .modify hcolumns.1 fun c hc => (hcolumns.2 c hc).1
      · intro l hl
        simp only [leaves, List.flatMap_nil, List.append_nil, Modification.leaves, List.nil_append,
          List.flatMap_cons] at hl
        obtain ⟨c, hc, hl⟩ := List.mem_flatMap.mp hl
        exact (hcolumns.2 c hc).2 l hl
    · refine .bind Storage.of_readTableOptions fun _ options hoptions => ?_
      split
      · exact .next fun _ _ _ => .reject
      · rename_i hne
        refine .pure ⟨⟨htable, .storage (by simpa using hne) hoptions⟩, ?_⟩
        simp only [leaves, List.flatMap_nil, List.append_nil, List.nil_append, List.mem_flatMap]
        rintro l ⟨m, hm, hl⟩
        obtain ⟨s, -, rfl⟩ := List.mem_map.mp hm
        rw [Modification.leaves, List.mem_singleton] at hl
        subst hl
        trivial

theorem of_read : Gives AlterTable.read fun a => a.WellFormed ∧ ∀ l ∈ a.leaves, l.Readable := by
  refine .bind IsName.of_name fun _ table htable => .bind (of_readChange htable) fun _ a ha => ?_
  exact .bind .discard_expect fun _ _ _ => .pure ha

end AlterTable

theorem AlterIndex.of_read : Gives AlterIndex.read AlterIndex.WellFormed := by
  refine .bind IsName.of_name fun _ index hindex => ?_
  refine .bind Storage.of_readIndexOptions fun _ storage hstorage => ?_
  split
  · exact .next fun _ _ _ => .bind (P := fun _ _ => False) .reject fun _ _ h => h.elim
  · rename_i hne
    exact .bind .discard_expect fun _ _ _ => .pure ⟨hindex, by simpa using hne, hstorage⟩

/-! ### Comments and rows -/

/-- The two parts of a text at the first character that fails a test. -/
theorem span_eq_append {p : Char → Bool} {xs as bs : List Char} (h : xs.span p = (as, bs)) :
    xs = as ++ bs ∧ (∀ a ∈ as, p a) ∧ ∀ b ∈ bs.head?, p b = false := by
  rw [List.span_eq_takeWhile_dropWhile] at h
  obtain ⟨rfl, rfl⟩ := Prod.mk.inj h
  refine ⟨List.takeWhile_append_dropWhile.symm, fun a ha => ?_, Text.head?_dropWhile_false⟩
  exact List.all_eq_true.mp List.all_takeWhile a ha

theorem Comment.wellFormed_on {target : String} (h : IsName target) (text : String) :
    (Comment.on target text).WellFormed := by
  unfold Comment.on
  split
  · rename_i owner dot part hspan
    obtain ⟨happend, howner, hdot⟩ := span_eq_append hspan
    have hdot : dot = '.' := by simpa using hdot dot rfl
    have hname : String.ofList owner ++ "." ++ String.ofList part = target := by
      rw [← String.toList_inj, happend, hdot]
      simp
    refine ⟨hname ▸ h, fun hmem => ?_⟩
    rw [String.toList_ofList] at hmem
    simpa using howner _ hmem
  · rename_i owner hspan
    obtain ⟨happend, howner, -⟩ := span_eq_append hspan
    refine ⟨h, fun hmem => ?_⟩
    rw [happend, List.append_nil] at hmem
    simpa using howner _ hmem

theorem readString_gives : Gives readString fun _ => True := by
  refine .next fun t _ _ => ?_
  split
  · exact .pure trivial
  · exact .pure trivial
  · exact .reject

theorem Comment.of_read : Gives Comment.read Comment.WellFormed := by
  refine .bind .discard_expect fun _ _ _ => .next fun t _ _ => ?_
  split
  · exact .bind (P := fun _ _ => False) .reject fun _ _ h => h.elim
  · refine .bind IsName.of_name fun _ target htarget => .bind .discard_expect fun _ _ _ => ?_
    refine .bind readString_gives fun _ text _ => .bind .discard_expect fun _ _ _ => .pure ?_
    exact wellFormed_on htarget text

theorem Comment.leaves_readable (c : Comment) : ∀ l ∈ c.leaves, l.Readable := by
  cases c <;> simp [leaves, Leaf.Readable]

theorem Insert.of_read : Gives Insert.read fun i => i.WellFormed ∧
    ∀ x ∈ i.values, Readable .value [x] := by
  refine .bind .discard_expect fun _ _ _ => .bind IsName.of_name fun _ table htable => ?_
  have hrest : ∀ (ws : List Word) (columns : List String), columns = [] ∨ AreNames columns →
      Gives (do
        discard (expectWord .values)
        let values ← parenthesized (commaSeparated readValue)
        readTerminator
        return { table, columns, values })
      fun i : Insert => i.WellFormed ∧ ∀ x ∈ i.values, Readable .value [x] := by
    refine fun _ columns hcols => .bind .discard_expect fun _ _ _ => ?_
    refine .bind (P := fun _ values => values ≠ [] ∧ ∀ x ∈ values, Readable .value [x])
      (.parenthesized (.commaSeparated Readable.of_readValue ?_ ?_) fun _ _ _ _ _ _ h => h)
      fun _ values hvalues => .bind .discard_expect fun _ _ _ =>
        .pure ⟨⟨htable, hcols, hvalues.1⟩, hvalues.2⟩
    · exact fun _ x hx => ⟨by simp, by simpa using hx⟩
    · exact fun _ x _ _ xs hx _ _ hxs => ⟨by simp, List.forall_mem_cons.mpr ⟨hx, hxs.2⟩⟩
  refine .nextKind fun k _ => ?_
  split
  · exact .weaken (.bind (AreNames.of_nameList.imp fun _ _ h => .inr h) hrest)
  · exact .weaken (.bind (.pure (.inl rfl)) hrest)

/-! ## Statements and scripts -/

/-- **A statement that has been read is well-formed, and its values are readable.** -/
theorem Statement.of_read : Gives Statement.read fun s =>
    s.WellFormed ∧ ∀ l ∈ s.leaves, l.Readable := by
  refine .next fun t ht _ => ?_
  split
  · rename_i hk
    refine .pure ⟨?_, nofun⟩
    have hword : t.word = ⟨.inclusion, t.value⟩ := congrArg (Word.mk · t.value) hk
    rwa [hword] at ht
  · refine .accept (fun _ _ _ => ?_) readCreated_gives
    exact .bind .discard_expect fun _ _ _ => readCreated_gives
  · refine .accept (fun _ _ _ => ?_) ?_
    · refine .bind AlterIndex.of_read fun _ a ha => .pure ⟨ha, fun l hl => ?_⟩
      obtain ⟨s, -, rfl⟩ := List.mem_map.mp hl
      trivial
    · refine .bind .discard_expect fun _ _ _ => ?_
      exact .bind AlterTable.of_read fun _ a ha => .pure ha
  · refine .bind Drop.of_read fun _ d hd => .bind .discard_expect fun _ _ _ => .pure hd
  · exact .bind Comment.of_read fun _ c hc => .pure ⟨hc, c.leaves_readable⟩
  · refine .bind Insert.of_read fun _ i hi => .pure ⟨hi.1, fun l hl => ?_⟩
    obtain ⟨x, hx, rfl⟩ := List.mem_map.mp hl
    exact hi.2 x hx
  · exact .bind .discard_expect fun _ _ _ => .pure ⟨trivial, nofun⟩
  · exact .reject

/-- The script of a text is read from its words. -/
theorem Script.parse_eq_ok {text : String} {s : Script} : Script.parse text = .ok s ↔
    ∃ rest, readStatements (tokenize text).1 = .ok (s.statements, rest) := by
  have hparse : Script.parse text =
      match readStatements (tokenize text).1 with
      | .ok (statements, _) => .ok ⟨statements⟩
      | .error fault => .error (.ofFault text fault) := by
    unfold Script.parse Script.parseNoting Script.ofTokens
    simp only [StateT.run]
    cases readStatements (tokenize text).1 <;> rfl
  rw [hparse]
  cases readStatements (tokenize text).1 with
  | error fault => simp
  | ok result =>
    obtain ⟨statements, rest⟩ := result
    obtain ⟨statements'⟩ := s
    simp

/-- **The statements of a script that a text holds are well-formed, and their values are
readable.** -/
theorem Script.of_parse {text : String} {s : Script} (h : Script.parse text = .ok s) :
    ∀ st ∈ s.statements, st.WellFormed ∧ ∀ l ∈ st.leaves, l.Readable := by
  obtain ⟨rest, hrun⟩ := Script.parse_eq_ok.mp h
  have hstatements : Gives readStatements fun statements =>
      ∀ st ∈ statements, st.WellFormed ∧ ∀ l ∈ st.leaves, l.Readable := by
    refine .repeatWhile (d := fun _ => True) (fun _ _ => trivial) Statement.of_read nofun ?_
    exact fun _ _ _ _ hst hrest => List.forall_mem_cons.mpr ⟨hst, hrest⟩
  have hlexical : ∀ t ∈ (tokenize text).1, t.word.Lexical := by
    intro t ht
    have hmem : t.word ∈ Scan.words text.toList := List.mem_map_of_mem ht
    exact Scan.lexical_of_mem_words hmem
  obtain ⟨-, -, hall⟩ := hstatements _ _ rest hlexical trivial hrun
  exact hall

end SchemaScript
