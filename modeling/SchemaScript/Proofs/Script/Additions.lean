import SchemaScript.Proofs.Script.Segments
import SchemaScript.Proofs.Statement.Reading

/-!
# Columns that are added to a table

A column behind the word `ADD` can be written in three ways, and each has names that it does not
take.

* `ColumnClause.readAll` — the clauses of a column, which read the same in the body of a table and
  at the end of a change.
* `ColumnClause.runsTo_of_created` — the clauses that a table has for its only column are read in
  other places as well.
* `Addition.Form`, `Addition.Form.takes` — the ways to write a column, and the names that each
  takes.
* `Script.parse_added_column_iff` — the column is added just if its name is one of those.
-/

set_option autoImplicit false

namespace SchemaScript

open Reader
open Context (firstKind)

/-! ## The clauses of a column -/

/-- The clauses of a column, one or more. -/
def ColumnClause.readAll : Reader (List ColumnClause) := do
  let first ← ColumnClause.read
  let others ← repeatWhile (fun ts => ts.head?.any (·.kind.startsColumnClause)) ColumnClause.read
  return first :: others

theorem Column.read_eq : Column.read = do
    let name ← Reader.name
    let clauses ← ColumnClause.readAll
    return Column.ofClauses name clauses := by
  simp only [Column.read, ColumnClause.readAll, bind_assoc, pure_bind]

theorem ColumnClause.stays_readAll {m n : Nat} : Stays m n .inside readAll readAll :=
  .bind ColumnClause.stays_read fun _ =>
    .bind (.repeatHead _ ⟨rfl, rfl, rfl⟩ (.weaken ColumnClause.stays_read)) fun _ => .pure _

/-- A clause opens with one of the words that open clauses. -/
theorem ColumnClause.firstKind_of_read {ts rest : List Token} {clause : ColumnClause}
    (h : ColumnClause.read ts = .ok (clause, rest)) :
    (firstKind ts).any TokenKind.startsColumnClause := by
  cases ts with
  | nil => cases h
  | cons t ts =>
    refine Decidable.byContradiction fun hstarts => ?_
    have hrefused : ColumnClause.read (t :: ts) = .error (.unexpected t) := by
      obtain ⟨kind, value, line, offset⟩ := t
      cases kind with
      | keyword word => cases word <;> first | rfl | exact absurd rfl hstarts
      | _ => rfl
    rw [hrefused] at h
    cases h

theorem Reader.name_eq_ok {ts rest : List Token} {name : String}
    (h : Reader.name ts = .ok (name, rest)) :
    ∃ t, ts = t :: rest ∧ t.kind.isName ∧ t.value = name := by
  have hconsumes : Consumes (fun _ => True) Reader.name _ := ConsumesWhen.name
  obtain ⟨taken, rfl, w, htaken, -, hname, hvalue⟩ :=
    hconsumes ts name rest (fun _ _ => trivial) trivial h
  obtain ⟨t, rfl, rfl⟩ := List.map_eq_singleton_iff.mp htaken
  exact ⟨t, rfl, hname, hvalue⟩

section Created

variable {n y : Word} {m : List Word} {c : Column}

theorem repeatWhile_eq_nil {α : Type} {more : List Token → Bool} {item : Reader α}
    {ts rest : List Token} (h : repeatWhile more item ts = .ok ([], rest)) : rest = ts := by
  cases hmore : more ts with
  | true => exact absurd rfl (ConsumesWhen.repeatWhile_ne_nil hmore h)
  | false =>
    rw [repeatWhile_stop hmore] at h
    cases h
    rfl

/-- Entries of a table that are one column and no constraint. -/
theorem TableElement.eq_singleton {elements : List TableElement}
    (hcolumns : elements.filterMap column? = [c])
    (hconstraints : elements.filterMap constraint? = []) : elements = [.column c] := by
  have hnil : ∀ es : List TableElement, es.filterMap column? = [] →
      es.filterMap constraint? = [] → es = [] := by
    intro es hcolumns hconstraints
    cases es with
    | nil => rfl
    | cons e es =>
      cases e with
      | column c => cases hcolumns
      | constraint c => cases hconstraints
  cases elements with
  | nil => cases hcolumns
  | cons e es =>
    cases e with
    | column c' =>
      obtain ⟨rfl, hes⟩ := List.cons.inj hcolumns
      rw [hnil es hes hconstraints]
    | constraint c' => cases hconstraints

/-- A column is read from a name and the clauses behind it. -/
theorem Column.read_eq_ok {ts rest : List Token} (h : Column.read ts = .ok (c, rest)) :
    ∃ t us clauses, ts = t :: us ∧ ColumnClause.readAll us = .ok (clauses, rest) ∧
      c = Column.ofClauses t.value clauses := by
  rw [Column.read_eq] at h
  obtain ⟨name, us, hname, h⟩ := bind_eq_ok.mp h
  obtain ⟨clauses, rest', hclauses, h⟩ := bind_eq_ok.mp h
  cases h
  obtain ⟨t, rfl, -, rfl⟩ := Reader.name_eq_ok hname
  exact ⟨t, us, clauses, rfl, hclauses, rfl⟩

theorem TableElement.read_apply (ts : List Token) : TableElement.read ts =
    (if startsConstraint (firstKind ts) (firstKind ts.tail) then
      (do return .constraint (← TableConstraint.read)) else
      (do return .column (← Column.read)) : Reader TableElement) ts := rfl

theorem TableElement.read_eq_column {ts rest : List Token}
    (h : TableElement.read ts = .ok (.column c, rest)) : Column.read ts = .ok (c, rest) := by
  rw [TableElement.read_apply] at h
  split at h
  · obtain ⟨constraint, mid, -, h⟩ := bind_eq_ok.mp h
    cases h
  · obtain ⟨column, mid, hcolumn, h⟩ := bind_eq_ok.mp h
    cases h
    exact hcolumn

/-- A table that has a column and nothing else is read from its name and, in parentheses, the
column. -/
theorem Table.read_eq_column {isGlobal temporary : Bool} {name : String} {ts rest : List Token}
    (h : Table.read isGlobal temporary ts = .ok ({ name, columns := [c] }, rest)) :
    ∃ t u us p s, ts = t :: u :: us ∧ t.kind.isName ∧ p.kind = .rparen ∧ s.kind = .semicolon ∧
      Column.read us = .ok ({ c with table := "" }, p :: s :: rest) := by
  obtain ⟨name', ts₁, hname, h⟩ := bind_eq_ok.mp h
  obtain ⟨elements, ts₂, hbody, h⟩ := bind_eq_ok.mp h
  obtain ⟨storage, ts₃, hstorage, h⟩ := bind_eq_ok.mp h
  obtain ⟨_, ts₄, hend, h⟩ := bind_eq_ok.mp h
  obtain ⟨htable, rfl⟩ := Prod.mk.inj (Except.ok.inj h)
  rw [TableElement.foldl_addTo] at htable
  obtain ⟨rfl, rfl, rfl, hcolumns, hconstraints, rfl⟩ := Table.mk.inj htable
  -- there are no options, so that the semicolon follows the parenthesis
  obtain rfl := repeatWhile_eq_nil hstorage
  obtain ⟨s, hs, rfl⟩ := discard_expect_eq_ok.mp hend
  -- there is one entry, so that the parenthesis follows it
  obtain ⟨_, ts₁', hopen, hbody⟩ := bind_eq_ok.mp hbody
  obtain ⟨_, ts₁'', hlist, hbody⟩ := bind_eq_ok.mp hbody
  obtain ⟨_, ts₂', hclose, hbody⟩ := bind_eq_ok.mp hbody
  cases hbody
  obtain ⟨u, -, rfl⟩ := discard_expect_eq_ok.mp hopen
  obtain ⟨p, hp, rfl⟩ := discard_expect_eq_ok.mp hclose
  obtain ⟨first, mid, hfirst, hlist⟩ := bind_eq_ok.mp hlist
  obtain ⟨others, mid', hothers, hlist⟩ := bind_eq_ok.mp hlist
  cases hlist
  obtain ⟨c₀, hc₀, rfl⟩ := List.map_eq_singleton_iff.mp hcolumns
  obtain ⟨rfl, rfl⟩ := List.cons.inj (TableElement.eq_singleton hc₀ hconstraints)
  obtain rfl := repeatWhile_eq_nil hothers
  have hread := TableElement.read_eq_column hfirst
  have htable : c₀.table = "" := by
    obtain ⟨_, _, _, -, -, rfl⟩ := Column.read_eq_ok hread
    rfl
  obtain ⟨t, rfl, hname, -⟩ := Reader.name_eq_ok hname
  refine ⟨t, u, ts₁', p, s, rfl, hname, hp, hs, ?_⟩
  rw [hread, ← htable]

theorem Statement.read_create_table {t u : Token} (ht : t.kind = .keyword .create)
    (hu : u.kind = .keyword .table) (ts : List Token) : Statement.read (t :: u :: ts) =
      (Table.read false false >>= fun table => pure (.table table)) ts := by
  obtain ⟨kind, value, line, offset⟩ := t
  obtain ⟨kind', value', line', offset'⟩ := u
  cases ht
  cases hu
  rfl

/-- What may stand behind the clauses of a column in the place of `)` and a semicolon. -/
inductive ColumnClause.Closing : List Word → Prop
  | semicolon : Closing [Word.semicolon]
  | rparen : Closing [Word.rparen, Word.semicolon]

theorem ColumnClause.Closing.alike {vs : List Word} (h : Closing vs) {p s : Token}
    (hp : p.word = .rparen) (hs : s.word = .semicolon) {rest : List Token}
    (hrest : rest.map Token.word = vs) : Alike [p, s] rest := by
  cases h with
  | semicolon =>
    obtain ⟨s', rfl, hs'⟩ := List.map_eq_singleton_iff.mp hrest
    have hends : s'.kind.endsStatement := by
      rw [← Token.word_kind, hs']
      rfl
    exact .stop (.inr (congrArg (some <| Word.kind ·) hp)) (ends_cons hends)
  | rparen =>
    obtain ⟨p', rest, rfl, hp', hrest⟩ := List.map_eq_cons_iff.mp hrest
    obtain ⟨s', rfl, hs'⟩ := List.map_eq_singleton_iff.mp hrest
    exact .cons (hp'.trans hp.symm) (.cons (hs'.trans hs.symm) (.stop (.inl rfl) rfl))

/-- Clauses that end in front of `)` and a semicolon are read the same where other words close them.
-/
theorem ColumnClause.runsTo_of_readAll {us : List Token} {p s : Token} {clauses : List ColumnClause}
    (hp : p.word = .rparen) (hs : s.word = .semicolon)
    (h : readAll (us ++ [p, s]) = .ok (clauses, [p, s])) :
    OpenWith TokenKind.startsColumnClause (us.map Token.word) ∧
      ∀ vs, Closing vs → RunsTo readAll (us.map Token.word ++ vs) clauses vs := by
  constructor
  · obtain ⟨first, rest, hfirst, -⟩ := bind_eq_ok.mp h
    have hstarts := ColumnClause.firstKind_of_read hfirst
    cases us with
    | nil =>
      have hrparen : firstKind [p, s] = some .rparen := congrArg (some <| Word.kind ·) hp
      rw [List.nil_append, hrparen] at hstarts
      cases hstarts
    | cons u us => exact hstarts
  · intro vs hvs ts hts
    obtain ⟨taken', rest', rfl, htaken', hrest'⟩ := List.map_eq_append_iff.mp hts
    obtain ⟨taken, hsplit, -, hrun⟩ := ColumnClause.stays_readAll.ok trivial (Nat.le_refl _) h
    obtain rfl := List.append_cancel_right hsplit
    exact ⟨rest', hrest', hrun taken' rest' htaken' (hvs.alike hp hs hrest') (Nat.le_refl _)⟩

/-- What follows a name in the only column of a table opens with a clause and is read in other
places as the same clauses. -/
theorem ColumnClause.runsTo_of_created {ts : List Token} {name : String}
    (hwords : ts.map Token.word = [Keyword.create.word, Keyword.table.word, n, Word.lparen] ++ y :: m ++
      [Word.rparen, Word.semicolon])
    (h : Statement.read ts = .ok (.table { name, columns := [c] }, [])) :
    n.kind.isName ∧ OpenWith TokenKind.startsColumnClause m ∧
      ∃ clauses, (∀ x, { c with name := x, table := "" } = Column.ofClauses x clauses) ∧
        ∀ vs, Closing vs → RunsTo readAll (m ++ vs) clauses vs := by
  obtain ⟨front, back, rfl, hfront, hback⟩ := List.map_eq_append_iff.mp hwords
  obtain ⟨head, column, rfl, hhead, hcolumn⟩ := List.map_eq_append_iff.mp hfront
  obtain ⟨t₁, head₁, rfl, ht₁, hhead₁⟩ := List.map_eq_cons_iff.mp hhead
  obtain ⟨t₂, head₂, rfl, ht₂, hhead₂⟩ := List.map_eq_cons_iff.mp hhead₁
  obtain ⟨t₃, head₃, rfl, ht₃, hhead₃⟩ := List.map_eq_cons_iff.mp hhead₂
  obtain ⟨t₄, rfl, -⟩ := List.map_eq_singleton_iff.mp hhead₃
  obtain ⟨t, us, rfl, -, rfl⟩ := List.map_eq_cons_iff.mp hcolumn
  obtain ⟨p, back₁, rfl, hp, hback₁⟩ := List.map_eq_cons_iff.mp hback
  obtain ⟨s, rfl, hs⟩ := List.map_eq_singleton_iff.mp hback₁
  have hcreate := Statement.read_create_table (t := t₁) (u := t₂) (congrArg Word.kind ht₁)
    (congrArg Word.kind ht₂) (t₃ :: t₄ :: t :: us ++ [p, s])
  obtain ⟨table, rest, htable, hrest⟩ := bind_eq_ok.mp (hcreate.symm.trans h)
  cases hrest
  obtain ⟨t₃', t₄', us', p', s', hsplit, hname, -, -, hread⟩ := Table.read_eq_column htable
  cases hsplit
  obtain ⟨t', us', clauses, hsplit, hclauses, hc⟩ := Column.read_eq_ok hread
  cases hsplit
  -- of the tokens of the column, the clauses leave `)` and the semicolon
  obtain ⟨taken, hsplit, -⟩ :=
    (ColumnClause.stays_readAll (n := 0)).ok trivial (Nat.le_refl _) hclauses
  obtain ⟨rfl, hends⟩ := List.append_inj' hsplit rfl
  cases hends
  obtain ⟨hopen, hruns⟩ := runsTo_of_readAll hp hs hclauses
  refine ⟨ht₃ ▸ hname, hopen, clauses, ?_, hruns⟩
  exact fun x => congrArg (Column.mk x "" ·) (congrArg Column.clauses hc)

end Created

/-! ## Ways to write a column -/

/-- The ways to write a column behind the word `ADD`. -/
inductive Addition.Form where
  /-- `ADD x NUMBER` -/
  | bare
  /-- `ADD (x NUMBER)` -/
  | parenthesized
  /-- `ADD COLUMN x NUMBER` -/
  | announced
  deriving DecidableEq, Repr

/-- The words behind `ADD`, for the words of a column. -/
def Addition.Form.around : Form → List Word → List Word
  | .bare, ws => ws
  | .parenthesized, ws => Word.lparen :: ws ++ [Word.rparen]
  | .announced, ws => Keyword.column.word :: ws

/-- Whether a column is found in what is written so, by the class of its name. A word that opens a
storage option is taken for one where the name comes first. A word that opens a clause is taken for
one behind `COLUMN`, which is then the name. -/
def Addition.Form.takes : Form → TokenKind → Bool
  | .bare, name | .parenthesized, name => !name.startsIndexOption
  | .announced, name => !name.startsColumnClause

section Forms

variable {n x : Word} {m vs : List Word} {clauses : List ColumnClause}

theorem TokenKind.ne_of_isName {k l : TokenKind} (hk : k.isName) (hl : l.isName = false) : k ≠ l := by
  rintro rfl
  rw [hl] at hk
  cases hk

theorem TableElement.runsTo_clauses (hx : x.kind.isName)
    (hm : OpenWith TokenKind.startsColumnClause (m ++ vs))
    (hclauses : RunsTo ColumnClause.readAll (m ++ vs) clauses vs) :
    RunsTo TableElement.read (x :: (m ++ vs)) (.column (.ofClauses x.value clauses)) vs := by
  refine .nextKind (.secondKind ?_)
  have hstart : startsConstraint (kindOf (x :: (m ++ vs))) (kindOf (m ++ vs)) = false :=
    startsConstraint_column (TokenKind.ne_of_isName hx rfl) hm
  rw [List.tail_cons, hstart, Column.read_eq]
  exact .bind (.bind (.name hx rfl) (.bind hclauses (.pure _ vs))) (.pure _ vs)

namespace Addition

theorem runsTo_readOne (hx : x.kind.isName)
    (hm : OpenWith TokenKind.startsColumnClause (m ++ vs))
    (hclauses : RunsTo ColumnClause.readAll (m ++ vs) clauses vs) :
    RunsTo readOne (x :: (m ++ vs)) (.column (.ofClauses x.value clauses)) vs := by
  refine .nextKind (.secondKind ?_)
  have hsecond : (kindOf (m ++ vs)).any (fun kind => kind.isName && !kind.startsColumnClause) = false :=
    hm.any_false fun kind hk => by simp [hk]
  rw [List.tail_cons, announcesColumn, hsecond, Bool.and_false]
  exact .bind (TableElement.runsTo_clauses hx hm hclauses) (.pure _ vs)

theorem answers_startsTableOption (hx : x.kind.startsIndexOption = false)
    (hm : OpenWith TokenKind.startsColumnClause (m ++ vs)) :
    Answers Storage.startsTableOption (x :: (m ++ vs)) false := fun ts hts =>
  (Storage.answers_startsTableOption ts hts).trans (TokenKind.startsTableOption_column hx hm)

/-- A column is read as it is written, if its name is taken. -/
theorem Form.runsTo_readAll (form : Form) (hx : x.kind.isName) (htakes : form.takes x.kind)
    (hm : OpenWith TokenKind.startsColumnClause m)
    (hclauses : ∀ vs, ColumnClause.Closing vs → RunsTo ColumnClause.readAll (m ++ vs) clauses vs) :
    RunsTo readAll (form.around (x :: m) ++ [Word.semicolon])
      [.column (.ofClauses x.value clauses)] [Word.semicolon] := by
  have hopen : ∀ vs, OpenWith TokenKind.startsColumnClause (m ++ vs) := by
    intro vs
    cases m with
    | nil => cases hm
    | cons w m => exact hm
  cases form with
  | bare =>
    have hindex : x.kind.startsIndexOption = false := by simpa [takes] using htakes
    refine .pass (fun heq => TokenKind.ne_of_isName hx rfl (Option.some.inj heq)) ?_
    refine .choice (answers_startsTableOption hindex (hopen _)) ?_
    exact .bind (.map (runsTo_readOne hx (hopen _) (hclauses _ .semicolon))) (.pure _ _)
  | parenthesized =>
    have hindex : x.kind.startsIndexOption = false := by simpa [takes] using htakes
    have hwords : Form.parenthesized.around (x :: m) ++ [Word.semicolon] =
        Word.lparen :: x :: (m ++ [Word.rparen, Word.semicolon]) := by
      simp [around]
    rw [hwords]
    refine .accept rfl (.choice (answers_startsTableOption hindex (hopen _)) ?_)
    have hstop : Answers (startsWith .comma) [Word.rparen, Word.semicolon] false :=
      RunsTo.answers_startsWith
    have hlist : RunsTo (commaSeparated readOne) (x :: (m ++ [Word.rparen, Word.semicolon]))
        [.column (.ofClauses x.value clauses)] [Word.rparen, Word.semicolon] :=
      .bind (runsTo_readOne hx (hopen _) (hclauses _ .rparen))
        (.bind (.repeatWhile_nil hstop) (.pure _ _))
    exact .bind hlist (.bind (.discard_expect rfl) (.pure _ _))
  | announced =>
    have hclause : x.kind.startsColumnClause = false := by simpa [takes] using htakes
    have hno : Answers Storage.startsTableOption
        (Keyword.column.word :: x :: (m ++ [Word.semicolon])) false := fun ts hts =>
      (Storage.answers_startsTableOption ts hts).trans rfl
    have hone : RunsTo readOne (Keyword.column.word :: x :: (m ++ [Word.semicolon]))
        (.column (.ofClauses x.value clauses)) [Word.semicolon] := by
      refine .nextKind (.secondKind ?_)
      have hannounces : announcesColumn (kindOf (Keyword.column.word :: x :: (m ++ [Word.semicolon])))
          (kindOf (x :: (m ++ [Word.semicolon]))) = true := by
        simp [announcesColumn, hx, hclause]
      rw [List.tail_cons, hannounces]
      exact .bind .skip (.bind (TableElement.runsTo_clauses hx (hopen _) (hclauses _ .semicolon))
        (.pure _ _))
    exact .pass (fun h => by cases h) (.choice hno (.bind (.map hone) (.pure _ _)))

/-- Where an option comes next, an option is added. -/
theorem storage_of_readAll {ts mid rest : List Token} {adds : List Addition} {parenthesized : Bool}
    (haccept : accept .lparen ts = .ok (parenthesized, mid))
    (hstarts : Storage.startsTableOption mid = true) (h : readAll ts = .ok (adds, rest)) :
    ∃ s others, adds = .storage s :: others := by
  rw [readAll] at h
  obtain ⟨_, _, haccept', h⟩ := bind_eq_ok.mp h
  cases haccept.symm.trans haccept'
  obtain ⟨_, _, hget, h⟩ := bind_eq_ok.mp h
  cases hget
  rw [if_pos hstarts] at h
  obtain ⟨found, mid', hfound, h⟩ := bind_eq_ok.mp h
  rw [map_eq_pure_bind] at hfound
  obtain ⟨options, mid'', hoptions, hfound⟩ := bind_eq_ok.mp hfound
  cases hfound
  have hadds : adds = options.map .storage := by
    cases parenthesized with
    | true =>
      obtain ⟨_, _, -, h⟩ := bind_eq_ok.mp h
      cases h
      rfl
    | false =>
      cases h
      rfl
  obtain ⟨s, others, rfl⟩ :=
    List.exists_cons_of_ne_nil (ConsumesWhen.repeatWhile_ne_nil hstarts hoptions)
  exact ⟨s, others.map .storage, hadds⟩

/-- Where `COLUMN` does not announce a column, it is the name of one. -/
theorem column_of_readOne {t u : Token} {us rest : List Token} {a : Addition}
    (ht : t.kind = .keyword .column) (hu : u.kind.startsColumnClause)
    (h : readOne (t :: u :: us) = .ok (a, rest)) : ∃ c, a = .column c ∧ c.name = t.value := by
  have hannounces : announcesColumn (firstKind (t :: u :: us)) (firstKind (u :: us)) = false := by
    simp [announcesColumn, firstKind, hu]
  have hstarts : TableElement.startsConstraint (firstKind (t :: u :: us)) (firstKind (u :: us)) =
      false := by
    have hfirst : firstKind (t :: u :: us) = some (.keyword .column) := congrArg some ht
    rw [hfirst]
    rfl
  rw [readOne] at h
  obtain ⟨first, _, hk, h⟩ := bind_eq_ok.mp h
  cases hk
  obtain ⟨second, _, hk, h⟩ := bind_eq_ok.mp h
  cases hk
  rw [if_neg (Bool.not_eq_true _ ▸ hannounces)] at h
  obtain ⟨element, mid, helement, h⟩ := bind_eq_ok.mp h
  rw [TableElement.read_apply, List.tail_cons, hstarts, if_neg Bool.false_ne_true] at helement
  obtain ⟨c, mid', hcolumn, helement⟩ := bind_eq_ok.mp helement
  cases helement
  cases h
  obtain ⟨t', _, clauses, hsplit, -, rfl⟩ := Column.read_eq_ok hcolumn
  cases hsplit
  exact ⟨_, rfl, rfl⟩

theorem column_of_readAll {t u : Token} {us rest : List Token} {adds : List Addition}
    (ht : t.kind = .keyword .column) (hu : u.kind.startsColumnClause)
    (h : readAll (t :: u :: us) = .ok (adds, rest)) :
    ∃ c, adds = [.column c] ∧ c.name = t.value := by
  have hno : kindOf ((t :: u :: us).map Token.word) ≠ some .lparen := by
    rw [List.map_cons, kindOf_cons, Token.word_kind, ht]
    exact fun heq => by cases heq
  have hoption : Storage.startsTableOption (t :: u :: us) = false := by
    obtain ⟨kind, value, line, offset⟩ := t
    cases ht
    rfl
  rw [readAll] at h
  obtain ⟨_, _, haccept, h⟩ := bind_eq_ok.mp h
  cases (accept_of_ne hno).symm.trans haccept
  obtain ⟨_, _, hget, h⟩ := bind_eq_ok.mp h
  cases hget
  rw [hoption, if_neg Bool.false_ne_true, if_neg Bool.false_ne_true] at h
  obtain ⟨found, mid, hfound, h⟩ := bind_eq_ok.mp h
  cases h
  rw [map_eq_pure_bind] at hfound
  obtain ⟨one, mid', hone, hfound⟩ := bind_eq_ok.mp hfound
  cases hfound
  obtain ⟨c, rfl, hname⟩ := column_of_readOne ht hu hone
  exact ⟨c, rfl, hname⟩

theorem startsTableOption_of_index {t : Token} (ht : t.kind.startsIndexOption) (us : List Token) :
    Storage.startsTableOption (t :: us) = true := by
  obtain ⟨kind, value, line, offset⟩ := t
  cases kind with
  | keyword word => cases word <;> first | rfl | cases ht
  | _ => cases ht

/-- A column whose name is not taken is not what is added first. -/
theorem Form.readAll_of_not_takes (form : Form) {ts rest : List Token} {adds : List Addition}
    (hx : x.kind.isName) (htakes : form.takes x.kind = false)
    (hts : ts.map Token.word = form.around (x :: m) ++ [Word.semicolon])
    (h : readAll ts = .ok (adds, rest)) :
    ∃ a others, adds = a :: others ∧
      ∀ c, a = .column c → x.kind.startsColumnClause ∧ c.name = Keyword.column.name := by
  have hstorage : ∀ {parenthesized mid}, accept .lparen ts = .ok (parenthesized, mid) →
      Storage.startsTableOption mid = true → ∃ a others, adds = a :: others ∧
        ∀ c, a = .column c → x.kind.startsColumnClause ∧ c.name = Keyword.column.name := by
    intro parenthesized mid haccept hstarts
    obtain ⟨s, others, rfl⟩ := storage_of_readAll haccept hstarts h
    exact ⟨_, others, rfl, fun c hc => by cases hc⟩
  cases form with
  | bare =>
    obtain ⟨t, us, rfl, rfl, -⟩ := List.map_eq_cons_iff.mp hts
    have hindex : t.kind.startsIndexOption := by simpa [takes] using htakes
    refine hstorage (accept_of_ne ?_) (startsTableOption_of_index hindex us)
    exact fun heq => TokenKind.ne_of_isName hx rfl (Option.some.inj heq)
  | parenthesized =>
    obtain ⟨p, us, rfl, hp, hus⟩ := List.map_eq_cons_iff.mp hts
    obtain ⟨t, us, rfl, rfl, -⟩ := List.map_eq_cons_iff.mp hus
    have hindex : t.kind.startsIndexOption := by simpa [takes] using htakes
    exact hstorage (accept_of_eq (congrArg Word.kind hp) _) (startsTableOption_of_index hindex us)
  | announced =>
    obtain ⟨p, us, rfl, hp, hus⟩ := List.map_eq_cons_iff.mp hts
    obtain ⟨t, us, rfl, rfl, -⟩ := List.map_eq_cons_iff.mp hus
    have hclause : t.kind.startsColumnClause := by simpa [takes] using htakes
    obtain ⟨c, rfl, hname⟩ := column_of_readAll (congrArg Word.kind hp) hclause h
    refine ⟨_, [], rfl, fun c' hc' => ?_⟩
    cases hc'
    exact ⟨hclause, hname.trans (congrArg Word.value hp)⟩

end Addition

/-- A change that adds something is read from its words. -/
theorem AlterTable.runsTo_add {ws : List Word} {adds : List Addition} (hn : n.kind.isName)
    (hadds : RunsTo Addition.readAll (ws ++ [Word.semicolon]) adds [Word.semicolon]) :
    RunsTo Statement.read
      ([Keyword.alter.word, Keyword.table.word, n, Keyword.add.word] ++ ws ++ [Word.semicolon])
      (.alterTable { table := n.value, adds }) [] := by
  have hstop : Answers Addition.continues [Word.semicolon] false := by
    intro ts hts
    rw [Addition.continues, RunsTo.answers_startsWith ts hts]
    rfl
  have hchange : RunsTo (AlterTable.readChange n.value) (Keyword.add.word :: (ws ++ [Word.semicolon]))
      { table := n.value, adds } [Word.semicolon] := by
    refine .accept rfl (.bind hadds (.bind (.repeatWhile_nil hstop) ?_))
    rw [List.flatten_nil, List.append_nil]
    exact .pure _ _
  refine .nextWord fun t ht => ?_
  simp only [ht]
  refine .pass (fun h => by cases h) (.bind (.discard_expect rfl) (.bind ?_ (.pure _ _)))
  exact .bind (.name hn rfl) (.bind hchange (.bind (.discard_expect rfl) (.pure _ _)))

theorem Word.eq_of_value {v w : Word} (hv : v.Inline) (hw : w.Inline) (h : v.value = w.value) :
    v = w := by
  rw [← hv.ofText_eq, ← hw.ofText_eq, h]

theorem AlterTable.readAll_of_read {t₁ t₂ t₃ t₄ : Token} {us rest : List Token} {a : AlterTable}
    (ht₁ : t₁.kind = .keyword .alter) (ht₂ : t₂.kind = .keyword .table)
    (ht₄ : t₄.kind = .keyword .add)
    (h : Statement.read (t₁ :: t₂ :: t₃ :: t₄ :: us) = .ok (.alterTable a, rest)) :
    ∃ first others mid, Addition.readAll us = .ok (first, mid) ∧ a.adds = first ++ others := by
  have halter : Statement.read (t₁ :: t₂ :: t₃ :: t₄ :: us) =
      (AlterTable.read >>= fun a => pure (.alterTable a)) (t₃ :: t₄ :: us) := by
    obtain ⟨kind, value, line, offset⟩ := t₁
    obtain ⟨kind', value', line', offset'⟩ := t₂
    cases ht₁
    cases ht₂
    rfl
  obtain ⟨a', rest', hread, h⟩ := bind_eq_ok.mp (halter.symm.trans h)
  cases h
  obtain ⟨name, mid, hname, hread⟩ := bind_eq_ok.mp hread
  obtain ⟨t, hsplit, -, rfl⟩ := Reader.name_eq_ok hname
  cases hsplit
  obtain ⟨change, mid, hchange, hread⟩ := bind_eq_ok.mp hread
  obtain ⟨_, mid', -, hread⟩ := bind_eq_ok.mp hread
  cases hread
  obtain ⟨accepted, mid', haccept, hchange⟩ := bind_eq_ok.mp hchange
  cases (accept_of_eq ht₄ us).symm.trans haccept
  rw [if_pos rfl] at hchange
  obtain ⟨first, mid, hfirst, hchange⟩ := bind_eq_ok.mp hchange
  obtain ⟨others, mid', -, hchange⟩ := bind_eq_ok.mp hchange
  cases hchange
  exact ⟨first, others.flatten, mid, hfirst, rfl⟩

/-- A column that is added has a name that is taken. -/
theorem AlterTable.takes_of_read (form : Addition.Form) {ts rest : List Token} {a : AlterTable}
    {c : Column} (hx : x.kind.isName) (hinline : x.Inline)
    (hts : ts.map Token.word = [Keyword.alter.word, Keyword.table.word, n, Keyword.add.word] ++
      form.around (x :: m) ++ [Word.semicolon])
    (h : Statement.read ts = .ok (.alterTable a, rest)) (hadds : a.adds = [.column c])
    (hname : c.name = x.value) : form.takes x.kind := by
  refine Decidable.byContradiction fun htakes => ?_
  rw [List.append_assoc] at hts
  obtain ⟨t₁, ts₁, rfl, ht₁, hts₁⟩ := List.map_eq_cons_iff.mp hts
  obtain ⟨t₂, ts₂, rfl, ht₂, hts₂⟩ := List.map_eq_cons_iff.mp hts₁
  obtain ⟨t₃, ts₃, rfl, -, hts₃⟩ := List.map_eq_cons_iff.mp hts₂
  obtain ⟨t₄, us, rfl, ht₄, hus⟩ := List.map_eq_cons_iff.mp hts₃
  obtain ⟨first, others, mid, hfirst, hsplit⟩ := AlterTable.readAll_of_read
    (congrArg Word.kind ht₁) (congrArg Word.kind ht₂) (congrArg Word.kind ht₄) h
  obtain ⟨added, more, rfl, hadded⟩ :=
    form.readAll_of_not_takes hx (Bool.not_eq_true _ ▸ htakes) hus hfirst
  obtain ⟨hclause, hcolumn⟩ := hadded c (List.cons.inj (hadds.symm.trans hsplit)).1.symm
  -- a name spelled as `COLUMN` is that word, which opens no clause
  have hword : x = Keyword.column.word :=
    Word.eq_of_value hinline (Keyword.inline_word _) (hname.symm.trans hcolumn)
  rw [hword] at hclause
  cases hclause

/-- A table with one column of numbers is read from its words. -/
theorem Script.parse_number_column {text name : String} (hname : IsName name)
    (hwords : Scan.words text.toList =
      [Keyword.create.word, Keyword.table.word, Word.ofText "t", Word.lparen] ++
        Word.ofText name :: [Keyword.number.word] ++ [Word.rparen, Word.semicolon]) :
    Script.parse text = .ok ⟨[.table
      { name := "t", columns := [⟨name, "t", [.dataType ⟨"NUMBER", none⟩]⟩] }]⟩ := by
  have htype : DataType.WellFormed ⟨"NUMBER", none⟩ :=
    ⟨by decide, ⟨.number, by decide +kernel, rfl⟩, fun p hp => by cases hp⟩
  have hcolumn : Column.Listed ⟨name, "t", [.dataType ⟨"NUMBER", none⟩]⟩ :=
    ⟨⟨hname, List.cons_ne_nil _ _, List.forall_mem_singleton.mpr htype, List.pairwise_singleton _ _⟩,
      TokenKind.ne_of_isName hname.isName rfl⟩
  have ht : IsName "t" := ⟨by decide, by decide +kernel⟩
  have htable : Statement.WellFormed (.table
      { name := "t", columns := [⟨name, "t", [.dataType ⟨"NUMBER", none⟩]⟩] }) :=
    ⟨ht, fun h => h, List.forall_mem_singleton.mpr ⟨hcolumn, rfl⟩, List.forall_mem_nil _,
      .inl (List.cons_ne_nil _ _), List.forall_mem_nil _⟩
  have hleaves : ∀ l ∈ Statement.leaves (.table
      { name := "t", columns := [⟨name, "t", [.dataType ⟨"NUMBER", none⟩]⟩] }), l.Canonical := by
    simp [Statement.leaves, Table.leaves, Column.leaves, ColumnClause.leaves, Leaf.Canonical]
  obtain ⟨rest, hrest, hread⟩ := Statement.runsTo htable trivial hleaves (tokenize text).1 hwords
  rw [Script.parse_eq_single, hread, List.map_eq_nil_iff.mp hrest]

/-- **A column can be added in three ways, and each takes its names.** Let a table have one column
with the clauses that some words spell. Behind any name, in a change of the table, the same words
add the column of this name with these clauses, just if the way it is written takes the name: behind
`ADD`, with or without parentheses, if it opens no storage option, and behind `ADD COLUMN` if it
opens no clause. -/
theorem Script.parse_added_column_iff (form : Addition.Form) {created altered : String}
    {n y x : Word} {m : List Word} {c : Column}
    (hcreated : Scan.words created.toList =
      [Keyword.create.word, Keyword.table.word, n, Word.lparen] ++ y :: m ++
        [Word.rparen, Word.semicolon])
    (hparse : Script.parse created = .ok ⟨[.table { name := n.value, columns := [c] }]⟩)
    (hx : x.kind.isName)
    (haltered : Scan.words altered.toList =
      [Keyword.alter.word, Keyword.table.word, n, Keyword.add.word] ++ form.around (x :: m) ++
        [Word.semicolon]) :
    Script.parse altered = .ok ⟨[.alterTable
        { table := n.value, adds := [.column { c with name := x.value, table := "" }] }]⟩ ↔
      form.takes x.kind := by
  rw [Script.parse_eq_single] at hparse ⊢
  obtain ⟨hn, hm, clauses, hc, hclauses⟩ := ColumnClause.runsTo_of_created hcreated hparse
  rw [hc]
  constructor
  · intro hread
    have hmem : x ∈ Scan.words altered.toList := by
      rw [haltered]
      cases form <;> simp [Addition.Form.around]
    have hinline : x.Inline := .of_isName (Scan.lexical_of_mem_words hmem) hx
    exact AlterTable.takes_of_read form hx hinline haltered hread rfl rfl
  · intro htakes
    have hruns := AlterTable.runsTo_add hn (form.runsTo_readAll hx htakes hm hclauses)
    obtain ⟨rest, hrest, hread⟩ := hruns _ haltered
    rwa [List.map_eq_nil_iff.mp hrest] at hread

/-- A name that is a keyword is taken in each of the three ways. -/
theorem Script.parse_added_column_order :
    Script.parse "CREATE TABLE t (a NUMBER);" =
        .ok ⟨[.table { name := "t", columns := [⟨"a", "t", [.dataType ⟨"NUMBER", none⟩]⟩] }]⟩ ∧
      ∀ text ∈ ["ALTER TABLE t ADD order NUMBER;", "ALTER TABLE t ADD (order NUMBER);",
        "ALTER TABLE t ADD COLUMN order NUMBER;"],
        Script.parse text = .ok ⟨[.alterTable
          { table := "t", adds := [.column ⟨"order", "", [.dataType ⟨"NUMBER", none⟩]⟩] }]⟩ := by
  have hcreated : Scan.words "CREATE TABLE t (a NUMBER);".toList =
      [Keyword.create.word, Keyword.table.word, Word.ofText "t", Word.lparen] ++
        Word.ofText "a" :: [Keyword.number.word] ++ [Word.rparen, Word.semicolon] := by
    decide +kernel
  have hparse : Script.parse "CREATE TABLE t (a NUMBER);" = .ok ⟨[.table
      { name := "t", columns := [⟨"a", "t", [.dataType ⟨"NUMBER", none⟩]⟩] }]⟩ :=
    Script.parse_number_column ⟨by decide, by decide +kernel⟩ hcreated
  have hadded : ∀ (form : Addition.Form) (text : String), Scan.words text.toList =
      [Keyword.alter.word, Keyword.table.word, Word.ofText "t", Keyword.add.word] ++
        form.around (⟨.keyword .order, "order"⟩ :: [Keyword.number.word]) ++ [Word.semicolon] →
      form.takes (.keyword .order) → Script.parse text = .ok ⟨[.alterTable
        { table := "t", adds := [.column ⟨"order", "", [.dataType ⟨"NUMBER", none⟩]⟩] }]⟩ :=
    fun form text haltered htakes =>
      (Script.parse_added_column_iff form hcreated hparse rfl haltered).mpr htakes
  refine ⟨hparse, List.forall_mem_cons.mpr ⟨?_, List.forall_mem_cons.mpr ⟨?_,
    List.forall_mem_singleton.mpr ?_⟩⟩⟩
  · exact hadded .bare _ (by decide +kernel) rfl
  · exact hadded .parenthesized _ (by decide +kernel) rfl
  · exact hadded .announced _ (by decide +kernel) rfl

/-- A column may be named `logging` in a table, but is then not added to one behind `ADD`. -/
theorem Script.parse_added_column_logging :
    Script.parse "CREATE TABLE t (logging NUMBER);" =
        .ok ⟨[.table { name := "t", columns := [⟨"logging", "t", [.dataType ⟨"NUMBER", none⟩]⟩] }]⟩ ∧
      Script.parse "ALTER TABLE t ADD logging NUMBER;" =
        .error (.unexpected 1 27 "NUMBER" "NUMBER" "ALTER TABLE t ADD logging NUMBER;") := by
  refine ⟨Script.parse_number_column ⟨by decide, by decide +kernel⟩ (by decide +kernel), ?_⟩
  decide +kernel

end Forms

end SchemaScript
