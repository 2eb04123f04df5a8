import SchemaScript.Proofs.Token.Boundary
import SchemaScript.Proofs.Value.Grammar
import SchemaScript.Statement.Read

/-!
# Where statements end

Every rule of the grammar stays inside its statement, and a whole statement is taken up to the
semicolon that ends it. An inclusion is a statement of its own.

* `Rules.stay_ofDepth` — the rules for a nesting of parentheses. The bound on the nesting is met
  only where no token is left.
* `Column.stays_read`, `TableElement.stays_read`, `Addition.stays_readAll` — parts of a statement.
* `Statement.stays_read` — a whole statement.
-/

set_option autoImplicit false

namespace SchemaScript

open Reader
open Context (firstKind)

variable {m n : Nat}

/-! ## Values -/

/-- The rules inside parentheses stay inside a statement. -/
structure Rules.Stay (m n : Nat) (inner inner' : Rules) : Prop where
  expression : Stays m n .inside inner.expression inner'.expression
  value : Stays m n .inside inner.value inner'.value

theorem TokenKind.endsStatement_of_isConstant {k : TokenKind} (h : k.isConstant) :
    k.endsStatement = false := by
  cases k <;> first | rfl | cases h

theorem TokenKind.endsStatement_of_isOperator {k : TokenKind} (h : k.isOperator) :
    k.endsStatement = false := by
  cases k <;> first | rfl | cases h

theorem TokenKind.endsStatement_of_isConjunction {k : TokenKind} (h : k.isConjunction) :
    k.endsStatement = false := by
  cases k <;> first | rfl | cases h

namespace Rules.Stay

variable {inner inner' : Rules}

theorem call (h : Stay m n inner inner') (function : String) :
    Stays m n .inside (call inner function) (Rules.call inner' function) := by
  refine .bind (.discard_expect rfl) fun _ => .accept rfl (.pure _) ?_
  exact .bind (.commaSeparated h.value) fun _ => .bind (.discard_expect rfl) fun _ => .pure _

theorem term (h : Stay m n inner inner') :
    Stays (m + 1) (n + 1) .inside (term inner) (Rules.term inner') := by
  refine .next (fun _ _ _ _ => rfl) fun kind value _ _ _ _ => .ite (fun hk => ?_) fun _ =>
    .ite (fun hk => ?_) fun _ => .refuse rfl rfl
  · exact .goOn (TokenKind.endsStatement_of_isConstant hk) (.pure _)
  · refine .goOn (TokenKind.endsStatement_of_isName hk) (.nextKind ⟨rfl, rfl, rfl⟩ fun _ => ?_)
    exact .ite (fun _ => .weaken (h.call _)) fun _ => .pure _

/-- One operand behind another token. -/
theorem operandTerm (h : Stay m n inner inner') :
    Stays m n .inside (Rules.term inner) (Rules.term inner') :=
  h.term.lower (Nat.le_succ m) (Nat.le_succ n)

theorem group (h : Stay m n inner inner') :
    Stays m n .inside (group inner) (Rules.group inner') :=
  .bind h.expression fun _ => .bind (.discard_expect rfl) fun _ => .pure _

theorem continuation (h : Stay m n inner inner') :
    Stays (m + 1) (n + 1) .inside (continuation inner) (Rules.continuation inner') := by
  refine .next (fun _ _ _ _ => rfl) fun kind value _ _ _ _ => .ite (fun hk => ?_) fun _ => ?_
  · refine .goOn (TokenKind.endsStatement_of_isOperator hk) (.accept rfl ?_ ?_)
    · exact (h.group.result _).lower (Nat.sub_le m 1) (Nat.sub_le n 1)
    · exact h.operandTerm.result _
  · dsimp only
    split
    · exact .goOn rfl (.pure _)
    · refine .goOn rfl (.bind h.operandTerm fun _ => .expect rfl fun t t' hword _ => ?_)
      rw [← Token.word_value t', hword]
      exact .bind (h.operandTerm.lower (Nat.sub_le m 1) (Nat.sub_le n 1)) fun _ => .pure _
    · exact .goOn rfl (.bind (.parenthesized (.commaSeparated h.operandTerm)) fun _ => .pure _)
    · refine .goOn rfl (.nextKind ⟨rfl, rfl, rfl⟩ fun _ => .ite (fun hk => ?_) fun _ => ?_)
      · refine .nextKnown (fun ts hts => ⟨_, hts.trans hk, rfl⟩) fun t t' hword => ?_
        refine .expect rfl fun u u' hword' _ => ?_
        rw [← Token.word_value t', ← Token.word_value u', hword, hword']
        exact .pure _
      · refine .expect rfl fun u u' hword' _ => ?_
        rw [← Token.word_value u', hword']
        exact .pure _
    · exact .refuse rfl rfl

theorem primary (h : Stay m n inner inner') :
    Stays (m + 1) (n + 1) .inside (primary inner) (Rules.primary inner') := by
  refine .accept rfl (.bind h.group fun _ => ?_) ?_
  · refine .nextKind ⟨rfl, rfl, rfl⟩ fun k => .ite (fun hk => ?_) fun _ => .pure _
    refine .nextKnown (fun ts hts => ?_) fun t t' hword => ?_
    · exact Context.firstKind_any (fun _ => TokenKind.endsStatement_of_isOperator) (hts ▸ hk)
    · rw [← Token.word_value t', hword]
      exact .bind (h.operandTerm.lower (Nat.sub_le m 1) (Nat.sub_le n 1)) fun _ => .pure _
  · exact .bind h.term fun _ => .bind h.continuation fun _ => .pure _

theorem conjunctions (h : Stay m n inner inner') :
    Stays (m + 1) (n + 1) .inside (conjunctions inner) (Rules.conjunctions inner') := by
  refine .bind (.repeatHead _ ⟨rfl, rfl, rfl⟩ (.nextKnown (fun ts hts => ?_) fun t t' hword => ?_))
    fun _ => .pure _
  · exact Context.firstKind_any (fun _ => TokenKind.endsStatement_of_isConjunction) hts
  · rw [← Token.word_value t', hword]
    exact .bind (h.primary.lower (Nat.le_succ m) (Nat.le_succ n)) fun _ => .pure _

theorem condition (h : Stay m n inner inner') :
    Stays (m + 1) (n + 1) .inside (condition inner) (Rules.condition inner') :=
  .bind h.primary fun _ => .bind h.conjunctions fun _ => .pure _

theorem operand (h : Stay m n inner inner') :
    Stays (m + 1) (n + 1) .inside (operand inner) (Rules.operand inner') := by
  refine .nextKind ⟨rfl, rfl, rfl⟩ fun k => ?_
  split
  · exact .weaken (.bind h.condition fun _ => .pure _)
  · refine .nextKnown (fun ts hts => ⟨_, hts, rfl⟩) fun t t' hword => ?_
    rw [← Token.word_value t', hword]
    exact .pure _
  · refine .weaken (.bind h.term fun _ => .nextKind ⟨rfl, rfl, rfl⟩ fun _ => .ite (fun _ => ?_)
      fun _ => .pure _)
    exact .weaken (.bind h.continuation fun _ => .bind h.conjunctions fun _ => .pure _)

end Rules.Stay

/-- The rules with no nesting left run out at once, where there is no token. -/
theorem Rules.stays_nothing {α : Type} {r r' : Reader α} {x : String} (hr : r [] = .error (.ended x))
    (hr' : ∀ t others, t.kind = .inclusion → (t :: others).length ≤ n →
      r' (t :: others) = .error (.unexpected t)) : Stays 0 n .inside r r' := by
  have hnil : ∀ {ts : List Token}, ts.length ≤ 0 → ts = [] := fun h =>
    List.length_eq_zero_iff.mp (Nat.le_zero.mp h)
  refine ⟨?_, ?_, ?_⟩
  · intro ts a rest _ hts hrun
    rw [hnil hts, hr] at hrun
    cases hrun
  · intro ts t _ hts hrun
    rw [hnil hts, hr] at hrun
    cases hrun
  · intro ts y _ hts _
    rw [hnil hts]
    exact ⟨inside_nil, hr'⟩

/-- A rule that takes a token or more need not be told of where there is no token. -/
theorem Rules.stays_zero {α : Type} {r r' r₀ : Reader α} {P : List Word → α → Prop}
    (h : Stays m n .inside r r') (hr : Consumes (fun _ => True) r P)
    (hP : ∀ ws a, P ws a → 0 < ws.length) : Stays m 0 .inside r r₀ := by
  refine ⟨?_, h.unexpected, ?_⟩
  · intro ts a rest hc hts hrun
    obtain ⟨taken, hsplit, htaken, -⟩ := h.ok hc hts hrun
    refine ⟨taken, hsplit, htaken, ?_⟩
    intro taken' rest' hwords _ hlength
    obtain ⟨taken₀, hsplit', hread⟩ := hr ts a rest (fun _ _ => trivial) trivial hrun
    obtain rfl := List.append_cancel_right (hsplit.symm.trans hsplit')
    have hpos := hP _ _ hread
    have hsame := congrArg List.length hwords
    simp only [List.length_append, List.length_map] at hlength hpos hsame
    omega
  · intro ts x hc hts hrun
    refine ⟨(h.ended hc hts hrun).1, ?_⟩
    intro t others _ hlength
    simp at hlength

theorem Rules.stay_ofDepth (m n : Nat) : Rules.Stay m n (ofDepth m) (ofDepth n) := by
  induction m generalizing n with
  | zero =>
    cases n with
    | zero =>
      have hnone : ∀ {α : Type} (r : Reader α) (t : Token) (others : List Token),
          t.kind = .inclusion → (t :: others).length ≤ 0 → r (t :: others) = .error (.unexpected t) :=
        fun _ _ _ _ hlength => by simp at hlength
      exact ⟨stays_nothing rfl (hnone _), stays_nothing rfl (hnone _)⟩
    | succ n =>
      constructor <;> refine stays_nothing rfl ?_ <;>
      · rintro ⟨kind, value, line, offset⟩ others rfl _
        rfl
  | succ m ih =>
    cases n with
    | zero =>
      have hsound := Derives.sound_ofDepth (m + 1)
      refine ⟨stays_zero (ih 0).condition (hsound.expression _) ?_,
        stays_zero (ih 0).operand (hsound.value _) ?_⟩
      · exact fun ws a h => h.length_pos (by decide)
      · exact fun ws a h => h.length_pos (by decide)
    | succ n => exact ⟨(ih n).condition, (ih n).operand⟩

theorem stays_readExpression : Stays m n .inside readExpression readExpression :=
  .bounded fun m n => (Rules.stay_ofDepth m n).expression

theorem stays_readValue : Stays m n .inside readValue readValue :=
  .bounded fun m n => (Rules.stay_ofDepth m n).value

/-! ## Storage options -/

namespace Storage

theorem stays_readSpace : Stays m n .inside readSpace readSpace := by
  refine .nextKind ⟨rfl, rfl, rfl⟩ fun _ => .ite (fun hk => ?_) fun _ => .weaken .name
  refine .nextKnown (fun ts hts => ⟨_, hts.trans hk, rfl⟩) fun t t' hword => ?_
  rw [← Token.word_value t', hword]
  exact .pure _

theorem stays_readIndexOption : Stays m n .inside readIndexOption readIndexOption := by
  refine .next (fun _ _ _ _ => rfl) fun kind value _ _ _ _ => ?_
  dsimp only
  split
  · exact .goOn rfl (.bind stays_readSpace fun _ => .pure _)
  · exact .goOn rfl (.pure _)
  · exact .goOn rfl (.pure _)
  · refine .goOn rfl (.nextKind ⟨rfl, rfl, rfl⟩ fun _ => .ite (fun hk => ?_) fun _ => .pure _)
    refine .nextKnown (fun ts hts => ⟨_, hts.trans hk, rfl⟩) fun t t' hword => ?_
    rw [← Token.word_value t', hword]
    exact .pure _
  · exact .goOn rfl (.pure _)
  · exact .refuse rfl rfl

theorem stays_readIndexOptions : Stays m n .inside readIndexOptions readIndexOptions :=
  .repeatHead _ ⟨rfl, rfl, rfl⟩ (.weaken stays_readIndexOption)

theorem stays_readRowMovement (enabled : Bool) :
    Stays m n .inside (readRowMovement enabled) (readRowMovement enabled) :=
  .bind (.discard_expect rfl) fun _ => .bind (.discard_expect rfl) fun _ => .pure _

theorem stays_readOnCommit : Stays m n .inside readOnCommit readOnCommit := by
  refine .bind (.discard_expect rfl) fun _ => .next (fun _ _ _ _ => rfl) fun kind value _ _ _ _ => ?_
  dsimp only
  split
  · exact .goOn rfl (.bind (.pure _) fun _ => .bind (.discard_expect rfl) fun _ => .pure _)
  · exact .goOn rfl (.bind (.pure _) fun _ => .bind (.discard_expect rfl) fun _ => .pure _)
  · exact .refuse rfl rfl

theorem stays_readTableOption : Stays m n .inside readTableOption readTableOption := by
  refine .accept rfl (stays_readRowMovement _) (.accept rfl (stays_readRowMovement _) ?_)
  exact .accept rfl stays_readOnCommit stays_readIndexOption

theorem alike_startsTableOption {us us' : List Token} (h : Alike us us') :
    startsTableOption us' = startsTableOption us := by
  rw [startsTableOption, startsTableOption, Context.any_firstKind (·.startsTableOption _),
    Context.any_firstKind (·.startsTableOption _)]
  refine h.lookAtTwo (g := fun first second => first.any (·.startsTableOption second))
    ⟨fun _ => ⟨rfl, rfl, rfl⟩, fun first => ?_, fun _ => rfl⟩
  cases first with
  | none => exact ⟨rfl, rfl, rfl⟩
  | some kind =>
    simp only [Option.any_some]
    unfold TokenKind.startsTableOption
    refine ⟨?_, ?_, ?_⟩ <;> split <;> rfl

theorem stays_readTableOptions : Stays m n .inside readTableOptions readTableOptions :=
  .repeatWhile alike_startsTableOption (fun _ => trivial) stays_readTableOption

end Storage

/-! ## Clauses -/

theorem Key.stays_read (name : Option String) :
    Stays m n .inside (Key.read name) (Key.read name) := by
  refine .accept rfl ?_ (.pure _)
  exact .bind (.discard_expect rfl) fun _ => .bind (.discard_expect rfl) fun _ =>
    .bind Storage.stays_readSpace fun _ => .pure _

theorem OnDelete.stays_read : Stays m n .inside OnDelete.read? OnDelete.read? := by
  refine .twoKinds ?_ fun _ _ => .ite (fun hk => ?_) fun _ => .pure _
  · exact ⟨fun _ => ⟨by simp, by simp, by simp⟩, fun _ => ⟨by simp, by simp, by simp⟩,
      fun _ => by simp⟩
  · refine .skip (fun ts hts => ⟨_, hts.1.trans hk.1, rfl⟩) fun t => ?_
    refine .skip (fun ts hts => ⟨_, hts.2.trans hk.2, rfl⟩) fun u => .weaken (.accept rfl (.pure _) ?_)
    exact .bind (.discard_expect rfl) fun _ => .bind (.discard_expect rfl) fun _ => .pure _

theorem ForeignKey.stays_read (name : Option String) :
    Stays m n .inside (ForeignKey.read name) (ForeignKey.read name) :=
  .bind .name fun _ => .bind .nameList fun _ => .bind OnDelete.stays_read fun _ =>
    .accept rfl (.pure _) (.pure _)

theorem Check.stays_read (name : Option String) :
    Stays m n .inside (Check.read name) (Check.read name) :=
  .bind (.parenthesized stays_readExpression) fun _ => .pure _

theorem stays_readConstraintName : Stays m n .inside readConstraintName? readConstraintName? :=
  .accept rfl (.bind .name fun _ => .pure _) (.pure _)

theorem DataType.stays_readPrecision :
    Stays m n .inside DataType.readPrecision? DataType.readPrecision? := by
  refine .accept rfl (.expect rfl fun t t' hword _ => ?_) (.pure _)
  rw [← Token.word_value t', hword]
  refine .accept rfl (.expect rfl fun u u' hword' _ => ?_) ?_
  · rw [← Token.word_value u', hword']
    exact .bind (.discard_expect rfl) fun _ => .pure _
  · exact .bind (.discard_expect rfl) fun _ => .pure _

theorem stays_readDefault : Stays m n .inside readDefault readDefault := by
  refine .accept rfl ?_ stays_readValue
  exact .bind stays_readValue fun _ => .bind (.discard_expect rfl) fun _ => .pure _

theorem ColumnClause.stays_read : Stays m n .inside ColumnClause.read ColumnClause.read := by
  refine .bind stays_readConstraintName fun name => .next (fun _ _ _ _ => rfl)
    fun kind value _ _ _ _ => ?_
  dsimp only
  split
  · exact .goOn rfl (.bind (.discard_expect rfl) fun _ => .pure _)
  · exact .goOn rfl (.bind (Check.stays_read _) fun _ => .pure _)
  · exact .goOn rfl (.bind (.discard_expect rfl) fun _ => .bind (Key.stays_read _) fun _ => .pure _)
  · exact .goOn rfl (.bind (Key.stays_read _) fun _ => .pure _)
  · exact .goOn rfl (.bind (ForeignKey.stays_read _) fun _ => .pure _)
  · exact .ite (fun _ => .goOn rfl (.bind stays_readDefault fun _ => .pure _)) fun _ => .refuse rfl rfl
  · exact .ite (fun _ => .goOn rfl (.bind DataType.stays_readPrecision fun _ => .pure _))
      fun _ => .refuse rfl rfl
  · exact .refuse rfl rfl

theorem Column.stays_read : Stays m n .inside Column.read Column.read :=
  .bind .name fun _ => .bind ColumnClause.stays_read fun _ =>
    .bind (.repeatHead _ ⟨rfl, rfl, rfl⟩ (.weaken ColumnClause.stays_read)) fun _ => .pure _

theorem TableConstraint.stays_read :
    Stays m n .inside TableConstraint.read TableConstraint.read := by
  refine .bind stays_readConstraintName fun name => .next (fun _ _ _ _ => rfl)
    fun kind value _ _ _ _ => ?_
  dsimp only
  split
  · exact .goOn rfl (.bind (.discard_expect rfl) fun _ => .bind .nameList fun _ =>
      .bind (Key.stays_read _) fun _ => .pure _)
  · exact .goOn rfl (.bind .nameList fun _ => .bind (Key.stays_read _) fun _ => .pure _)
  · exact .goOn rfl (.bind (.discard_expect rfl) fun _ => .bind .nameList fun _ =>
      .bind (.discard_expect rfl) fun _ => .bind (ForeignKey.stays_read _) fun _ => .pure _)
  · exact .goOn rfl (.bind (Check.stays_read _) fun _ => .pure _)
  · exact .refuse rfl rfl

theorem TableElement.blind_startsConstraint : BlindTwo startsConstraint := by
  refine ⟨fun _ => ⟨rfl, rfl, rfl⟩, fun first => ?_, fun _ => rfl⟩
  unfold startsConstraint
  refine ⟨?_, ?_, ?_⟩ <;> split <;> rfl

theorem TableElement.stays_read : Stays m n .inside TableElement.read TableElement.read := by
  refine .twoKinds (blind_startsConstraint.comp fun starts => if starts then _ else _) fun _ _ =>
    .ite (fun _ => .weaken ?_) fun _ => .weaken ?_
  · exact .bind TableConstraint.stays_read fun _ => .pure _
  · exact .bind Column.stays_read fun _ => .pure _

theorem Table.stays_read (isGlobal temporary : Bool) :
    Stays m n .past (Table.read isGlobal temporary) (Table.read isGlobal temporary) :=
  .bind .name fun _ => .bind (.parenthesized (.commaSeparated TableElement.stays_read)) fun _ =>
    .bind Storage.stays_readTableOptions fun _ => .result .terminator _

/-! ## Statements -/

theorem stays_readString : Stays m n .inside readString readString := by
  refine .next (fun _ _ _ _ => rfl) fun kind value _ _ _ _ => ?_
  dsimp only
  split
  · exact .goOn rfl (.pure _)
  · exact .goOn rfl (.pure _)
  · exact .refuse rfl rfl

theorem Index.stays_read (unique : Bool) :
    Stays m n .past (Index.read unique) (Index.read unique) :=
  .bind .name fun _ => .bind (.discard_expect rfl) fun _ => .bind .name fun _ =>
    .bind .nameList fun _ => .bind Storage.stays_readIndexOptions fun _ => .result .terminator _

theorem SequenceOption.stays_read :
    Stays m n .inside SequenceOption.read SequenceOption.read := by
  refine .accept rfl (.bind (.discard_expect rfl) fun _ => .expect rfl fun t t' hword _ => ?_) ?_
  · rw [← Token.word_value t', hword]
    exact .pure _
  · exact .bind (.discard_expect rfl) fun _ => .pure _

theorem Sequence.stays_read : Stays m n .past Sequence.read Sequence.read := by
  have hmore : ∀ {us us' : List Token}, Alike us us' →
      (startsWith (.keyword .start) us' || startsWith (.keyword .order) us') =
        (startsWith (.keyword .start) us || startsWith (.keyword .order) us) := by
    intro us us' h
    simp only [Context.startsWith_eq]
    exact h.lookAhead (g := fun k => k.any (· = .keyword .start) || k.any (· = .keyword .order))
      ⟨rfl, rfl, rfl⟩
  exact .bind .name fun _ => .bind (.repeatWhile hmore (fun _ => trivial) SequenceOption.stays_read)
    fun _ => .result .terminator _

theorem Synonym.stays_read : Stays m n .past Synonym.read Synonym.read := by
  refine .bind .name fun _ => .accept rfl ?_ ?_
  · exact .bind (.map .name _) fun _ => .result .terminator _
  · exact .bind (.pure _) fun _ => .result .terminator _

theorem stays_readCreated : Stays m n .past readCreated readCreated := by
  refine .next (fun _ _ _ _ => rfl) fun kind value _ _ _ _ => ?_
  dsimp only
  split
  · exact .goOn rfl (.bind (.discard_accept rfl) fun _ => .bind (.discard_expect rfl) fun _ =>
      .result (Table.stays_read _ _) _)
  · exact .goOn rfl (.bind (.discard_expect rfl) fun _ => .result (Table.stays_read _ _) _)
  · exact .goOn rfl (.result (Table.stays_read _ _) _)
  · exact .goOn rfl (.bind (.discard_expect rfl) fun _ => .result (Index.stays_read _) _)
  · exact .goOn rfl (.result (Index.stays_read _) _)
  · exact .goOn rfl (.result Sequence.stays_read _)
  · exact .goOn rfl (.result Synonym.stays_read _)
  · exact .refuse rfl rfl

theorem Drop.stays_read : Stays m n .inside Drop.read Drop.read := by
  refine .next (fun _ _ _ _ => rfl) fun kind value _ _ _ _ => ?_
  dsimp only
  split
  case h_7 => exact .refuse rfl rfl
  all_goals exact .goOn rfl (.bind (.pure _) fun _ => .bind .name fun _ => .pure _)

namespace Addition

theorem blind_announcesColumn : BlindTwo announcesColumn :=
  ⟨fun _ => ⟨rfl, rfl, rfl⟩, fun _ => ⟨rfl, rfl, rfl⟩, fun _ => rfl⟩

theorem stays_readOne : Stays m n .inside readOne readOne := by
  refine .twoKinds (blind_announcesColumn.comp fun announced => if announced then _ else _)
    fun first second => .ite (fun hcolumn => ?_) fun _ => .weaken ?_
  · have hfirst : first = some (.keyword .column) := by
      simp only [announcesColumn, Bool.and_eq_true, decide_eq_true_eq] at hcolumn
      exact hcolumn.1
    refine .skip (fun ts hts => ⟨_, hts.1.trans hfirst, rfl⟩) fun _ => .weaken ?_
    exact .bind TableElement.stays_read fun element => by cases element <;> exact .pure _
  · exact .bind TableElement.stays_read fun element => by cases element <;> exact .pure _

theorem stays_readAll : Stays m n .inside readAll readAll := by
  have hadds : ∀ {m n : Nat} (adds : List Addition) (parenthesized : Bool), Stays m n .inside
      (if parenthesized then (do discard <| expect .rparen; return adds) else return adds)
      (if parenthesized then (do discard <| expect .rparen; return adds) else return adds) :=
    fun _ _ => .ite (fun _ => .bind (.discard_expect rfl) fun _ => .pure _) fun _ => .pure _
  refine .accept rfl (.choice Storage.alike_startsTableOption ?_ ?_)
    (.choice Storage.alike_startsTableOption ?_ ?_)
  · exact .bind (.map Storage.stays_readTableOptions _) fun _ => hadds _ true
  · exact .bind (.commaSeparated stays_readOne) fun _ => hadds _ true
  · exact .bind (.map Storage.stays_readTableOptions _) fun _ => hadds _ false
  · exact .bind (.map stays_readOne _) fun _ => hadds _ false

theorem alike_continues {us us' : List Token} (h : Alike us us') : continues us' = continues us := by
  simp only [continues, Context.startsWith_eq]
  exact h.lookAtTwo
    (g := fun first second => first.any (· = .comma) && second.any (· = .keyword .add))
    ⟨fun _ => ⟨rfl, rfl, rfl⟩, fun _ => ⟨rfl, rfl, rfl⟩, fun _ => rfl⟩

end Addition

theorem Rename.stays_read : Stays m n .inside Rename.read Rename.read := by
  refine .accept rfl ?_ ?_
  · exact .bind .name fun _ => .bind (.discard_expect rfl) fun _ => .bind .name fun _ => .pure _
  · exact .bind (.discard_expect rfl) fun _ => .bind .name fun _ => .pure _

theorem stays_readModifiedColumns :
    Stays m n .inside readModifiedColumns readModifiedColumns := by
  refine .accept rfl ?_ (.bind Column.stays_read fun _ => .pure _)
  exact .bind (.commaSeparated Column.stays_read) fun _ => .bind (.discard_expect rfl) fun _ =>
    .pure _

theorem AlterTable.stays_readChange (table : String) :
    Stays m n .inside (AlterTable.readChange table) (AlterTable.readChange table) := by
  refine .accept rfl ?_ (.accept rfl (.bind Drop.stays_read fun _ => .pure _) ?_)
  · refine .bind Addition.stays_readAll fun _ => .bind (.repeatWhile
      (d := fun ts => firstKind ts = some .comma ∧ firstKind ts.tail = some (.keyword .add))
      Addition.alike_continues ?_ ?_) fun _ => .pure _
    · intro ts hts
      simpa [Addition.continues, Context.startsWith_iff] using hts
    · refine .skip (fun ts hts => ⟨_, hts.1, rfl⟩) fun _ => ?_
      exact .skip (fun ts hts => ⟨_, hts.2, rfl⟩) fun _ => .weaken Addition.stays_readAll
  refine .accept rfl (.bind Rename.stays_read fun _ => .pure _) ?_
  refine .accept rfl (.bind stays_readModifiedColumns fun _ => .pure _) ?_
  refine .bind Storage.stays_readTableOptions fun _ => .ite (fun _ => ?_) fun _ => .pure _
  exact .next (fun _ _ _ _ => rfl) fun _ _ _ _ _ _ => .refuse rfl rfl

theorem AlterTable.stays_read : Stays m n .past AlterTable.read AlterTable.read :=
  .bind .name fun _ => .bind (AlterTable.stays_readChange _) fun _ => .result .terminator _

theorem AlterIndex.stays_read : Stays m n .past AlterIndex.read AlterIndex.read := by
  refine .bind .name fun _ => .bind Storage.stays_readIndexOptions fun _ =>
    .ite (fun _ => ?_) fun _ => .result .terminator _
  exact .next (fun _ _ _ _ => rfl) fun _ _ _ _ _ _ => .refuse rfl rfl

theorem Comment.stays_read : Stays m n .past Comment.read Comment.read := by
  refine .bind (.discard_expect rfl) fun _ => .next (fun _ _ _ _ => rfl) fun kind value _ _ _ _ =>
    .ite (fun _ => .refuse rfl rfl) fun hk => ?_
  have hends : kind.endsStatement = false := by
    by_cases htable : kind = .keyword .table
    · rw [htable]
      rfl
    · have hcolumn : kind = .keyword .column :=
        Decidable.byContradiction fun hcolumn => hk ⟨htable, hcolumn⟩
      rw [hcolumn]
      rfl
  exact .goOn hends (.bind .name fun _ => .bind (.discard_expect rfl) fun _ =>
    .bind stays_readString fun _ => .result .terminator _)

theorem Insert.stays_read : Stays m n .past Insert.read Insert.read := by
  have hvalues : ∀ {m n : Nat} (table : String) (columns : List String), Stays m n .past
      (do
        discard <| expectWord .values
        let values ← parenthesized (commaSeparated readValue)
        readTerminator
        return { table, columns, values : Insert })
      (do
        discard <| expectWord .values
        let values ← parenthesized (commaSeparated readValue)
        readTerminator
        return { table, columns, values : Insert }) :=
    fun _ _ => .bind (.discard_expect rfl) fun _ =>
      .bind (.parenthesized (.commaSeparated stays_readValue)) fun _ => .result .terminator _
  refine .bind (.discard_expect rfl) fun _ => .bind .name fun _ =>
    .nextKind ⟨rfl, rfl, rfl⟩ fun _ => .ite (fun _ => ?_) fun _ => ?_
  · exact .weaken (.bind .nameList fun _ => hvalues _ _)
  · exact .weaken (.bind (.pure _) fun _ => hvalues _ _)

/-- **A statement is taken up to the token that ends it**, and nothing behind that token matters. -/
theorem Statement.stays_read :
    StaysWhen (fun ts => ts ≠ []) m n .past Statement.read Statement.read := by
  refine .next (fun hnil => absurd rfl hnil) fun kind value _ _ _ _ => ?_
  dsimp only
  split
  · exact .finish rfl rfl _ rfl rfl
  · refine .goOn rfl (.accept rfl ?_ stays_readCreated)
    exact .bind (.discard_expect rfl) fun _ => stays_readCreated
  · refine .goOn rfl (.accept rfl (.result AlterIndex.stays_read _) ?_)
    exact .bind (.discard_expect rfl) fun _ => .result AlterTable.stays_read _
  · exact .goOn rfl (.bind Drop.stays_read fun _ => .result .terminator _)
  · exact .goOn rfl (.result Comment.stays_read _)
  · exact .goOn rfl (.result Insert.stays_read _)
  · exact .goOn rfl (.result .terminator _)
  · exact .refuse rfl rfl

end SchemaScript
