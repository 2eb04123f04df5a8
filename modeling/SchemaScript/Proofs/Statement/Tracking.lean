import SchemaScript.Proofs.Token.Tracking
import SchemaScript.Statement.Read

/-!
# The grammar in a context

Every rule of the grammar does in a context what it does on its tokens alone.

* `Rules.tracked_ofDepth` — the rules for a nesting of parentheses. Tokens that follow raise the
  bound on the nesting, and a higher bound changes nothing where a lower one is enough.
* `Column.tracks_read`, `TableElement.tracks_read`, `Addition.tracks_readAll` — the rules for parts
  of a statement. They look ahead, so they need what they leave to guard them.
* `Table.tracks_read`, `Index.tracks_read` and the like — the rules that end with a semicolon, which
  need nothing of what they leave.
* `Statement.carries_read` — a whole statement.
-/

set_option autoImplicit false

namespace SchemaScript

open Reader

variable {c : Context}

/-! ## Values -/

/-- The rules inside parentheses in a context. -/
structure Rules.Tracked (c : Context) (inner inner' : Rules) : Prop where
  expression : Tracks c c.Guarded inner.expression inner'.expression
  value : Tracks c c.Guarded inner.value inner'.value

namespace Rules.Tracked

variable {inner inner' : Rules}

theorem call (h : Tracked c inner inner') (function : String) :
    Tracks c c.Guarded (call inner function) (Rules.call inner' function) := by
  refine .bind (.discard_expect _) fun _ => .bind (.accept _) fun _ => .ite (.pure _) ?_
  exact .bind (.commaSeparated h.value) fun _ => .bind (.discard_expect _) fun _ => .pure _

theorem term (h : Tracked c inner inner') :
    Tracks c c.Guarded (term inner) (Rules.term inner') := by
  refine .next fun t => .ite (.pure _) (.ite ?_ (.reject t))
  exact .nextKind fun _ => .ite (h.call _) (.pure _)

theorem group (h : Tracked c inner inner') :
    Tracks c c.Guarded (group inner) (Rules.group inner') :=
  .bind h.expression fun _ => .bind (.discard_expect _) fun _ => .pure _

theorem continuation (h : Tracked c inner inner') :
    Tracks c c.Guarded (continuation inner) (Rules.continuation inner') := by
  refine .next fun t => .ite ?_ ?_
  · exact .bind (.accept _) fun _ => .ite (.result h.group _) (.result h.term _)
  · -- the token and its moved copy share their class, so one split serves both rules
    rcases t with ⟨kind, value, line, offset⟩
    dsimp only [Context.move, Token.moved]
    split
    · exact .pure _
    · exact .bind h.term fun _ => .expect fun _ _ => .bind h.term fun _ => .pure _
    · exact .bind (.parenthesized (.commaSeparated h.term)) fun _ => .pure _
    · refine .nextKind fun _ => .ite ?_ ?_
      · exact .next fun _ => .expect fun _ _ => .pure _
      · exact .expect fun _ _ => .pure _
    · exact .reject _

theorem primary (h : Tracked c inner inner') :
    Tracks c c.Guarded (primary inner) (Rules.primary inner') := by
  refine .bind (.accept _) fun _ => .ite ?_ ?_
  · refine .bind h.group fun _ => .nextKind fun _ => .ite ?_ (.pure _)
    exact .next fun _ => .bind h.term fun _ => .pure _
  · exact .bind h.term fun _ => .bind h.continuation fun _ => .pure _

theorem conjunctions (h : Tracked c inner inner') :
    Tracks c c.Guarded (conjunctions inner) (Rules.conjunctions inner') := by
  refine .bind (.repeatWhile (Context.stable_head _) ?_) fun _ => .pure _
  exact .next fun _ => .bind h.primary fun _ => .pure _

theorem condition (h : Tracked c inner inner') :
    Tracks c c.Guarded (condition inner) (Rules.condition inner') :=
  .bind h.primary fun _ => .bind h.conjunctions fun _ => .pure _

theorem operand (h : Tracked c inner inner') :
    Tracks c c.Guarded (operand inner) (Rules.operand inner') := by
  refine .nextKind fun k => ?_
  split
  · exact .bind h.condition fun _ => .pure _
  · exact .next fun _ => .pure _
  · refine .bind h.term fun _ => .nextKind fun _ => .ite ?_ (.pure _)
    exact .bind h.continuation fun _ => .bind h.conjunctions fun _ => .pure _

end Rules.Tracked

theorem Rules.tracked_ofDepth (n : Nat) :
    Rules.Tracked c (ofDepth n) (ofDepth (n + c.following.length)) := by
  induction n with
  | zero =>
    -- the lowest bound fails at once: only where nothing follows is there something to show
    have hzero : c.following = [] → ofDepth (0 + c.following.length) = ofDepth 0 := by
      intro hnone
      rw [hnone, List.length_nil]
    exact ⟨.ended fun hnone => congrArg expression (hzero hnone),
      .ended fun hnone => congrArg value (hzero hnone)⟩
  | succ n ih =>
    rw [Nat.succ_add]
    exact ⟨ih.condition, ih.operand⟩

theorem tracks_readExpression : Tracks c c.Guarded readExpression readExpression :=
  .bounded fun n => (Rules.tracked_ofDepth n).expression

theorem tracks_readValue : Tracks c c.Guarded readValue readValue :=
  .bounded fun n => (Rules.tracked_ofDepth n).value

/-! ## Storage options -/

namespace Storage

theorem tracks_readSpace : Tracks c c.Guarded readSpace readSpace :=
  .nextKind fun _ => .ite (.next fun _ => .pure _) .name

theorem tracks_readIndexOption : Tracks c c.Guarded readIndexOption readIndexOption := by
  refine .next fun t => ?_
  rcases t with ⟨kind, value, line, offset⟩
  dsimp only [Context.move, Token.moved]
  split
  · exact .bind tracks_readSpace fun _ => .pure _
  · exact .pure _
  · exact .pure _
  · exact .nextKind fun _ => .ite (.next fun _ => .pure _) (.pure _)
  · exact .pure _
  · exact .reject _

theorem tracks_readIndexOptions : Tracks c c.Guarded readIndexOptions readIndexOptions :=
  .repeatWhile (Context.stable_head _) tracks_readIndexOption

theorem tracks_readRowMovement (enabled : Bool) :
    Tracks c c.Guarded (readRowMovement enabled) (readRowMovement enabled) :=
  .bind (.discard_expect _) fun _ => .bind (.discard_expect _) fun _ => .pure _

theorem tracks_readOnCommit : Tracks c c.Guarded readOnCommit readOnCommit := by
  refine .bind (.discard_expect _) fun _ => .next fun t => ?_
  rcases t with ⟨kind, value, line, offset⟩
  dsimp only [Context.move, Token.moved]
  split
  all_goals refine .bind ?_ fun _ => .bind (.discard_expect _) fun _ => .pure _
  · exact .pure _
  · exact .pure _
  · exact .reject _

theorem tracks_readTableOption : Tracks c c.Guarded readTableOption readTableOption := by
  refine .bind (.accept _) fun _ => .ite (tracks_readRowMovement _) ?_
  refine .bind (.accept _) fun _ => .ite (tracks_readRowMovement _) ?_
  exact .bind (.accept _) fun _ => .ite tracks_readOnCommit tracks_readIndexOption

theorem stable_startsTableOption : c.Stable startsTableOption := by
  intro ts hts
  rw [startsTableOption, startsTableOption, Context.any_firstKind (·.startsTableOption _),
    Context.any_firstKind (·.startsTableOption _)]
  exact hts.lookAtTwo (g := fun first second => first.any (·.startsTableOption second))
    fun _ _ => rfl

theorem tracks_readTableOptions : Tracks c c.Guarded readTableOptions readTableOptions :=
  .repeatWhile stable_startsTableOption tracks_readTableOption

end Storage

/-! ## Clauses -/

theorem Key.tracks_read (name : Option String) :
    Tracks c c.Guarded (Key.read name) (Key.read name) := by
  refine .bind (.accept _) fun _ => .ite ?_ (.pure _)
  exact .bind (.discard_expect _) fun _ => .bind (.discard_expect _) fun _ =>
    .bind Storage.tracks_readSpace fun _ => .pure _

theorem OnDelete.tracks_read : Tracks c c.Guarded OnDelete.read? OnDelete.read? := by
  refine .twoKinds (fun _ _ => .ite ?_ (.pure _)) ?_
  · refine .bind .skip fun _ => .bind .skip fun _ => .bind (.accept _) fun _ => .ite (.pure _) ?_
    exact .bind (.discard_expect _) fun _ => .bind (.discard_expect _) fun _ => .pure _
  · intro k k'
    simp

theorem ForeignKey.tracks_read (name : Option String) :
    Tracks c c.Guarded (ForeignKey.read name) (ForeignKey.read name) :=
  .bind .name fun _ => .bind .nameList fun _ => .bind OnDelete.tracks_read fun _ =>
    .bind (.accept _) fun _ => .pure _

theorem Check.tracks_read (name : Option String) :
    Tracks c c.Guarded (Check.read name) (Check.read name) :=
  .bind (.parenthesized tracks_readExpression) fun _ => .pure _

theorem tracks_readConstraintName : Tracks c c.Guarded readConstraintName? readConstraintName? :=
  .bind (.accept _) fun _ => .ite (.bind .name fun _ => .pure _) (.pure _)

theorem DataType.tracks_readPrecision :
    Tracks c c.Guarded DataType.readPrecision? DataType.readPrecision? := by
  refine .bind (.accept _) fun _ => .ite ?_ (.pure _)
  refine .expect fun _ _ => .bind (.accept _) fun _ => .ite ?_ ?_
  · exact .expect fun _ _ => .bind (.discard_expect _) fun _ => .pure _
  · exact .bind (.discard_expect _) fun _ => .pure _

theorem tracks_readDefault : Tracks c c.Guarded readDefault readDefault := by
  refine .bind (.accept _) fun _ => .ite ?_ tracks_readValue
  exact .bind tracks_readValue fun _ => .bind (.discard_expect _) fun _ => .pure _

theorem ColumnClause.tracks_read : Tracks c c.Guarded ColumnClause.read ColumnClause.read := by
  refine .bind tracks_readConstraintName fun name => .next fun t => ?_
  rcases t with ⟨kind, value, line, offset⟩
  dsimp only [Context.move, Token.moved]
  split
  · exact .bind (.discard_expect _) fun _ => .pure _
  · exact .bind (Check.tracks_read _) fun _ => .pure _
  · exact .bind (.discard_expect _) fun _ => .bind (Key.tracks_read _) fun _ => .pure _
  · exact .bind (Key.tracks_read _) fun _ => .pure _
  · exact .bind (ForeignKey.tracks_read _) fun _ => .pure _
  · exact .ite (.bind tracks_readDefault fun _ => .pure _) (.reject _)
  · exact .ite (.bind DataType.tracks_readPrecision fun _ => .pure _) (.reject _)
  · exact .reject _

theorem Column.tracks_read : Tracks c c.Guarded Column.read Column.read :=
  .bind .name fun _ => .bind ColumnClause.tracks_read fun _ =>
    .bind (.repeatWhile (Context.stable_head _) ColumnClause.tracks_read) fun _ => .pure _

theorem TableConstraint.tracks_read :
    Tracks c c.Guarded TableConstraint.read TableConstraint.read := by
  refine .bind tracks_readConstraintName fun name => .next fun t => ?_
  rcases t with ⟨kind, value, line, offset⟩
  dsimp only [Context.move, Token.moved]
  split
  · exact .bind (.discard_expect _) fun _ => .bind .nameList fun _ =>
      .bind (Key.tracks_read _) fun _ => .pure _
  · exact .bind .nameList fun _ => .bind (Key.tracks_read _) fun _ => .pure _
  · exact .bind (.discard_expect _) fun _ => .bind .nameList fun _ =>
      .bind (.discard_expect _) fun _ => .bind (ForeignKey.tracks_read _) fun _ => .pure _
  · exact .bind (Check.tracks_read _) fun _ => .pure _
  · exact .reject _

theorem TableElement.tracks_read : Tracks c c.Guarded TableElement.read TableElement.read := by
  refine .twoKinds (fun _ _ => .ite ?_ ?_) fun _ _ => rfl
  · exact .bind TableConstraint.tracks_read fun _ => .pure _
  · exact .bind Column.tracks_read fun _ => .pure _

theorem Table.tracks_read (isGlobal temporary : Bool) :
    Tracks c (fun _ => True) (Table.read isGlobal temporary) (Table.read isGlobal temporary) :=
  .bind .name fun _ => .bind (.parenthesized (.commaSeparated TableElement.tracks_read)) fun _ =>
    .bind Storage.tracks_readTableOptions fun _ => .result .terminator _

/-! ## Statements -/

theorem tracks_readString : Tracks c c.Guarded readString readString := by
  refine .next fun t => ?_
  rcases t with ⟨kind, value, line, offset⟩
  dsimp only [Context.move, Token.moved]
  split
  · exact .pure _
  · exact .pure _
  · exact .reject _

theorem Index.tracks_read (unique : Bool) :
    Tracks c (fun _ => True) (Index.read unique) (Index.read unique) :=
  .bind .name fun _ => .bind (.discard_expect _) fun _ => .bind .name fun _ =>
    .bind .nameList fun _ => .bind Storage.tracks_readIndexOptions fun _ => .result .terminator _

theorem SequenceOption.tracks_read :
    Tracks c c.Guarded SequenceOption.read SequenceOption.read := by
  refine .bind (.accept _) fun _ => .ite ?_ ?_
  · exact .bind (.discard_expect _) fun _ => .expect fun _ _ => .pure _
  · exact .bind (.discard_expect _) fun _ => .pure _

theorem Sequence.tracks_read : Tracks c (fun _ => True) Sequence.read Sequence.read := by
  have hstable := (Context.stable_startsWith (c := c) (.keyword .start)).or
    (Context.stable_startsWith (.keyword .order))
  exact .bind .name fun _ => .bind (.repeatWhile hstable SequenceOption.tracks_read) fun _ =>
    .result .terminator _

theorem Synonym.tracks_read : Tracks c (fun _ => True) Synonym.read Synonym.read := by
  refine .bind .name fun _ => .bind (.accept _) fun _ => .ite ?_ ?_
  · exact .bind (.map .name _) fun _ => .result .terminator _
  · exact .bind (.pure _) fun _ => .result .terminator _

theorem tracks_readCreated : Tracks c (fun _ => True) readCreated readCreated := by
  refine .next fun t => ?_
  rcases t with ⟨kind, value, line, offset⟩
  dsimp only [Context.move, Token.moved]
  split
  · exact .bind (.map (.accept _) _) fun _ => .bind (.discard_expect _) fun _ =>
      .result (Table.tracks_read _ _) _
  · exact .bind (.discard_expect _) fun _ => .result (Table.tracks_read _ _) _
  · exact .result (Table.tracks_read _ _) _
  · exact .bind (.discard_expect _) fun _ => .result (Index.tracks_read _) _
  · exact .result (Index.tracks_read _) _
  · exact .result Sequence.tracks_read _
  · exact .result Synonym.tracks_read _
  · exact .reject _

theorem Drop.tracks_read : Tracks c c.Guarded Drop.read Drop.read := by
  refine .next fun t => ?_
  rcases t with ⟨kind, value, line, offset⟩
  dsimp only [Context.move, Token.moved]
  split
  all_goals refine .bind ?_ fun _ => .bind .name fun _ => .pure _
  case h_7 => exact .reject _
  all_goals exact .pure _

namespace Addition

theorem tracks_readOne : Tracks c c.Guarded readOne readOne := by
  refine .twoKinds (fun _ _ => .ite ?_ ?_) fun _ _ => rfl
  · refine .bind .skip fun _ => .bind TableElement.tracks_read fun element => ?_
    cases element <;> exact .pure _
  · refine .bind TableElement.tracks_read fun element => ?_
    cases element <;> exact .pure _

theorem tracks_readAll : Tracks c c.Guarded readAll readAll := by
  refine .bind (.accept _) fun parenthesized => ?_
  refine .choice Storage.stable_startsTableOption ?_ (.ite ?_ ?_)
  all_goals refine .bind ?_ fun _ => .ite (.bind (.discard_expect _) fun _ => .pure _) (.pure _)
  · exact .map Storage.tracks_readTableOptions _
  · exact .commaSeparated tracks_readOne
  · exact .map tracks_readOne _

theorem stable_continues : c.Stable continues := by
  intro ts hts
  simp only [continues, Context.startsWith_eq]
  exact hts.lookAtTwo
    (g := fun first second => first.any (· = .comma) && second.any (· = .keyword .add))
    fun _ _ => rfl

end Addition

theorem Rename.tracks_read : Tracks c c.Guarded Rename.read Rename.read := by
  refine .bind (.accept _) fun _ => .ite ?_ ?_
  · exact .bind .name fun _ => .bind (.discard_expect _) fun _ => .bind .name fun _ => .pure _
  · exact .bind (.discard_expect _) fun _ => .bind .name fun _ => .pure _

theorem tracks_readModifiedColumns :
    Tracks c c.Guarded readModifiedColumns readModifiedColumns := by
  refine .bind (.accept _) fun _ => .ite ?_ (.bind Column.tracks_read fun _ => .pure _)
  exact .bind (.commaSeparated Column.tracks_read) fun _ => .bind (.discard_expect _) fun _ =>
    .pure _

theorem AlterTable.tracks_readChange (table : String) :
    Tracks c c.Guarded (AlterTable.readChange table) (AlterTable.readChange table) := by
  refine .bind (.accept _) fun _ => .ite ?_ (.bind (.accept _) fun _ => .ite ?_ ?_)
  · refine .bind Addition.tracks_readAll fun _ => .bind (.repeatWhile Addition.stable_continues ?_)
      fun _ => .pure _
    exact .bind .skip fun _ => .bind .skip fun _ => Addition.tracks_readAll
  · exact .bind Drop.tracks_read fun _ => .pure _
  refine .bind (.accept _) fun _ => .ite (.bind Rename.tracks_read fun _ => .pure _) ?_
  refine .bind (.accept _) fun _ => .ite (.bind tracks_readModifiedColumns fun _ => .pure _) ?_
  refine .bind Storage.tracks_readTableOptions fun _ => .ite ?_ (.pure _)
  exact .next fun t => .reject t

theorem AlterTable.tracks_read : Tracks c (fun _ => True) AlterTable.read AlterTable.read :=
  .bind .name fun _ => .bind (AlterTable.tracks_readChange _) fun _ => .result .terminator _

theorem AlterIndex.tracks_read : Tracks c (fun _ => True) AlterIndex.read AlterIndex.read := by
  refine .bind .name fun _ => .bind Storage.tracks_readIndexOptions fun _ => .ite ?_ ?_
  · exact .next fun t => .reject_bind t
  · exact .result .terminator _

theorem Comment.tracks_read : Tracks c (fun _ => True) Comment.read Comment.read := by
  refine .bind (.discard_expect _) fun _ => .next fun t =>
    .ite (.reject_bind t) ?_
  exact .bind .name fun _ => .bind (.discard_expect _) fun _ => .bind tracks_readString fun _ =>
    .result .terminator _

theorem Insert.tracks_read : Tracks c (fun _ => True) Insert.read Insert.read := by
  refine .bind (.discard_expect _) fun _ => .bind .name fun _ => .nextKind fun _ => .ite ?_ ?_
  · exact .bind .nameList fun _ => .bind (.discard_expect _) fun _ =>
      .bind (.parenthesized (.commaSeparated tracks_readValue)) fun _ => .result .terminator _
  · exact .bind (.pure _) fun _ => .bind (.discard_expect _) fun _ =>
      .bind (.parenthesized (.commaSeparated tracks_readValue)) fun _ => .result .terminator _

/-- A statement takes a token or more, and what follows it has no part in it. -/
theorem Statement.carries_read : Carries c 1 Statement.read Statement.read := by
  refine .next fun t => ?_
  rcases t with ⟨kind, value, line, offset⟩
  dsimp only [Context.move, Token.moved]
  split
  · exact .pure _
  all_goals refine Tracks.carries ?_
  · refine .bind (.accept _) fun _ => .ite ?_ tracks_readCreated
    exact .bind (.discard_expect _) fun _ => tracks_readCreated
  · refine .bind (.accept _) fun _ => .ite (.result AlterIndex.tracks_read _) ?_
    exact .bind (.discard_expect _) fun _ => .result AlterTable.tracks_read _
  · exact .bind Drop.tracks_read fun _ => .result .terminator _
  · exact .result Comment.tracks_read _
  · exact .result Insert.tracks_read _
  · exact .result .terminator _
  · exact .reject _

end SchemaScript
