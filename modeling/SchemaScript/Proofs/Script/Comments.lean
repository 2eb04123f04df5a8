import SchemaScript.Proofs.Script.Segments
import SchemaScript.Proofs.Script.Strings

/-!
# Comments that are written

A comment is read without the word for what it is on. That word is written anew, by the target
alone.

* `Comment.object` — the word that is written for a target: `COLUMN` if the target has a dot.
* `Comment.words_on` — the words of the comment on a target.
* `Script.words_comment_iff` — a comment keeps its target and its text, and the word for what it is
  on just if that is the word for the target. -/

set_option autoImplicit false

namespace SchemaScript

open Reader

/-- The word for what a comment is on, by its target. -/
def Comment.object (target : String) : Keyword := if '.' ∈ target.toList then .column else .table

theorem Comment.object_eq_iff {target : String} {k : Keyword} (hk : k = .table ∨ k = .column) :
    Comment.object target = k ↔ (k = .column ↔ '.' ∈ target.toList) := by
  unfold Comment.object
  split <;> rcases hk with rfl | rfl <;> simp_all

/-- The words of a comment name its target in one. -/
theorem Comment.words_on (target text : String) : (Comment.on target text).words =
    [Keyword.on.word, (Comment.object target).word, Word.ofText target, Keyword.is.word,
      Word.quoted text, Word.semicolon] := by
  by_cases hdot : '.' ∈ target.toList
  · obtain ⟨owner, part, hsplit, howner⟩ := List.eq_append_cons_of_mem hdot
    have htarget : target = String.ofList owner ++ "." ++ String.ofList part := by
      rw [← String.toList_inj, hsplit]
      simp
    have hon : Comment.on target text = .column (String.ofList owner) (String.ofList part) text := by
      rw [htarget]
      exact Comment.on_column (by simpa using howner) _ text
    rw [hon, Comment.words, ← htarget, Comment.object, if_pos hdot]
  · rw [Comment.on_table hdot, Comment.words, Comment.object, if_neg hdot]

theorem Comment.native_on (target text : String) :
    (Comment.on target text).native = Comment.on target (Text.collapse text) := by
  unfold Comment.on
  split <;> rfl

/-! ## What is read -/

section Reading

variable {k : Keyword} {n v : Word} {content : String}

theorem runsTo_readString_word (hv : v.string? = some content) (ws : List Word) :
    RunsTo readString (v :: ws) content ws := by
  refine .next fun t ht => ?_
  subst ht
  obtain ⟨kind, value, line, offset⟩ := t
  cases kind with
  | singleQuoted =>
    obtain rfl := Option.some.inj hv
    exact .pure _ ws
  | doubleQuoted =>
    obtain rfl := Option.some.inj hv
    exact .pure _ ws
  | _ => cases hv

/-- A comment is read from its words, whichever of the two words is there for what it is on. -/
theorem Comment.runsTo_on (hk : k = .table ∨ k = .column) (hn : n.kind.isName)
    (hv : v.string? = some content) :
    RunsTo Statement.read [Keyword.comment.word, Keyword.on.word, k.word, n, Keyword.is.word, v,
      Word.semicolon] (.comment (.on n.value content)) [] := by
  refine .nextWord fun t ht => ?_
  simp only [ht]
  refine .bind (.bind (.discard_expect rfl) (.nextWord fun u hu => ?_)) (.pure _ _)
  have hobject : ¬ (u.kind ≠ .keyword .table ∧ u.kind ≠ .keyword .column) := by
    rw [hu]
    rintro ⟨htable, hcolumn⟩
    rcases hk with rfl | rfl
    · exact htable rfl
    · exact hcolumn rfl
  rw [if_neg hobject]
  exact .bind (.name hn rfl) (.bind (.discard_expect rfl) (.bind (runsTo_readString_word hv _)
    (.bind (.discard_expect rfl) (.pure _ _))))

end Reading

/-! ## What is written -/

theorem Script.native_comment (t : Target) (o : WriteOptions) (c : Comment) :
    Script.native t o ⟨[.comment c]⟩ = ⟨[.comment c.native]⟩ := by
  have harranged : Script.arranged t o ⟨[.comment c]⟩ = [.comment c] := by
    rw [Script.arranged]
    split
    · exact List.mergeSort_singleton _
    · rfl
  rw [Script.native, harranged]
  rfl

theorem Script.calls_comment (c : Comment) : Script.calls ⟨[.comment c]⟩ = [] := by
  cases c <;> rfl

/-- **A comment keeps its target and its text, but not always what it is on.** The text of a
comment, with either of the words `TABLE` and `COLUMN`, any name for its target and any string
without an empty line, is a script. In both dialects, whatever the options, it is written as a
comment on the same target with a string of the same content. The word for what it is on stays the
same just if it is `COLUMN` for a target with a dot and `TABLE` for one without. -/
theorem Script.words_comment_iff (t : Target) (o : WriteOptions) {text : String} {k : Keyword}
    {n v : Word} {content : String} (hk : k = .table ∨ k = .column) (hn : n.kind.isName)
    (hv : v.string? = some content) (hlines : ¬ ['\n', '\n'] <:+: content.toList)
    (hwords : Scan.words text.toList = [Keyword.comment.word, Keyword.on.word, k.word, n,
      Keyword.is.word, v, Word.semicolon]) :
    ∃ s out k' v', Script.parse text = .ok s ∧ s.writeFor t o = .ok out ∧
      Scan.words out.toList = [Keyword.comment.word, Keyword.on.word, Keyword.word k', n,
        Keyword.is.word, v', Word.semicolon] ∧
      v'.string? = some content ∧ (k' = .table ∨ k' = .column) ∧
      (k' = k ↔ (k = .column ↔ '.' ∈ n.value.toList)) := by
  obtain ⟨rest, hrest, hread⟩ := Comment.runsTo_on hk hn hv (tokenize text).1 hwords
  rw [List.map_eq_nil_iff.mp hrest] at hread
  have hparse : Script.parse text = .ok ⟨[.comment (.on n.value content)]⟩ :=
    Script.parse_eq_single.mpr hread
  have hcalls : ∀ call ∈ Script.calls ⟨[.comment (.on n.value content)]⟩, t.NamesSequence call := by
    rw [Script.calls_comment]
    exact List.forall_mem_nil _
  obtain ⟨out, hout, hwritten, -⟩ :=
    Target.words_script (o := o) (Script.writable_of_parse hparse hcalls)
  have htarget : Word.ofText n.value = n := by
    have hmem : n ∈ Scan.words text.toList := by simp [hwords]
    exact (Word.Inline.of_isName (Scan.lexical_of_mem_words hmem) hn).ofText_eq
  refine ⟨_, out, Comment.object n.value, Word.quoted content, hparse, ?_, ?_,
    Word.string?_quoted content, ?_, Comment.object_eq_iff hk⟩
  · rw [Script.writeFor_eq, hout]
  · calc Scan.words out.toList
        = Keyword.comment.word :: (Comment.on n.value (Text.collapse content)).words := by
          rw [hwritten, Script.native_comment, Comment.native_on]
          simp [Statement.lineWords, Statement.words]
      _ = _ := by rw [Comment.words_on, Text.collapse_of_not_infix hlines, htarget]
  · unfold Comment.object
    split
    · exact .inr rfl
    · exact .inl rfl

/-- A comment on a column, whose text has a quote in it, stays one. -/
theorem Script.words_comment_column :
    ∃ s out v, Script.parse "COMMENT ON COLUMN t.date IS \"it's\";" = .ok s ∧
      s.writeFor .postgres {} = .ok out ∧
      Scan.words out.toList = [Keyword.comment.word, Keyword.on.word, Keyword.column.word,
        ⟨.identifier, "t.date"⟩, Keyword.is.word, v, Word.semicolon] ∧
      v.string? = some "it's" := by
  have hlines : ¬ ['\n', '\n'] <:+: "it's".toList := by decide
  obtain ⟨s, out, k, v, hparse, hout, hwords, hv, -, hiff⟩ := Script.words_comment_iff .postgres {}
    (n := ⟨.identifier, "t.date"⟩) (v := ⟨.doubleQuoted, "\"it's\""⟩) (.inr rfl) rfl rfl hlines
    (show Scan.words "COMMENT ON COLUMN t.date IS \"it's\";".toList = _ by decide +kernel)
  obtain rfl : k = .column := hiff.mpr (iff_of_true rfl (by decide))
  exact ⟨s, out, v, hparse, hout, hwords, hv⟩

/-- A comment on a table that is named with its schema is written as one on a column. -/
theorem Script.words_comment_schema :
    Script.parse "COMMENT ON TABLE s.t IS 'x';" = .ok ⟨[.comment (.column "s" "t" "x")]⟩ ∧
      Script.writeFor .oracle {} ⟨[.comment (.column "s" "t" "x")]⟩ =
        .ok "COMMENT ON COLUMN s.t IS 'x';\n" := by
  constructor <;> decide +kernel

end SchemaScript
