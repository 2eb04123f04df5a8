import SchemaScript.Proofs.Dialect.Literal
import SchemaScript.Proofs.Token.Layout
import SchemaScript.Statement.Read

/-!
# Quoted literals, written and read

A text is put in quotes by writing each of its quotes twice. The scan finds the end of a literal by
taking quotes in pairs, and the reader halves them again.

* `Encodes literal string` — in front of anything but one more quote, the literal is one token, and
  the string is read from it.
* `encodes_quoted`, `Token.reads_quoted` — the quoted form of a text encodes it, and every literal
  in single quotes is the quoted form of what is read from it.
* `Target.nativeLiteral_nativeLiteral` — a dialect leaves its own literals alone.
* `quoted_codec` — these together.
-/

set_option autoImplicit false

namespace SchemaScript

open Text (quoted singleQuoted?)

/-! ## Reading a literal -/

/-- A string is read from a token, whatever follows it. -/
def Token.Reads (t : Token) (string : String) : Prop :=
  ∀ ts, readString (t :: ts) = .ok (string, ts)

theorem Text.unwrapped_quoted (s : String) : unwrapped (quoted s) = double s.toList := by
  rw [unwrapped, toList_quoted, List.tail_cons, List.dropLast_concat]

theorem Token.reads_quoted {t : Token} {s : String} (hkind : t.kind = .singleQuoted)
    (hvalue : t.value = quoted s) : t.Reads s := by
  obtain ⟨kind, value, line, offset⟩ := t
  cases hkind
  cases hvalue
  intro ts
  change Except.ok (String.ofList (Text.undouble (Text.unwrapped (quoted s))), ts) = _
  rw [Text.unwrapped_quoted, Text.undouble_double, String.ofList_toList]

/-- In front of any text that does not open with one more quote, a literal is one token in single
quotes, the tokens of that text follow, and a string is read from the literal. -/
def Encodes (literal string : String) : Prop :=
  ∀ rest : String, rest.toList.head? ≠ some '\'' →
    ∃ others, (tokenize (literal ++ rest)).1 = ⟨.singleQuoted, literal, 1, 0⟩ :: others ∧
      others.map Token.word = (tokenize rest).1.map Token.word ∧
      readString (tokenize (literal ++ rest)).1 = .ok (string, others)

/-- **The quoted form of a text encodes it.** -/
theorem encodes_quoted (s : String) : Encodes (quoted s) s := by
  intro rest hrest
  have hlexeme : Scan.Lexeme .singleQuoted (quoted s).toList (quoted s) rest.toList := by
    have hplain := Scan.Lexeme.plain (.singleQuoted s hrest)
    rwa [String.ofList_toList] at hplain
  have hgap : Scan.IsGap [] ((quoted s).toList ++ rest.toList) := by
    refine .nil ?_
    simp [Scan.OpensGap, Text.toList_quoted, Text.isBlank]
  have hpieces := Scan.pieces_lexeme hgap hlexeme .start
  rw [List.nil_append, Text.Position.after_nil, ← String.toList_append] at hpieces
  have htokens : (tokenize (quoted s ++ rest)).1 = ⟨.singleQuoted, quoted s, 1, 0⟩ ::
      Scan.tokensOf (Scan.pieces (Text.Position.start.after (quoted s).toList) rest.toList) := by
    rw [tokenize, hpieces]
    rfl
  refine ⟨_, htokens, Scan.wordsAt_eq _ _ rest.toList, ?_⟩
  rw [htokens]
  exact Token.reads_quoted rfl rfl _

/-! ## The tokens in quotes -/

/-- The words in quotes, by the kind of the quotes. -/
theorem Word.Lexical.quoted_cases {w : Word} (hw : w.Lexical)
    (hkind : w.kind = .singleQuoted ∨ w.kind = .doubleQuoted) :
    (w.kind = .singleQuoted ∧ ∃ s, w.value = quoted s) ∨
      (w.kind = .doubleQuoted ∧ ∃ content, w.value.toList = '"' :: content ++ ['"']) := by
  cases hw with
  | singleQuoted s hv hk => exact .inl ⟨hk, s, hv⟩
  | doubleQuoted content _ hv hk => exact .inr ⟨hk, content, hv⟩
  | word _ hk =>
    unfold Scan.wordKind at hk
    split at hk <;> simp [hk] at hkind
  | sign hv => rcases hkind with hk | hk <;> simp [hk, TokenKind.sign?] at hv
  | digits _ hk | placeholder _ hk | inclusion _ _ hk => simp [hk] at hkind

section Tokens

variable {text : String} {t : Token}

theorem Token.lexical_of_mem (ht : t ∈ (tokenize text).1) : t.word.Lexical :=
  Scan.lexical_of_mem_words (List.mem_map_of_mem ht : t.word ∈ Scan.words text.toList)

/-- A token in single quotes is the quoted form of a text. -/
theorem Token.exists_quoted (ht : t ∈ (tokenize text).1) (hkind : t.kind = .singleQuoted) :
    ∃ s, t.value = quoted s := by
  rcases (Token.lexical_of_mem ht).quoted_cases (.inl hkind) with ⟨-, hs⟩ | ⟨hdouble, -⟩
  · exact hs
  · rw [Token.word_kind, hkind] at hdouble
    cases hdouble

/-- A token in double quotes is a text with a quote in front of it and one behind it. -/
theorem Token.exists_content (ht : t ∈ (tokenize text).1) (hkind : t.kind = .doubleQuoted) :
    ∃ content, t.value.toList = '"' :: content ++ ['"'] := by
  rcases (Token.lexical_of_mem ht).quoted_cases (.inr hkind) with ⟨hsingle, -⟩ | ⟨-, hcontent⟩
  · rw [Token.word_kind, hkind] at hsingle
    cases hsingle
  · exact hcontent

end Tokens

/-! ## Literals in a dialect -/

/-- A text between two quotes of one kind has a single-quoted form. -/
theorem Text.exists_singleQuoted {v : String} {c : Char} {content : List Char}
    (hc : c = '\'' ∨ c = '"') (hv : v.toList = c :: content ++ [c]) :
    ∃ q, singleQuoted? v = some q := by
  rcases hc with rfl | rfl
  · exact ⟨v, by simp [singleQuoted?, hv]⟩
  · exact ⟨_, singleQuoted?_doubleQuoted hv⟩

/-- The single-quoted form of a literal is its own. -/
theorem Text.singleQuoted?_of_eq_some {v q : String} (h : singleQuoted? v = some q) :
    singleQuoted? q = some q := by
  unfold singleQuoted? at h
  split at h
  · split at h
    · cases h
      unfold singleQuoted?
      simp_all
    · cases h
  · split at h
    · cases h
      exact singleQuoted?_quoted _
    · cases h
  · cases h

namespace Target

variable {t : Target} {v : String}

theorem nativeLiteral_of_quoted {q : String} (h : singleQuoted? v = some q) :
    t.dialect.nativeLiteral v = q := by
  cases t with
  | oracle => rw [nativeLiteral_oracle, Oracle.nativeLiteral_of_quoted h]
  | postgres => rw [nativeLiteral_postgres, Postgres.nativeLiteral_of_quoted h]

theorem nativeLiteral_of_word (h : singleQuoted? v = none)
    (hseq : t = .postgres → Postgres.sequenceOf? v = none) :
    t.dialect.nativeLiteral v = t.nativeWord v := by
  cases t with
  | oracle => rw [nativeLiteral_oracle, Oracle.nativeLiteral_of_unquoted h]
  | postgres => rw [nativeLiteral_postgres, Postgres.nativeLiteral_of_unquoted h (hseq rfl)]

/-- A dialect knows the words that it has for points in time. -/
theorem nativeLiteral_dateWord {k d : Keyword} (h : t.dateWord? k = some d) :
    t.dialect.nativeLiteral d.name = d.name := by
  rcases dateWord?_eq_some h with ⟨rfl, rfl⟩ | ⟨rfl, rfl⟩
  · decide
  · decide

theorem nativeLiteral_nativeWord (h : singleQuoted? v = none)
    (hseq : t = .postgres → Postgres.sequenceOf? v = none) :
    t.dialect.nativeLiteral (t.nativeWord v) = t.nativeWord v := by
  cases hk : (Keyword.ofWord? v).bind t.dateWord? with
  | none =>
    have hv : t.nativeWord v = v := by rw [nativeWord, hk]; rfl
    rw [hv, nativeLiteral_of_word h hseq, hv]
  | some d =>
    have hv : t.nativeWord v = d.name := by rw [nativeWord, hk]; rfl
    obtain ⟨k, -, hd⟩ := Option.bind_eq_some_iff.mp hk
    rw [hv, nativeLiteral_dateWord hd]

end Target

/-- The call for the next value of a sequence is native: it opens neither with a quote nor as the
word for the present does, and it does not end as the literal for such a value does. -/
theorem Postgres.nativeLiteral_nextval (sequence : String) :
    nativeLiteral ("nextval('" ++ sequence ++ "')") = "nextval('" ++ sequence ++ "')" := by
  generalize hv : "nextval('" ++ sequence ++ "')" = v
  have hhead : v.toList.head? = some 'n' := by simp [← hv]
  have hlast : v.toList.getLast? = some ')' := by
    rw [← hv, String.toList_append, List.getLast?_append]
    rfl
  have hquoted : singleQuoted? v = none :=
    Text.singleQuoted?_eq_none (by simp [hhead]) (by simp [hhead])
  have hseq : sequenceOf? v = none := by
    cases h : sequenceOf? v with
    | none => rfl
    | some s =>
      obtain ⟨suffix, hsplit, hsuffix⟩ := sequenceOf?_eq_some h
      have hend : suffix.getLast?.map Char.toLower = some 'l' := by
        rw [← List.getLast?_map, hsuffix]
        rfl
      obtain ⟨c, hc, hlower⟩ := Option.map_eq_some_iff.mp hend
      rw [hsplit, List.getLast?_append, hc, Option.some_or] at hlast
      cases hlast
      exact absurd hlower (by decide)
  have hsame : ¬ Text.sameName v "sysdate" := by
    intro h
    rw [Text.sameName_iff, Text.lower] at h
    have hfirst := congrArg (·.toList.head?) h
    rw [String.toList_ofList, List.head?_map, hhead] at hfirst
    exact absurd hfirst (by decide)
  unfold nativeLiteral
  rw [hquoted, hseq]
  exact if_neg hsame

/-- **A dialect leaves its own literals alone.** -/
theorem Target.nativeLiteral_nativeLiteral (t : Target) (v : String) :
    t.dialect.nativeLiteral (t.dialect.nativeLiteral v) = t.dialect.nativeLiteral v := by
  cases hq : singleQuoted? v with
  | some q => rw [nativeLiteral_of_quoted hq, nativeLiteral_of_quoted (Text.singleQuoted?_of_eq_some hq)]
  | none =>
    cases hseq : if t = .postgres then Postgres.sequenceOf? v else none with
    | none =>
      have hseq : t = .postgres → Postgres.sequenceOf? v = none := by
        rintro rfl
        rwa [if_pos rfl] at hseq
      rw [nativeLiteral_of_word hq hseq, nativeLiteral_nativeWord hq hseq]
    | some sequence =>
      split at hseq
      · rename_i ht
        subst ht
        rw [nativeLiteral_postgres, Postgres.nativeLiteral_of_sequence hq hseq,
          Postgres.nativeLiteral_nextval]
      · cases hseq

/-! ## The codec -/

/-- **What is put in quotes is found and read back, and what is found in quotes is the quoted form
of what is read from it.** The single-quoted form of a literal in double quotes encodes the text
between these. The dialects leave literals in single quotes as they are, give every literal in
quotes the same form, and leave what they have written alone. -/
theorem quoted_codec :
    (∀ s, Encodes (quoted s) s) ∧
    (∀ text, ∀ t ∈ (tokenize text).1, t.kind = .singleQuoted →
      (∃ s, t.Reads s ∧ quoted s = t.value) ∧
        ∀ target : Target, target.dialect.nativeLiteral t.value = t.value) ∧
    (∀ text, ∀ t ∈ (tokenize text).1, t.kind = .doubleQuoted →
      ∃ content literal, t.value.toList = '"' :: content ++ ['"'] ∧
        singleQuoted? t.value = some literal ∧ Encodes literal (String.ofList content)) ∧
    (∀ (v : String) (c : Char) (content : List Char), c = '\'' ∨ c = '"' →
      v.toList = c :: content ++ [c] →
        ∃ literal, singleQuoted? v = some literal ∧
          ∀ target : Target, target.dialect.nativeLiteral v = literal) ∧
    ∀ (target : Target) (v : String),
      target.dialect.nativeLiteral (target.dialect.nativeLiteral v) =
        target.dialect.nativeLiteral v := by
  refine ⟨encodes_quoted, ?_, ?_, ?_, Target.nativeLiteral_nativeLiteral⟩
  · intro text t ht hkind
    obtain ⟨s, hs⟩ := Token.exists_quoted ht hkind
    refine ⟨⟨s, Token.reads_quoted hkind hs, hs.symm⟩, fun target => ?_⟩
    exact Target.nativeLiteral_of_quoted (by rw [hs, Text.singleQuoted?_quoted])
  · intro text t ht hkind
    obtain ⟨content, hcontent⟩ := Token.exists_content ht hkind
    exact ⟨content, _, hcontent, Text.singleQuoted?_doubleQuoted hcontent, encodes_quoted _⟩
  · intro v c content hc hv
    obtain ⟨literal, hliteral⟩ := Text.exists_singleQuoted hc hv
    exact ⟨literal, hliteral, fun target => Target.nativeLiteral_of_quoted hliteral⟩

/-- Quotes at both ends of a text, and a quote between double quotes. -/
theorem quoted_codec_quotes :
    (∃ others, (tokenize "'''a''';").1 = ⟨.singleQuoted, "'''a'''", 1, 0⟩ :: others ∧
      readString (tokenize "'''a''';").1 = .ok ("'a'", others)) ∧
    (∃ s, Token.Reads ⟨.singleQuoted, "'''a'''", 1, 0⟩ s ∧ quoted s = "'''a'''") ∧
    (∃ content literal, "\"'\"".toList = '"' :: content ++ ['"'] ∧
      singleQuoted? "\"'\"" = some literal ∧ Encodes literal (String.ofList content)) ∧
    Oracle.nativeLiteral "\"'\"" = Postgres.nativeLiteral "\"'\"" := by
  obtain ⟨hquoted, hsingle, hdouble, hagree, -⟩ := quoted_codec
  have htokens : (tokenize "'''a''' \"'\"").1 =
      [⟨.singleQuoted, "'''a'''", 1, 0⟩, ⟨.doubleQuoted, "\"'\"", 1, 8⟩] := by decide +kernel
  refine ⟨?_, ?_, ?_, ?_⟩
  · obtain ⟨others, hfirst, -, hread⟩ := hquoted "'a'" ";" (by decide)
    exact ⟨others, hfirst, hread⟩
  · exact (hsingle "'''a''' \"'\"" _ (by rw [htokens]; exact List.mem_cons_self) rfl).1
  · exact hdouble "'''a''' \"'\"" ⟨.doubleQuoted, "\"'\"", 1, 8⟩ (by rw [htokens]; simp) rfl
  · obtain ⟨literal, -, hliteral⟩ := hagree "\"'\"" '"' ['\''] (.inr rfl) (by decide)
    exact (hliteral .oracle).trans (hliteral .postgres).symm

end SchemaScript
