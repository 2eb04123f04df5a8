import SchemaScript.Proofs.Token.Gap

/-!
# Words

A word is a token without its place. The reading of a script looks at words alone, so that a text
and its layout matter only through the words that the scan gives.

* `Word`, `Scan.words` — words, and those of a text.
* `Word.Lexical` — the words that a scan can give, each class with the shape of its texts.
* `Scan.lexical_of_mem_words` — the words of any text are such words.
* `Scan.words_append` — the text of a word, in front of a text that opens with a delimiter, scans as
  that word and nothing more.
-/

set_option autoImplicit false

namespace SchemaScript

/-- A token without its place. -/
structure Word where
  kind : TokenKind
  value : String
  deriving DecidableEq, Repr

/-- The word that a token is. -/
def Token.word (t : Token) : Word := ⟨t.kind, t.value⟩

@[simp] theorem Token.word_kind (t : Token) : t.word.kind = t.kind := rfl

@[simp] theorem Token.word_value (t : Token) : t.word.value = t.value := rfl

namespace Scan

/-! ## The words of a text -/

section Pieces

variable {p : Text.Position} {cs rest : List Char} {c : Char} {kind : TokenKind} {n : Nat}

theorem pieces_nil (hgap : (gap cs).2 = []) : pieces p cs = [] := by
  rw [pieces.eq_def]
  split <;> simp_all

theorem pieces_token (hgap : (gap cs).2 = c :: rest) (hlex : lexeme? (c :: rest) = some (kind, n)) :
    pieces p cs =
      .token ⟨kind, tokenValue kind ((c :: rest).take n), (p.after (gap cs).1).line,
        (p.after (gap cs).1).offset⟩ ::
      pieces ((p.after (gap cs).1).after ((c :: rest).take n)) ((c :: rest).drop n) := by
  rw [pieces.eq_def]
  split
  · simp_all
  · rename_i hgap'
    rw [hgap, List.cons.injEq] at hgap'
    obtain ⟨rfl, rfl⟩ := hgap'
    split <;> simp_all

theorem pieces_stray (hgap : (gap cs).2 = c :: rest) (hlex : lexeme? (c :: rest) = none) :
    pieces p cs =
      .stray c (p.after (gap cs).1) :: pieces ((p.after (gap cs).1).after [c]) rest := by
  rw [pieces.eq_def]
  split
  · simp_all
  · rename_i hgap'
    rw [hgap, List.cons.injEq] at hgap'
    obtain ⟨rfl, rfl⟩ := hgap'
    split <;> simp_all

end Pieces

/-- The words of a text that starts at a place. -/
def wordsAt (p : Text.Position) (cs : List Char) : List Word :=
  (tokensOf (pieces p cs)).map Token.word

/-- The words of a text. -/
def words (cs : List Char) : List Word := wordsAt .start cs

/-- The words of a text that opens with no blank and no comment. -/
def wordsHere : List Char → List Word
  | [] => []
  | c :: rest =>
    match lexeme? (c :: rest) with
    | some (kind, n) =>
      ⟨kind, tokenValue kind ((c :: rest).take n)⟩ :: words ((c :: rest).drop n)
    | none => words rest

/-- The place at which a text starts does not change its words. -/
theorem wordsAt_eq (p q : Text.Position) (cs : List Char) : wordsAt p cs = wordsAt q cs := by
  match hgap : (gap cs).2 with
  | [] => simp only [wordsAt, pieces_nil hgap]
  | c :: rest =>
    have hlt := length_rest_lt hgap
    cases hlex : lexeme? (c :: rest) with
    | none =>
      have ih := wordsAt_eq ((p.after (gap cs).1).after [c]) ((q.after (gap cs).1).after [c]) rest
      simpa only [wordsAt, pieces_stray hgap hlex, tokensOf, List.filterMap_cons] using ih
    | some found =>
      obtain ⟨kind, n⟩ := found
      have hpos := lexeme?_pos hlex
      have ih := wordsAt_eq ((p.after (gap cs).1).after ((c :: rest).take n))
        ((q.after (gap cs).1).after ((c :: rest).take n)) ((c :: rest).drop n)
      simpa only [wordsAt, pieces_token hgap hlex, tokensOf, List.filterMap_cons, List.map_cons,
        Token.word, List.cons.injEq, true_and] using ih
termination_by cs.length
decreasing_by
  · exact hlt
  · simp only [List.length_drop, List.length_cons]
    omega

theorem words_eq (cs : List Char) : words cs = wordsHere (gap cs).2 := by
  match hgap : (gap cs).2 with
  | [] => simp [words, wordsAt, wordsHere, pieces_nil hgap, tokensOf]
  | c :: rest =>
    cases hlex : lexeme? (c :: rest) with
    | none =>
      simp only [wordsHere, hlex, words, wordsAt, pieces_stray hgap hlex, tokensOf,
        List.filterMap_cons]
      exact wordsAt_eq _ _ rest
    | some found =>
      obtain ⟨kind, n⟩ := found
      simp only [wordsHere, hlex, words, wordsAt, pieces_token hgap hlex, tokensOf,
        List.filterMap_cons, List.map_cons, Token.word, List.cons.injEq, true_and]
      exact wordsAt_eq _ _ _

/-! ## Blanks between words -/

theorem words_blank {c : Char} {cs : List Char} (hc : Text.isBlank c) :
    words (c :: cs) = words cs := by
  simp only [words_eq, gap, List.splitAt_eq, gapLength_isBlank hc, List.drop_succ_cons]

theorem words_of_no_gap {cs : List Char} (h : gapLength .blank cs = 0) :
    words cs = wordsHere cs := by
  simp [words_eq, gap, List.splitAt_eq, h]

/-- The first word of a text that opens with a lexeme, and the words behind it. -/
theorem words_lexeme {lexeme rest : List Char} {kind : TokenKind} {value : String}
    (hgap : gapLength .blank (lexeme ++ rest) = 0) (h : Lexeme kind lexeme value rest) :
    words (lexeme ++ rest) = ⟨kind, value⟩ :: words rest := by
  obtain ⟨hlex, hvalue⟩ := h.read
  obtain ⟨c, cs, rfl⟩ := List.exists_cons_of_length_pos (lexeme?_pos hlex)
  rw [List.cons_append] at hlex
  rw [words_of_no_gap hgap, List.cons_append, wordsHere, hlex]
  simp only [← List.cons_append, List.take_left, List.drop_left, hvalue]

/-! ## The shapes of words -/

/-- The shape of placeholders. -/
def isPlaceholder : List Char → Bool
  | '[' :: '[' :: cs => placeholderLength cs == some cs.length
  | _ => false

end Scan

/-- The words that a scan can give, by class. -/
inductive Word.Lexical (w : Word) : Prop
  | word (hv : Scan.isWord w.value.toList) (hk : w.kind = Scan.wordKind w.value.toList)
  | digits (hv : Scan.isNumeral w.value.toList) (hk : w.kind = .digits)
  | singleQuoted (content : String) (hv : w.value = Text.quoted content)
      (hk : w.kind = .singleQuoted)
  | doubleQuoted (content : List Char) (hc : '"' ∉ content)
      (hv : w.value.toList = '"' :: content ++ ['"']) (hk : w.kind = .doubleQuoted)
  | placeholder (hv : Scan.isPlaceholder w.value.toList) (hk : w.kind = .placeholder)
  | inclusion (hv : Text.trimChars Text.isBlank w.value.toList = w.value.toList)
      (hn : '\n' ∉ w.value.toList) (hk : w.kind = .inclusion)
  | sign (hv : w.kind.sign? = some w.value)

namespace Scan

/-! ## Every lexeme has the shape of its class -/

theorem Lexeme.lexical {kind : TokenKind} {lexeme rest : List Char} {value : String}
    (h : Lexeme kind lexeme value rest) : Word.Lexical ⟨kind, value⟩ := by
  have hpath : ∀ path : List Char, '\n' ∉ path →
      Word.Lexical ⟨.inclusion, Text.trim (String.ofList path)⟩ := by
    intro path hline
    refine .inclusion ?_ ?_ rfl
    · simp [Text.trim, Text.trimChars_trimChars]
    · simpa [Text.trim] using fun hmem => hline (Text.mem_of_mem_trimChars hmem)
  cases h with
  | inclusion _ hline _ => exact hpath _ hline
  | longInclusion _ _ _ _ hline _ => exact hpath _ hline
  | plain h =>
    cases h with
    | singleQuoted content _ => exact .singleQuoted content (String.ofList_toList) rfl
    | doubleQuoted hcontent => exact .doubleQuoted _ hcontent (String.toList_ofList) rfl
    | placeholder hcontent hline =>
      refine .placeholder ?_ rfl
      have hread := placeholderLength_content hcontent hline []
      simp [isPlaceholder, hread]
    | word hword _ => exact .word (by simpa using hword) (by simp)
    | digits hdigits _ => exact .digits (by simpa using hdigits) rfl
    | sign hsign _ => exact .sign (by simpa using hsign)

/-- Every lexeme has the shape of its class. -/
theorem lexical_of_lexeme {cs : List Char} {kind : TokenKind} {n : Nat}
    (h : lexeme? cs = some (kind, n)) :
    Word.Lexical ⟨kind, tokenValue kind (cs.take n)⟩ := by
  obtain ⟨value, hlexeme⟩ := exists_lexeme h
  rw [hlexeme.read.2]
  exact hlexeme.lexical

/-- The words of any text have the shapes of their classes. -/
theorem lexical_of_mem_words {cs : List Char} {w : Word} (hw : w ∈ words cs) : w.Lexical := by
  rw [words_eq] at hw
  match hgap : (gap cs).2 with
  | [] => simp [hgap, wordsHere] at hw
  | c :: rest =>
    have hlt := length_rest_lt hgap
    rw [hgap, wordsHere] at hw
    split at hw
    · rename_i kind n hlex
      have hpos := lexeme?_pos hlex
      rcases List.mem_cons.mp hw with rfl | hmem
      · exact lexical_of_lexeme hlex
      · exact lexical_of_mem_words hmem
    · exact lexical_of_mem_words hw
termination_by cs.length
decreasing_by
  · simp only [List.length_drop, List.length_cons]
    omega
  · exact hlt

/-! ## The text of a word scans as that word -/

/-- The characters that end a word, a number or a sign, and continue no literal. -/
def isDelimiter (c : Char) : Bool :=
  c == ' ' || c == '\n' || c == '(' || c == ')' || c == ',' || c == ';'

/-- A text that is empty or opens with a delimiter. -/
def Delimited (cs : List Char) : Prop := ∀ c ∈ cs.head?, isDelimiter c

theorem Delimited.head_false {cs : List Char} (h : Delimited cs) {p : Char → Bool}
    (hp : ∀ c, isDelimiter c → p c = false) : ∀ c ∈ cs.head?, p c = false :=
  fun c hc => hp c (h c hc)

theorem Delimited.head_ne {cs : List Char} (h : Delimited cs) {d : Char}
    (hd : isDelimiter d = false) : cs.head? ≠ some d :=
  fun hc => by simpa [hd] using h d hc

theorem isWordChar_of_isDelimiter (c : Char) (h : isDelimiter c) : isWordChar c = false := by
  simp only [isDelimiter, Bool.or_eq_true, beq_iff_eq] at h
  rcases h with ((((rfl | rfl) | rfl) | rfl) | rfl) | rfl <;> decide

theorem isDigit_of_isDelimiter (c : Char) (h : isDelimiter c) : c.isDigit = false := by
  simp only [isDelimiter, Bool.or_eq_true, beq_iff_eq] at h
  rcases h with ((((rfl | rfl) | rfl) | rfl) | rfl) | rfl <;> decide

theorem extendedBy_of_isDelimiter (kind : TokenKind) (c : Char) (h : isDelimiter c) :
    kind.extendedBy c = false := by
  have hequal : (c == '=') = false := by
    simp only [isDelimiter, Bool.or_eq_true, beq_iff_eq] at h
    rcases h with ((((rfl | rfl) | rfl) | rfl) | rfl) | rfl <;> decide
  unfold TokenKind.extendedBy
  split
  · exact hequal
  · exact hequal
  · exact isDigit_of_isDelimiter c h
  · rfl

theorem gapLength_isAlphanum {c : Char} (hc : c.isAlphanum) (cs : List Char) :
    gapLength .blank (c :: cs) = 0 := by
  have hne : ∀ d : Char, d.isAlphanum = false → c ≠ d := by
    rintro d hd rfl
    rw [hc] at hd
    cases hd
  refine gapLength_eq_zero (hne _ (by decide)) (hne _ (by decide)) (hne _ (by decide)) ?_
  have hrange : 48 ≤ c.toNat ∧ c.toNat ≤ 122 := by
    unfold Char.isAlphanum Char.isAlpha Char.isUpper Char.isLower Char.isDigit at hc
    simp only [Bool.or_eq_true, Bool.and_eq_true, decide_eq_true_eq, UInt32.le_iff_toNat_le] at hc
    simp only [Char.toNat]
    grind
  simp only [Text.isBlank, Bool.or_eq_false_iff, Bool.and_eq_false_iff, decide_eq_false_iff_not,
    beq_eq_false_iff_ne]
  omega

/-- The text of a word, in front of a text that opens with a delimiter, opens with no blank and no
comment. -/
theorem gapLength_append {w : Word} (hw : w.Lexical) (hk : w.kind ≠ .inclusion) {rest : List Char}
    (hr : Delimited rest) : gapLength .blank (w.value.toList ++ rest) = 0 := by
  obtain ⟨kind, v⟩ := w
  have hdash := hr.head_ne (d := '-') (by decide)
  cases hw with
  | word hv hkind =>
    simp only at hv ⊢
    cases hcs : v.toList with
    | nil => simp [hcs, isWord] at hv
    | cons c cs =>
      rw [hcs, isWord, Bool.and_eq_true] at hv
      exact gapLength_isAlphanum (by simp [Char.isAlphanum, hv.1]) _
  | digits hv hkind =>
    simp only at hv ⊢
    unfold isNumeral at hv
    split at hv
    · rename_i ds hds
      rw [hds]
      refine gapLength_dash ?_
      cases ds with
      | nil => simp [isDigits] at hv
      | cons c ds => rintro hc; simp_all [isDigits]
    · cases hcs : v.toList with
      | nil => simp [hcs, isDigits] at hv
      | cons c cs =>
        simp only [hcs, isDigits, List.all_cons, Bool.and_eq_true] at hv
        exact gapLength_isAlphanum (by simp [Char.isAlphanum, hv.2.1]) _
  | singleQuoted content hv hkind =>
    simp only at hv
    simp [hv, Text.toList_quoted, gapLength_eq_zero, Text.isBlank]
  | doubleQuoted content hc hv hkind =>
    simp only at hv
    simp [hv, gapLength_eq_zero, Text.isBlank]
  | placeholder hv hkind =>
    simp only [isPlaceholder] at hv
    split at hv
    · rename_i hcs
      simp [hcs, gapLength_eq_zero, Text.isBlank]
    · cases hv
  | inclusion hv hn hkind => exact absurd hkind hk
  | sign hv =>
    simp only [TokenKind.sign?] at hv
    split at hv <;> cases hv <;>
      first | exact gapLength_dash hdash | simp [gapLength_eq_zero, Text.isBlank]

/-- The text of a word is a lexeme in front of a text that opens with a delimiter. -/
theorem plain_of_lexical {w : Word} (hw : w.Lexical) (hk : w.kind ≠ .inclusion) {rest : List Char}
    (hr : Delimited rest) : Plain w.kind w.value.toList rest := by
  obtain ⟨kind, v⟩ := w
  cases hw with
  | word hv hkind =>
    change kind = wordKind v.toList at hkind
    change Plain kind v.toList rest
    rw [hkind]
    exact .word hv (hr.head_false isWordChar_of_isDelimiter)
  | digits hv hkind =>
    obtain rfl : kind = .digits := hkind
    exact .digits hv (hr.head_false isDigit_of_isDelimiter)
  | singleQuoted content hv hkind =>
    obtain rfl : kind = .singleQuoted := hkind
    obtain rfl : v = Text.quoted content := hv
    exact .singleQuoted content (hr.head_ne (by decide))
  | doubleQuoted content hc hv hkind =>
    obtain rfl : kind = .doubleQuoted := hkind
    change Plain .doubleQuoted v.toList rest
    rw [hv]
    exact .doubleQuoted hc
  | placeholder hv hkind =>
    obtain rfl : kind = .placeholder := hkind
    change Plain .placeholder v.toList rest
    change isPlaceholder v.toList = true at hv
    unfold isPlaceholder at hv
    split at hv
    · rename_i cs hcs
      obtain ⟨content, htake, -, hcontent, hline⟩ := placeholderLength_eq_some (by simpa using hv)
      rw [List.take_length] at htake
      rw [hcs, htake]
      exact .placeholder hcontent hline
    · cases hv
  | inclusion hv hn hkind => exact absurd hkind hk
  | sign hv => exact .sign hv (hr.head_false (extendedBy_of_isDelimiter kind))

/-- The text of a word, in front of a text that opens with a delimiter, opens with that lexeme. -/
theorem lexeme?_append {w : Word} (hw : w.Lexical) (hk : w.kind ≠ .inclusion) {rest : List Char}
    (hr : Delimited rest) :
    lexeme? (w.value.toList ++ rest) = some (w.kind, w.value.toList.length) :=
  (plain_of_lexical hw hk hr).read.1

/-- The text of a word, in front of a text that opens with a delimiter, scans as that word. -/
theorem words_append {w : Word} (hw : w.Lexical) (hk : w.kind ≠ .inclusion) {rest : List Char}
    (hr : Delimited rest) : words (w.value.toList ++ rest) = w :: words rest := by
  have hwords := words_lexeme (gapLength_append hw hk hr) (.plain (plain_of_lexical hw hk hr))
  rwa [String.ofList_toList] at hwords

@[simp] theorem words_nil : words [] = [] := by
  simp [words, wordsAt, pieces_nil, gap, gapLength.eq_def, tokensOf]

/-- A parenthesis, a comma or a terminator is a word whatever follows it. -/
theorem words_mark {kind : TokenKind} {c : Char} (hkind : kind.mark? = some c) (rest : List Char) :
    words (c :: rest) = ⟨kind, String.ofList [c]⟩ :: words rest := by
  have hplain : Plain kind (String.ofList [c]).toList rest := by
    unfold TokenKind.mark? at hkind
    split at hkind <;> cases hkind <;> exact .sign rfl fun _ _ => rfl
  have hgap : gapLength .blank ([c] ++ rest) = 0 := by
    unfold TokenKind.mark? at hkind
    split at hkind <;> cases hkind <;> simp [gapLength_eq_zero, Text.isBlank]
  rw [String.toList_ofList] at hplain
  exact words_lexeme hgap (.plain hplain)

/-- An inclusion takes the rest of its line, in either way of writing it. -/
theorem words_inclusion {path rest : List Char} (hne : path ≠ [])
    (htrim : Text.trimChars Text.isBlank path = path) (hline : '\n' ∉ path)
    (hrest : ∀ c ∈ rest.head?, c = '\n') :
    words ('@' :: (path ++ rest)) = ⟨.inclusion, String.ofList path⟩ :: words rest ∧
    words ('\\' :: 'i' :: ' ' :: (path ++ rest)) =
      ⟨.inclusion, String.ofList path⟩ :: words rest := by
  have hvalue : Text.trim (String.ofList path) = String.ofList path := by simp [Text.trim, htrim]
  have hfirst : ∀ c ∈ path.head?, c ≠ ' ' ∧ c ≠ '\t' := by
    intro c hc
    have hblank := Text.head?_trimChars c (htrim.symm ▸ hc)
    constructor <;> (rintro rfl; revert hblank; decide)
  have hgap : ∀ c ∈ ['@', '\\'], ∀ cs, gapLength .blank (c :: cs) = 0 := by
    intro c hc cs
    simp only [List.mem_cons, List.not_mem_nil, or_false] at hc
    rcases hc with rfl | rfl <;> exact gapLength_eq_zero (by decide) (by decide) (by decide) rfl
  constructor
  · have hlexeme := Lexeme.inclusion hne hline hrest
    rw [hvalue] at hlexeme
    exact words_lexeme (hgap '@' (by simp) _) hlexeme
  · have hlexeme : Lexeme .inclusion ('\\' :: 'i' :: ([' '] ++ path))
        (Text.trim (String.ofList path)) rest :=
      .longInclusion (by simp) (by simp) hne hfirst hline hrest
    rw [hvalue] at hlexeme
    exact words_lexeme (hgap '\\' (by simp) _) hlexeme

end Scan

/-! ## Words by their texts -/

namespace Word

/-- The word that a text spells, if it is the text of one. -/
def ofText (text : String) : Word :=
  ⟨((Scan.lexeme? text.toList).map Prod.fst).getD .identifier, text⟩

@[simp] theorem ofText_value (text : String) : (ofText text).value = text := rfl

/-- A word is the one that its text spells. -/
theorem Lexical.ofText_eq {w : Word} (hw : w.Lexical) (hk : w.kind ≠ .inclusion) :
    ofText w.value = w := by
  have hlex := Scan.lexeme?_append hw hk (show Scan.Delimited [] by simp [Scan.Delimited])
  rw [List.append_nil] at hlex
  simp [ofText, hlex]

/-- A name or a keyword has the shape of a word, and the class that its text gives it. -/
theorem Lexical.isWord {w : Word} (hw : w.Lexical)
    (hk : w.kind = .identifier ∨ ∃ k, w.kind = .keyword k) :
    Scan.isWord w.value.toList ∧ w.kind = Scan.wordKind w.value.toList := by
  cases hw with
  | word hv hkind => exact ⟨hv, hkind⟩
  | sign hv =>
    rcases hk with hk | ⟨k, hk⟩ <;> (rw [hk] at hv; cases hv)
  | digits _ hkind | singleQuoted _ _ hkind | doubleQuoted _ _ _ hkind | placeholder _ hkind
    | inclusion _ _ hkind => simp [hkind] at hk

/-- A text of the shape of a word is a word. -/
theorem ofText_word {v : String} (hv : Scan.isWord v.toList) :
    ofText v = ⟨Scan.wordKind v.toList, v⟩ := by
  have hlex : Scan.lexeme? (v.toList ++ []) = _ := Scan.lexeme?_word hv (by simp)
  rw [List.append_nil] at hlex
  rw [ofText, hlex, Option.map_some, Option.getD_some]

/-- The signs that stand between and around the words of a list. -/
def lparen : Word := ⟨.lparen, "("⟩

@[inherit_doc lparen] def rparen : Word := ⟨.rparen, ")"⟩

@[inherit_doc lparen] def comma : Word := ⟨.comma, ","⟩

@[inherit_doc lparen] def semicolon : Word := ⟨.semicolon, ";"⟩

/-- A word that may stand on a line with others: any but an inclusion. -/
structure Inline (w : Word) : Prop where
  lexical : w.Lexical
  ne_inclusion : w.kind ≠ .inclusion

theorem Inline.ofText_eq {w : Word} (hw : w.Inline) : ofText w.value = w :=
  hw.lexical.ofText_eq hw.ne_inclusion

theorem inline_lparen : lparen.Inline := ⟨.sign rfl, nofun⟩

theorem inline_rparen : rparen.Inline := ⟨.sign rfl, nofun⟩

theorem inline_comma : comma.Inline := ⟨.sign rfl, nofun⟩

end Word

/-- The word that a keyword is. -/
def Keyword.word (k : Keyword) : Word := ⟨.keyword k, k.name⟩

@[simp] theorem Keyword.word_kind (k : Keyword) : k.word.kind = .keyword k := rfl

namespace Keyword

theorem mem_all (k : Keyword) : k ∈ all := by cases k <;> decide

theorem upper_name (k : Keyword) : Text.upper k.name = k.name := by
  have h : ∀ k ∈ all, Text.upper k.name = k.name := by decide +kernel
  exact h k (mem_all k)

theorem nodup_names : (all.map name).Nodup := by decide +kernel

theorem name_inj {j k : Keyword} (h : j.name = k.name) : j = k := by
  have hne := List.pairwise_iff_getElem.mp (List.pairwise_map.mp nodup_names)
  obtain ⟨m, hm, rfl⟩ := List.getElem_of_mem (mem_all j)
  obtain ⟨n, hn, rfl⟩ := List.getElem_of_mem (mem_all k)
  rcases Nat.lt_trichotomy m n with hlt | rfl | hlt
  · exact absurd h (hne m n hm hn hlt)
  · rfl
  · exact absurd h.symm (hne n m hn hm hlt)

theorem ofWord?_name (k : Keyword) : ofWord? k.name = some k := by
  cases hfind : ofWord? k.name with
  | none => simpa using List.find?_eq_none.mp hfind k (mem_all k)
  | some j =>
    have hsame := List.find?_some hfind
    rw [Text.sameName_iff] at hsame
    have hupper := congrArg Text.upper hsame
    rw [Text.upper_lower, Text.upper_lower, upper_name, upper_name] at hupper
    rw [name_inj hupper]

theorem lexical_word (k : Keyword) : k.word.Lexical := by
  have hword : ∀ k ∈ all, Scan.isWord k.name.toList := by decide +kernel
  refine .word (hword k (mem_all k)) ?_
  simp [word, Scan.wordKind, ofWord?_name]

theorem inline_word (k : Keyword) : k.word.Inline := ⟨k.lexical_word, nofun⟩

/-- A keyword is spelled as its name, letter case aside. -/
theorem ofWord?_eq_some {s : String} {k : Keyword} :
    ofWord? s = some k ↔ Text.upper s = k.name := by
  constructor
  · intro h
    have hsame := List.find?_some h
    rw [Text.sameName_iff] at hsame
    rw [← Text.upper_lower, ← hsame, Text.upper_lower, upper_name]
  · intro h
    have hsame : Text.lower s = Text.lower k.name := by rw [← h, Text.lower_upper]
    rw [← ofWord?_name k]
    simp [ofWord?, Text.sameName, hsame]

end Keyword

/-! ## Lists of words -/

theorem List.intercalate_cons_map {α : Type} {f : α → List Word} (seps : List Word) (x : α)
    (xs : List α) :
    seps.intercalate ((x :: xs).map f) = f x ++ xs.flatMap fun y => seps ++ f y := by
  induction xs generalizing x with
  | nil => simp
  | cons y ys ih =>
    rw [List.map_cons, List.map_cons, List.intercalate_cons_cons, ← List.map_cons, ih y]
    simp

end SchemaScript
