import SchemaScript.Proofs.Text
import SchemaScript.Token.Scan

/-!
# The rules of lexemes

The lexeme at the head of a text, said without the functions that look for it.

* `Scan.Lexeme` — the rules of lexemes, with the value of each and what it may stand in front of.
* `Scan.Lexeme.read` — what the rules allow is found, with its value.
* `Scan.exists_lexeme`, `Scan.lexeme_iff` — and nothing else is found.
-/

set_option autoImplicit false

namespace SchemaScript

namespace Scan

/-! ## Pairs of characters -/

/-- A pair that does not occur does not start at the first character, and not behind it. -/
theorem pair_not_infix_cons {a b c : Char} {cs : List Char} (h : ¬ [a, b] <:+: c :: cs) :
    (c = a → cs.head? ≠ some b) ∧ ¬ [a, b] <:+: cs := by
  rw [Text.pair_infix_cons, not_or] at h
  exact ⟨fun hc hhead => h.1 ⟨hc, hhead⟩, h.2⟩

theorem head?_of_take {d : Char} {cs : List Char} {n : Nat} (h : (cs.take n).head? = some d) :
    cs.head? = some d := by
  rw [List.head?_take] at h
  split at h
  · cases h
  · exact h

theorem head?_ne_of_ne_cons {d : Char} {cs : List Char} (h : ∀ tail, cs = d :: tail → False) :
    cs.head? ≠ some d := by
  cases cs with
  | nil => simp
  | cons c cs =>
    intro hc
    exact h cs (by rw [Option.some.inj hc])

theorem head?_ne {c d e : Char} {cs : List Char} (h : ∀ tail, c = d → cs = e :: tail → False) :
    c = d → cs.head? ≠ some e :=
  fun hc => head?_ne_of_ne_cons fun tail htail => h tail hc htail

/-! ## The shapes of lexemes -/

/-- The shape of names and keywords: a letter, then letters, digits, underscores and dots. -/
def isWord : List Char → Bool
  | c :: cs => c.isAlpha && cs.all isWordChar
  | [] => false

/-- One digit or more. -/
def isDigits (cs : List Char) : Bool := !cs.isEmpty && cs.all Char.isDigit

/-- The shape of numbers: digits, with or without a minus sign. -/
def isNumeral : List Char → Bool
  | '-' :: cs => isDigits cs
  | cs => isDigits cs

theorem isNumeral_of_isDigits {v : List Char} (hv : isDigits v) : isNumeral v := by
  unfold isNumeral
  split
  · simp [isDigits] at hv
  · exact hv

end Scan

/-- The text of a sign. -/
def TokenKind.sign? : TokenKind → Option String
  | .eq => some "="
  | .neq => some "!="
  | .gt => some ">"
  | .gtEq => some ">="
  | .lt => some "<"
  | .ltEq => some "<="
  | .plus => some "+"
  | .minus => some "-"
  | .lparen => some "("
  | .rparen => some ")"
  | .comma => some ","
  | .semicolon => some ";"
  | _ => none

/-- The character of a sign that nothing can be joined to. -/
def TokenKind.mark? : TokenKind → Option Char
  | .lparen => some '('
  | .rparen => some ')'
  | .comma => some ','
  | .semicolon => some ';'
  | _ => none

/-- The characters that a sign cannot stand in front of: they are joined to it. -/
def TokenKind.extendedBy : TokenKind → Char → Bool
  | .gt, c | .lt, c => c == '='
  | .minus, c => c.isDigit
  | _, _ => false

namespace Scan

/-! ## The rules of lexemes -/

/-- The lexemes that are their own value, and what each stands in front of. A literal in single
quotes is not followed by a quote, which would be the second of a pair; a placeholder ends at the
first closing brackets, on its line; words, numbers and signs are as long as they can be. -/
inductive Plain : TokenKind → List Char → List Char → Prop
  | singleQuoted {rest : List Char} (content : String) (hrest : rest.head? ≠ some '\'') :
      Plain .singleQuoted (Text.quoted content).toList rest
  | doubleQuoted {content rest : List Char} (hcontent : '"' ∉ content) :
      Plain .doubleQuoted ('"' :: content ++ ['"']) rest
  | placeholder {content rest : List Char} (hcontent : ¬ [']', ']'] <:+: content ++ [']'])
      (hline : '\n' ∉ content) : Plain .placeholder ('[' :: '[' :: (content ++ [']', ']'])) rest
  | word {word rest : List Char} (hword : isWord word)
      (hrest : ∀ c ∈ rest.head?, isWordChar c = false) : Plain (wordKind word) word rest
  | digits {digits rest : List Char} (hdigits : isNumeral digits)
      (hrest : ∀ c ∈ rest.head?, c.isDigit = false) : Plain .digits digits rest
  | sign {kind : TokenKind} {sign : String} {rest : List Char} (hsign : kind.sign? = some sign)
      (hrest : ∀ c ∈ rest.head?, kind.extendedBy c = false) : Plain kind sign.toList rest

/-- The lexemes of each class with their values, and what each stands in front of. The value of an
inclusion is its path, which goes to the end of the line, without the blanks at its ends. -/
inductive Lexeme : TokenKind → List Char → String → List Char → Prop
  | plain {kind : TokenKind} {lexeme rest : List Char} (h : Plain kind lexeme rest) :
      Lexeme kind lexeme (String.ofList lexeme) rest
  | inclusion {path rest : List Char} (hpath : path ≠ []) (hline : '\n' ∉ path)
      (hrest : ∀ c ∈ rest.head?, c = '\n') :
      Lexeme .inclusion ('@' :: path) (Text.trim (String.ofList path)) rest
  | longInclusion {blanks path rest : List Char} (hblanks : blanks ≠ [])
      (hall : ∀ c ∈ blanks, c = ' ' ∨ c = '\t') (hpath : path ≠ [])
      (hfirst : ∀ c ∈ path.head?, c ≠ ' ' ∧ c ≠ '\t') (hline : '\n' ∉ path)
      (hrest : ∀ c ∈ rest.head?, c = '\n') :
      Lexeme .inclusion ('\\' :: 'i' :: (blanks ++ path)) (Text.trim (String.ofList path)) rest

variable {kind : TokenKind} {lexeme rest cs : List Char} {value : String} {n : Nat}

/-! ### What the rules allow is found -/

theorem runLength_append {p : Char → Bool} {cs rest : List Char} (hcs : cs.all p)
    (hrest : ∀ c ∈ rest.head?, p c = false) : runLength p (cs ++ rest) = cs.length := by
  rw [runLength, List.takeWhile_append_of_pos (List.all_eq_true.mp hcs)]
  have hnil : rest.takeWhile p = [] := by
    cases rest with
    | nil => rfl
    | cons c rest => simp [hrest c (by simp)]
  rw [hnil, List.append_nil]

theorem quotedLength_pair (cs : List Char) :
    quotedLength ('\'' :: '\'' :: cs) = (quotedLength cs).map (· + 2) := by
  rw [quotedLength.eq_def]
  rfl

theorem quotedLength_close {cs : List Char} (h : cs.head? ≠ some '\'') :
    quotedLength ('\'' :: cs) = some 1 := by
  rw [quotedLength.eq_def]
  split <;> grind

theorem quotedLength_other {c : Char} {cs : List Char} (h : c ≠ '\'') :
    quotedLength (c :: cs) = (quotedLength cs).map (· + 1) := by
  rw [quotedLength.eq_def]
  split <;> simp_all

/-- Conversely, such a literal is read up to its closing quote. -/
theorem quotedLength_double (content : List Char) {rest : List Char}
    (h : rest.head? ≠ some '\'') :
    quotedLength (Text.double content ++ '\'' :: rest) = some ((Text.double content).length + 1) := by
  induction content with
  | nil => exact quotedLength_close h
  | cons c cs ih =>
    by_cases hc : c = '\''
    · subst hc
      simp [Text.double, quotedLength_pair, ih]
    · simp [Text.double, hc, quotedLength_other hc, ih]

theorem placeholderLength_close (cs : List Char) :
    placeholderLength (']' :: ']' :: cs) = some 2 := by
  rw [placeholderLength.eq_def]
  rfl

theorem placeholderLength_other {c : Char} {cs : List Char} (hc : c ≠ '\n')
    (h : c = ']' → cs.head? ≠ some ']') :
    placeholderLength (c :: cs) = (placeholderLength cs).map (· + 1) := by
  rw [placeholderLength.eq_def]
  split <;> grind

theorem placeholderLength_content {content : List Char}
    (hcontent : ¬ [']', ']'] <:+: content ++ [']']) (hline : '\n' ∉ content) (rest : List Char) :
    placeholderLength (content ++ ']' :: ']' :: rest) = some (content.length + 2) := by
  induction content with
  | nil => exact placeholderLength_close rest
  | cons c content ih =>
    obtain ⟨hc, hcontent⟩ := pair_not_infix_cons hcontent
    rw [List.mem_cons, not_or] at hline
    have hhead : c = ']' → (content ++ ']' :: ']' :: rest).head? ≠ some ']' := by
      intro heq
      have hne := hc heq
      cases content <;> exact hne
    rw [List.cons_append, placeholderLength_other (Ne.symm hline.1) hhead, ih hcontent hline.2]
    rfl

/-- A text that opens with none of the characters that open a literal or a placeholder. -/
theorem lexeme?_unquoted {c : Char} {cs : List Char} (hsingle : c ≠ '\'') (hdouble : c ≠ '"')
    (hbracket : c ≠ '[') :
    lexeme? (c :: cs) =
      ((word? (c :: cs)).map (fun n => (wordKind ((c :: cs).take n), n))
      <|> (inclusion? (c :: cs)).map (TokenKind.inclusion, ·)
      <|> (digits? (c :: cs)).map (TokenKind.digits, ·)
      <|> sign? (c :: cs)) := by
  have h1 : singleQuoted? (c :: cs) = none := by simp [singleQuoted?, hsingle]
  have h2 : doubleQuoted? (c :: cs) = none := by simp [doubleQuoted?, hdouble]
  have h3 : placeholder? (c :: cs) = none := by simp [placeholder?, hbracket]
  simp [lexeme?, h1, h2, h3]

theorem lexeme?_word {v rest : List Char} (hv : isWord v)
    (hr : ∀ c ∈ rest.head?, isWordChar c = false) :
    lexeme? (v ++ rest) = some (wordKind v, v.length) := by
  cases v with
  | nil => simp [isWord] at hv
  | cons c cs =>
    rw [isWord, Bool.and_eq_true] at hv
    have hword : word? (c :: (cs ++ rest)) = some (cs.length + 1) := by
      rw [word?, if_pos hv.1, runLength_append hv.2 hr]
    have hne : ∀ d : Char, d.isAlpha = false → c ≠ d := by
      rintro d hd rfl
      rw [hv.1] at hd
      cases hd
    rw [List.cons_append, lexeme?_unquoted (hne _ (by decide)) (hne _ (by decide))
      (hne _ (by decide)), hword]
    simp

theorem isAlpha_of_isDigit {c : Char} (h : c.isDigit) : c.isAlpha = false := by
  unfold Char.isDigit at h
  unfold Char.isAlpha Char.isUpper Char.isLower
  grind

theorem lexeme?_digits {v rest : List Char} (hv : isNumeral v)
    (hr : ∀ c ∈ rest.head?, c.isDigit = false) :
    lexeme? (v ++ rest) = some (.digits, v.length) := by
  have hrun : ∀ {ds : List Char}, isDigits ds → runLength? Char.isDigit (ds ++ rest) =
      some ds.length := by
    intro ds hds
    simp only [isDigits, Bool.and_eq_true, Bool.not_eq_true', List.isEmpty_eq_false_iff] at hds
    rw [runLength?, runLength_append hds.2 hr]
    split
    · rename_i hlen; exact absurd (List.eq_nil_of_length_eq_zero hlen) hds.1
    · rfl
  unfold isNumeral at hv
  split at hv
  · rename_i ds
    simp [lexeme?_unquoted, word?, inclusion?, digits?, hrun hv]
  · rename_i hne
    cases v with
    | nil => simp [isDigits] at hv
    | cons c cs =>
      have hc : c.isDigit := by
        simp only [isDigits, List.all_cons, Bool.and_eq_true] at hv
        exact hv.2.1
      have hne : ∀ d : Char, d.isDigit = false → c ≠ d := by
        rintro d hd rfl
        rw [hc] at hd
        cases hd
      have hrun' := hrun hv
      rw [List.cons_append] at hrun' ⊢
      simp [lexeme?_unquoted (hne '\'' (by decide)) (hne '"' (by decide)) (hne '[' (by decide)),
        word?, isAlpha_of_isDigit hc, inclusion?, hne '@' (by decide), hne '\\' (by decide), digits?,
        hne '-' (by decide), hrun']

theorem lexeme?_singleQuoted (content : String) {rest : List Char}
    (hr : rest.head? ≠ some '\'') :
    lexeme? ((Text.quoted content).toList ++ rest) =
      some (.singleQuoted, (Text.quoted content).toList.length) := by
  have hread := quotedLength_double content.toList hr
  simp [lexeme?, Text.toList_quoted, singleQuoted?, hread]

theorem lexeme?_doubleQuoted {content rest : List Char} (hc : '"' ∉ content) :
    lexeme? ('"' :: content ++ ['"'] ++ rest) = some (.doubleQuoted, content.length + 2) := by
  have hrun : runLength (· ≠ '"') (content ++ '"' :: rest) = content.length :=
    runLength_append (by simpa using fun c hmem => by rintro rfl; exact hc hmem) (by simp)
  have hread : doubleQuoted? ('"' :: (content ++ '"' :: rest)) = some (content.length + 2) := by
    simp only [doubleQuoted?, hrun, List.length_append, List.length_cons]
    rw [if_pos (by omega)]
  simp [lexeme?, singleQuoted?, hread]

theorem lexeme?_sign {kind : TokenKind} {v : String} (hv : kind.sign? = some v) {rest : List Char}
    (hr : ∀ c ∈ rest.head?, kind.extendedBy c = false) :
    lexeme? (v.toList ++ rest) = some (kind, v.toList.length) := by
  by_cases hminus : kind = .minus
  · subst hminus
    cases hv
    have hdigits : runLength? Char.isDigit rest = none := by
      cases rest with
      | nil => rfl
      | cons c rest =>
        have hc : c.isDigit = false := hr c rfl
        simp [runLength?, runLength, hc]
    simp [lexeme?, singleQuoted?, doubleQuoted?, placeholder?, word?, inclusion?, digits?, hdigits,
      Scan.sign?]
  · have hequal : kind = .gt ∨ kind = .lt → ∀ ds, rest ≠ '=' :: ds := by
      rintro (rfl | rfl) ds rfl <;> exact absurd (hr '=' rfl) (by decide)
    unfold TokenKind.sign? at hv
    split at hv <;> cases hv <;>
      simp_all [lexeme?, singleQuoted?, doubleQuoted?, placeholder?, word?, inclusion?, digits?,
        runLength?, runLength, Scan.sign?]

theorem Plain.read (h : Plain kind lexeme rest) :
    lexeme? (lexeme ++ rest) = some (kind, lexeme.length) ∧ kind ≠ .inclusion := by
  cases h with
  | singleQuoted content hrest => exact ⟨lexeme?_singleQuoted content hrest, by decide⟩
  | doubleQuoted hcontent =>
    refine ⟨(lexeme?_doubleQuoted hcontent).trans ?_, by decide⟩
    simp
  | placeholder hcontent hline =>
    have hread := placeholderLength_content hcontent hline rest
    refine ⟨?_, by decide⟩
    simp [lexeme?, singleQuoted?, doubleQuoted?, placeholder?, hread]
  | word hword hrest =>
    refine ⟨lexeme?_word hword hrest, ?_⟩
    unfold wordKind
    split <;> simp
  | digits hdigits hrest => exact ⟨lexeme?_digits hdigits hrest, by decide⟩
  | sign hsign hrest =>
    refine ⟨lexeme?_sign hsign hrest, ?_⟩
    rintro rfl
    cases hsign

theorem runLength?_line {path rest : List Char} (hne : path ≠ []) (hline : '\n' ∉ path)
    (hrest : ∀ c ∈ rest.head?, c = '\n') :
    runLength? (· ≠ '\n') (path ++ rest) = some path.length := by
  have hrun : runLength (· ≠ '\n') (path ++ rest) = path.length := by
    refine runLength_append ?_ (fun c hc => by simp [hrest c hc])
    simpa using fun c hc => by rintro rfl; exact hline hc
  rw [runLength?, hrun]
  split
  · rename_i hlen
    exact absurd (List.eq_nil_of_length_eq_zero hlen) hne
  · rfl

theorem runLength?_blanks {blanks path : List Char} (hblanks : blanks ≠ [])
    (hall : ∀ c ∈ blanks, c = ' ' ∨ c = '\t') (hpath : path ≠ [])
    (hfirst : ∀ c ∈ path.head?, c ≠ ' ' ∧ c ≠ '\t') (rest : List Char) :
    runLength? (fun c => c == ' ' || c == '\t') (blanks ++ (path ++ rest)) =
      some blanks.length := by
  have hrun : runLength (fun c => c == ' ' || c == '\t') (blanks ++ (path ++ rest)) =
      blanks.length := by
    refine runLength_append (by simpa using hall) fun c hc => ?_
    cases path with
    | nil => exact absurd rfl hpath
    | cons d path => simpa using hfirst c hc
  rw [runLength?, hrun]
  split
  · rename_i hlength
    exact absurd (List.eq_nil_of_length_eq_zero hlength) hblanks
  · rfl

theorem trimChars_blanks {blanks : List Char} (hall : ∀ c ∈ blanks, c = ' ' ∨ c = '\t')
    (path : List Char) :
    Text.trimChars Text.isBlank (blanks ++ path) = Text.trimChars Text.isBlank path := by
  rw [Text.trimChars, List.dropWhile_append_of_pos, Text.trimChars]
  intro c hc
  rcases hall c hc with rfl | rfl <;> decide

/-- **What the rules allow is found**, with its value. -/
theorem Lexeme.read (h : Lexeme kind lexeme value rest) :
    lexeme? (lexeme ++ rest) = some (kind, lexeme.length) ∧ tokenValue kind lexeme = value := by
  cases h with
  | plain h =>
    obtain ⟨hread, hkind⟩ := h.read
    exact ⟨hread, by rw [tokenValue, if_neg hkind]⟩
  | @inclusion path _ hpath hline hrest =>
    have hread := runLength?_line hpath hline hrest
    refine ⟨?_, by simp [tokenValue, inclusionPath, Text.trim]⟩
    have hinclusion : inclusion? ('@' :: (path ++ rest)) = some (path.length + 1) := by
      rw [inclusion?, hread, Option.map_some]
    simp [lexeme?_unquoted, word?, hinclusion]
  | @longInclusion blanks path _ hblanks hall hpath hfirst hline hrest =>
    have hread := runLength?_line hpath hline hrest
    have hskip := runLength?_blanks hblanks hall hpath hfirst rest
    have hinclusion : inclusion? ('\\' :: 'i' :: (blanks ++ (path ++ rest))) =
        some (path.length + blanks.length + 2) := by
      simp only [inclusion?, hskip, Option.bind_eq_bind, Option.bind_some, List.drop_left, hread]
      rfl
    refine ⟨?_, by simp [tokenValue, inclusionPath, Text.trim, trimChars_blanks hall]⟩
    simp [lexeme?_unquoted, word?, hinclusion]
    omega

/-! ### What is found is allowed by the rules -/

theorem take_runLength (p : Char → Bool) (cs : List Char) :
    cs.take (runLength p cs) = cs.takeWhile p :=
  List.prefix_iff_eq_take.mp (List.takeWhile_prefix p) |>.symm

theorem drop_runLength (p : Char → Bool) (cs : List Char) :
    cs.drop (runLength p cs) = cs.dropWhile p := by
  have hsplit := List.takeWhile_append_dropWhile (p := p) (l := cs)
  have hdrop := congrArg (List.drop (runLength p cs)) hsplit
  rwa [runLength, List.drop_left, eq_comm] at hdrop

/-- The run of a class of characters ends where the class does. -/
theorem head?_drop_runLength (p : Char → Bool) (cs : List Char) :
    ∀ c ∈ (cs.drop (runLength p cs)).head?, p c = false := by
  rw [drop_runLength]
  exact Text.head?_dropWhile_false

theorem mem_take_runLength {p : Char → Bool} {c : Char} (h : c ∈ cs.take (runLength p cs)) :
    p c = true := by
  rw [take_runLength] at h
  exact List.all_eq_true.mp List.all_takeWhile c h

/-- A literal behind its opening quote is some content with its quotes doubled, and a quote. -/
theorem quotedLength_take {cs : List Char} {n : Nat} (h : quotedLength cs = some n) :
    ∃ content, cs.take n = Text.double content ++ ['\''] := by
  induction cs using quotedLength.induct generalizing n with
  | case1 cs ih =>
    rw [quotedLength_pair] at h
    obtain ⟨m, hm, rfl⟩ := Option.map_eq_some_iff.mp h
    obtain ⟨content, hcontent⟩ := ih hm
    exact ⟨'\'' :: content, by simp [Text.double, hcontent]⟩
  | case2 cs hne =>
    rw [quotedLength_close (head?_ne_of_ne_cons hne)] at h
    cases h
    exact ⟨[], rfl⟩
  | case3 c cs h1 h2 ih =>
    have hc : c ≠ '\'' := fun hc => h2 hc
    rw [quotedLength_other hc] at h
    obtain ⟨m, hm, rfl⟩ := Option.map_eq_some_iff.mp h
    obtain ⟨content, hcontent⟩ := ih hm
    exact ⟨c :: content, by simp [Text.double, hc, hcontent]⟩
  | case4 => simp [quotedLength.eq_def] at h

theorem quotedLength_rest (h : quotedLength cs = some n) : (cs.drop n).head? ≠ some '\'' := by
  induction cs using quotedLength.induct generalizing n with
  | case1 cs ih =>
    rw [quotedLength_pair] at h
    obtain ⟨m, hm, rfl⟩ := Option.map_eq_some_iff.mp h
    exact ih hm
  | case2 cs hne =>
    have hhead := head?_ne_of_ne_cons hne
    rw [quotedLength_close hhead] at h
    cases h
    exact hhead
  | case3 c cs h1 h2 ih =>
    rw [quotedLength_other fun hc => h2 hc] at h
    obtain ⟨m, hm, rfl⟩ := Option.map_eq_some_iff.mp h
    exact ih hm
  | case4 => simp [quotedLength.eq_def] at h

theorem plain_singleQuoted (h : singleQuoted? cs = some n) :
    Plain .singleQuoted (cs.take n) (cs.drop n) := by
  unfold singleQuoted? at h
  split at h
  · obtain ⟨m, hm, rfl⟩ := Option.map_eq_some_iff.mp h
    obtain ⟨content, hcontent⟩ := quotedLength_take hm
    have hquoted := Text.toList_quoted (String.ofList content)
    rw [String.toList_ofList, ← hcontent, ← List.take_succ_cons] at hquoted
    rw [← hquoted, List.drop_succ_cons]
    exact .singleQuoted _ (quotedLength_rest hm)
  · cases h

theorem plain_doubleQuoted (h : doubleQuoted? cs = some n) :
    Plain .doubleQuoted (cs.take n) (cs.drop n) := by
  unfold doubleQuoted? at h
  split at h
  · rename_i cs
    dsimp only at h
    split at h
    · rename_i hlt
      cases h
      have hcontent : '"' ∉ cs.take (runLength (· ≠ '"') cs) := by
        intro hmem
        simpa using mem_take_runLength hmem
      have hhead := head?_drop_runLength (· ≠ '"') cs
      generalize runLength (· ≠ '"') cs = m at hlt hcontent hhead ⊢
      obtain ⟨d, hd⟩ : ∃ d, cs[m]? = some d := ⟨_, List.getElem?_eq_getElem hlt⟩
      have hquote : d = '"' := by
        rw [List.head?_drop, hd] at hhead
        simpa using hhead d rfl
      rw [List.take_succ_cons, List.take_add_one, hd, hquote]
      exact .doubleQuoted hcontent
    · cases h
  · cases h

/-- A placeholder behind its opening brackets is content without closing ones, and these. -/
theorem placeholderLength_eq_some (h : placeholderLength cs = some n) :
    ∃ content, cs.take n = content ++ [']', ']'] ∧ n = content.length + 2 ∧
      ¬ [']', ']'] <:+: content ++ [']'] ∧ '\n' ∉ content := by
  induction cs using placeholderLength.induct generalizing n with
  | case1 cs =>
    rw [placeholderLength_close] at h
    cases h
    exact ⟨[], rfl, rfl, by decide, by simp⟩
  | case2 cs => simp [placeholderLength.eq_def] at h
  | case3 c cs hclose hc ih =>
    have hhead : c = ']' → cs.head? ≠ some ']' := head?_ne hclose
    rw [placeholderLength_other hc hhead] at h
    obtain ⟨m, hm, rfl⟩ := Option.map_eq_some_iff.mp h
    obtain ⟨content, htake, rfl, hcontent, hline⟩ := ih hm
    refine ⟨c :: content, by rw [List.take_succ_cons, htake]; rfl, rfl, ?_,
      by simp [hline, Ne.symm hc]⟩
    rw [List.cons_append, Text.pair_infix_cons, not_or]
    refine ⟨?_, hcontent⟩
    rintro ⟨hbracket, hnext⟩
    have hsame : (content ++ [']']).head? = (cs.take (content.length + 2)).head? := by
      rw [htake]
      cases content <;> rfl
    exact hhead hbracket (head?_of_take (hsame ▸ hnext))
  | case4 => simp [placeholderLength.eq_def] at h

/-- What stands behind a placeholder does not change where it ends. -/
theorem placeholderLength_take (h : placeholderLength cs = some n) (rest : List Char) :
    placeholderLength (cs.take n ++ rest) = some n ∧ 0 < n ∧ n ≤ cs.length ∧
      '\n' ∉ cs.take n := by
  obtain ⟨content, htake, rfl, hcontent, hline⟩ := placeholderLength_eq_some h
  have hread := placeholderLength_content hcontent hline rest
  have hlength : (cs.take (content.length + 2)).length = content.length + 2 := by
    rw [htake, List.length_append]
    rfl
  rw [List.length_take] at hlength
  refine ⟨?_, by omega, by omega, ?_⟩
  · rwa [htake, List.append_assoc]
  · rw [htake]
    simp [hline]

theorem plain_placeholder (h : placeholder? cs = some n) :
    Plain .placeholder (cs.take n) (cs.drop n) := by
  unfold placeholder? at h
  split at h
  · obtain ⟨m, hm, rfl⟩ := Option.map_eq_some_iff.mp h
    obtain ⟨content, htake, -, hcontent, hline⟩ := placeholderLength_eq_some hm
    rw [List.take_succ_cons, List.take_succ_cons, htake]
    exact .placeholder hcontent hline
  · cases h

theorem plain_word (h : word? cs = some n) :
    Plain (wordKind (cs.take n)) (cs.take n) (cs.drop n) := by
  unfold word? at h
  split at h
  · rename_i c cs
    split at h
    · rename_i halpha
      cases h
      refine .word ?_ (head?_drop_runLength isWordChar cs)
      rw [List.take_succ_cons, take_runLength]
      simp [isWord, halpha, List.all_takeWhile]
    · cases h
  · cases h

theorem runLength?_eq_some {p : Char → Bool} {cs : List Char} {n : Nat}
    (h : runLength? p cs = some n) : n = runLength p cs ∧ 0 < n := by
  refine ⟨?_, runLength?_pos h⟩
  unfold runLength? at h
  split at h
  · cases h
  · exact (Option.some.inj h).symm

/-- A run of a class of characters that is not empty, and the end of it. -/
theorem run_take {p : Char → Bool} (h : runLength? p cs = some n) :
    cs.take n ≠ [] ∧ (∀ c ∈ cs.take n, p c = true) ∧ ∀ c ∈ (cs.drop n).head?, p c = false := by
  obtain ⟨rfl, hpos⟩ := runLength?_eq_some h
  refine ⟨?_, fun c hc => mem_take_runLength hc, head?_drop_runLength p cs⟩
  rwa [take_runLength, ← List.length_pos_iff]

theorem isDigits_take (h : runLength? Char.isDigit cs = some n) : isDigits (cs.take n) := by
  obtain ⟨hne, hall, -⟩ := run_take h
  rw [isDigits, Bool.and_eq_true, List.all_eq_true]
  exact ⟨by simpa using hne, hall⟩

theorem plain_digits (h : digits? cs = some n) : Plain .digits (cs.take n) (cs.drop n) := by
  unfold digits? at h
  split at h
  · obtain ⟨m, hm, rfl⟩ := Option.map_eq_some_iff.mp h
    exact .digits (isDigits_take hm) (run_take hm).2.2
  · exact .digits (isNumeral_of_isDigits (isDigits_take h)) (run_take h).2.2

theorem sign?_spelled (h : sign? cs = some (kind, n)) :
    kind.sign? = some (String.ofList (cs.take n)) := by
  unfold sign? at h
  split at h <;> first | (cases h; simp [TokenKind.sign?]) | cases h

theorem isDigit_of_digits? (h : digits? ('-' :: cs) = none) :
    ∀ c ∈ cs.head?, c.isDigit = false := by
  intro c hc
  cases cs with
  | nil => cases hc
  | cons d cs =>
    cases hc
    cases hdigit : c.isDigit with
    | false => rfl
    | true => simp [digits?, runLength?, runLength, hdigit] at h

/-- A sign is the longest there is, and a minus sign in front of a digit is a part of a number. -/
theorem sign?_rest (hdigits : digits? cs = none) (h : sign? cs = some (kind, n)) :
    ∀ c ∈ (cs.drop n).head?, kind.extendedBy c = false := by
  intro c hc
  unfold sign? at h
  split at h <;> cases h <;> try rfl
  · rename_i hne
    exact beq_eq_false_iff_ne.mpr fun heq => head?_ne_of_ne_cons hne (heq ▸ hc)
  · rename_i hne
    exact beq_eq_false_iff_ne.mpr fun heq => head?_ne_of_ne_cons hne (heq ▸ hc)
  · exact isDigit_of_digits? hdigits c hc

theorem plain_sign (hdigits : digits? cs = none) (h : sign? cs = some (kind, n)) :
    Plain kind (cs.take n) (cs.drop n) := by
  have hplain := Plain.sign (sign?_spelled h) (sign?_rest hdigits h)
  rwa [String.toList_ofList] at hplain

/-- The rest of a line, which is not empty. -/
theorem line_take (h : runLength? (· ≠ '\n') cs = some n) :
    cs.take n ≠ [] ∧ '\n' ∉ cs.take n ∧ ∀ c ∈ (cs.drop n).head?, c = '\n' := by
  obtain ⟨hne, hall, hrest⟩ := run_take h
  refine ⟨hne, fun hmem => ?_, fun c hc => ?_⟩
  · simpa using hall _ hmem
  · simpa using hrest c hc

theorem lexeme_inclusion (h : inclusion? cs = some n) :
    ∃ value, Lexeme .inclusion (cs.take n) value (cs.drop n) := by
  unfold inclusion? at h
  split at h
  · obtain ⟨m, hm, rfl⟩ := Option.map_eq_some_iff.mp h
    obtain ⟨hpath, hline, hrest⟩ := line_take hm
    exact ⟨_, .inclusion hpath hline hrest⟩
  · rename_i cs
    simp only [Option.bind_eq_bind, Option.bind_eq_some_iff] at h
    obtain ⟨blanks, hblanks, path, hm, hn⟩ := h
    cases hn
    obtain ⟨hne, hall, hnext⟩ := run_take hblanks
    obtain ⟨hpath, hline, hrest⟩ := line_take hm
    have hfirst : ∀ c ∈ ((cs.drop blanks).take path).head?, c ≠ ' ' ∧ c ≠ '\t' := by
      intro c hc
      simpa using hnext c (head?_of_take hc)
    rw [List.drop_drop] at hrest
    rw [List.take_succ_cons, List.take_succ_cons, Nat.add_comm path, List.take_add]
    exact ⟨_, .longInclusion hne (by simpa using hall) hpath hfirst hline hrest⟩
  · cases h

theorem exists_lexeme (h : lexeme? cs = some (kind, n)) :
    ∃ value, Lexeme kind (cs.take n) value (cs.drop n) := by
  simp only [lexeme?, Option.orElse_eq_orElse, Option.orElse_eq_or, Option.or_eq_some_iff,
    Option.map_eq_some_iff] at h
  rcases h with ⟨m, hm, he⟩ | ⟨_, ⟨m, hm, he⟩ | ⟨_, ⟨m, hm, he⟩ | ⟨_, ⟨m, hm, he⟩ | ⟨_, ⟨m, hm, he⟩ |
    ⟨_, ⟨m, hm, he⟩ | ⟨hdigits, h⟩⟩⟩⟩⟩⟩
  · cases he
    exact ⟨_, .plain (plain_singleQuoted hm)⟩
  · cases he
    exact ⟨_, .plain (plain_doubleQuoted hm)⟩
  · cases he
    exact ⟨_, .plain (plain_placeholder hm)⟩
  · cases he
    exact ⟨_, .plain (plain_word hm)⟩
  · cases he
    exact lexeme_inclusion hm
  · cases he
    exact ⟨_, .plain (plain_digits hm)⟩
  · rw [Option.map_eq_none_iff] at hdigits
    exact ⟨_, .plain (plain_sign hdigits h)⟩

/-- **The rules say what is found, and nothing else.** -/
theorem lexeme_iff : Lexeme kind lexeme value rest ↔
    lexeme? (lexeme ++ rest) = some (kind, lexeme.length) ∧ tokenValue kind lexeme = value := by
  refine ⟨Lexeme.read, fun ⟨hlex, hvalue⟩ => ?_⟩
  obtain ⟨value', hlexeme⟩ := exists_lexeme hlex
  rw [List.take_left, List.drop_left] at hlexeme
  rwa [← hvalue, hlexeme.read.2]

instance : Decidable (Lexeme kind lexeme value rest) := decidable_of_iff _ lexeme_iff.symm

end Scan

end SchemaScript
