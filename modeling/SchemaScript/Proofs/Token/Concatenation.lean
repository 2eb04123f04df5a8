import SchemaScript.Proofs.Text.Excerpt
import SchemaScript.Proofs.Token.Word

/-!
# Texts put together

The tokens of two texts with a newline between them.

* `Scan.endsInComment` — whether a text ends inside a block comment that is not closed.
* `Scan.lexeme?_newline`, `Scan.seamless` — lexemes and gaps in front of a newline are not changed
  by it or by what follows it.
* `Scan.pieces_newline` — the pieces of two texts put together are those of the first and those of
  the second.
* `Scan.pieces_moved` — the pieces of a text that starts elsewhere are the same, moved.
* `Text.columnAt_newline`, `Text.excerptAt_newline` — columns and excerpts count from the newline.
* `tokenize_newline` — the tokens and the stray characters of two texts put together.
-/

set_option autoImplicit false

namespace SchemaScript

namespace Scan

variable {cs ds : List Char} {c : Char} {n : Nat}

/-! ## Comments that are not closed -/

/-- Whether a text, from inside a gap on, ends inside a block comment. -/
def gapOpen : Gap → List Char → Bool
  | .blank, '-' :: '-' :: cs => gapOpen .lineComment cs
  | .blank, '#' :: cs => gapOpen .lineComment cs
  | .blank, '/' :: '*' :: cs => gapOpen .blockComment cs
  | .blank, c :: cs => if Text.isBlank c then gapOpen .blank cs else false
  | .lineComment, '\n' :: cs => gapOpen .blank cs
  | .lineComment, _ :: cs => gapOpen .lineComment cs
  | .blockComment, '*' :: '/' :: cs => gapOpen .blank cs
  | .blockComment, _ :: cs => gapOpen .blockComment cs
  | .blockComment, [] => true
  | _, [] => false

/-- Whether a text ends inside a block comment that is not closed. -/
def endsInComment (cs : List Char) : Bool :=
  match _ : (gap cs).2 with
  | [] => gapOpen .blank cs
  | c :: rest =>
    match _ : lexeme? (c :: rest) with
    | some (_kind, n) => endsInComment ((c :: rest).drop n)
    | none => endsInComment rest
termination_by cs.length
decreasing_by
  · exact length_drop_lt ‹_› ‹_›
  · exact length_rest_lt ‹_›

/-! ## Runs and literals in front of a newline -/

theorem takeWhile_append_cons {α : Type} {p : α → Bool} {y : α} (hy : p y = false) (xs ys : List α) :
    (xs ++ y :: ys).takeWhile p = xs.takeWhile p := by
  induction xs with
  | nil => simp [hy]
  | cons x xs ih =>
    rw [List.cons_append, List.takeWhile_cons, List.takeWhile_cons, ih]

theorem runLength_newline {p : Char → Bool} (hp : p '\n' = false) (cs ds : List Char) :
    runLength p (cs ++ '\n' :: ds) = runLength p cs := by
  rw [runLength, takeWhile_append_cons hp, runLength]

theorem runLength?_newline {p : Char → Bool} (hp : p '\n' = false) (cs ds : List Char) :
    runLength? p (cs ++ '\n' :: ds) = runLength? p cs := by
  rw [runLength?, runLength_newline hp, runLength?]

theorem runLength_le (p : Char → Bool) (cs : List Char) : runLength p cs ≤ cs.length :=
  (List.takeWhile_prefix p).length_le

/-- A run that ends inside a text is not changed by what follows the text. -/
theorem runLength_append_of_lt {p : Char → Bool} (h : runLength p cs < cs.length)
    (rest : List Char) : runLength p (cs ++ rest) = runLength p cs := by
  induction cs with
  | nil => simp at h
  | cons c cs ih =>
    unfold runLength at h ih ⊢
    by_cases hc : p c
    · simp only [List.cons_append, List.takeWhile_cons, hc, if_true, List.length_cons] at h ⊢
      rw [ih (by omega)]
    · simp [hc]

theorem quotedLength_newline (h : quotedLength cs = some n) (ds : List Char) :
    quotedLength (cs ++ '\n' :: ds) = some n ∧ n ≤ cs.length := by
  induction cs using quotedLength.induct generalizing n with
  | case1 cs ih =>
    rw [quotedLength_pair] at h
    obtain ⟨m, hm, rfl⟩ := Option.map_eq_some_iff.mp h
    obtain ⟨hread, hle⟩ := ih hm
    exact ⟨by simp [quotedLength_pair, hread], by simpa using hle⟩
  | case2 cs hne =>
    have hhead : (cs ++ '\n' :: ds).head? ≠ some '\'' := by
      cases cs with
      | nil => simp
      | cons d cs => rintro hd; exact hne cs (by simpa using hd)
    have hclose : cs.head? ≠ some '\'' := by
      cases cs with
      | nil => simp
      | cons d cs => exact hhead
    rw [quotedLength_close hclose] at h
    cases h
    exact ⟨quotedLength_close hhead, by simp⟩
  | case3 c cs h1 h2 ih =>
    have hc : c ≠ '\'' := fun hc => h2 hc
    rw [quotedLength_other hc] at h
    obtain ⟨m, hm, rfl⟩ := Option.map_eq_some_iff.mp h
    obtain ⟨hread, hle⟩ := ih hm
    exact ⟨by simp [quotedLength_other hc, hread], by simpa using hle⟩
  | case4 => simp [quotedLength.eq_def] at h

theorem placeholderLength_append (h : placeholderLength cs = some n) (rest : List Char) :
    placeholderLength (cs ++ rest) = some n ∧ n ≤ cs.length := by
  obtain ⟨hread, -, hle, -⟩ := placeholderLength_take h (cs.drop n ++ rest)
  rw [← List.append_assoc, List.take_append_drop] at hread
  exact ⟨hread, hle⟩

/-! ## Lexemes in front of a newline -/

theorem lexeme?_singleQuote (cs : List Char) :
    lexeme? ('\'' :: cs) = (quotedLength cs).map fun n => (.singleQuoted, n + 1) := by
  cases hread : quotedLength cs <;>
    simp [lexeme?, singleQuoted?, doubleQuoted?, placeholder?, word?, inclusion?, digits?,
      runLength?, runLength, sign?, hread]

theorem lexeme?_doubleQuote (cs : List Char) :
    lexeme? ('"' :: cs) = (doubleQuoted? ('"' :: cs)).map (.doubleQuoted, ·) := by
  cases hread : doubleQuoted? ('"' :: cs) <;>
    simp [lexeme?, singleQuoted?, placeholder?, word?, inclusion?, digits?, runLength?, runLength,
      sign?, hread]

theorem lexeme?_bracket (cs : List Char) :
    lexeme? ('[' :: cs) = (placeholder? ('[' :: cs)).map (.placeholder, ·) := by
  cases hread : placeholder? ('[' :: cs) <;>
    simp [lexeme?, singleQuoted?, doubleQuoted?, word?, inclusion?, digits?, runLength?, runLength,
      sign?, hread]

theorem word?_newline (c : Char) (cs ds : List Char) :
    word? (c :: (cs ++ '\n' :: ds)) = word? (c :: cs) := by
  rw [word?, word?, runLength_newline (by decide)]

theorem word?_le (h : word? cs = some n) : n ≤ cs.length := by
  cases cs with
  | nil => cases h
  | cons c cs =>
    have hle := runLength_le isWordChar cs
    rw [word?] at h
    split at h
    · cases h
      simpa using hle
    · cases h

theorem digits?_newline (c : Char) (cs ds : List Char) :
    digits? (c :: (cs ++ '\n' :: ds)) = digits? (c :: cs) := by
  by_cases hc : c = '-'
  · subst hc
    exact congrArg (Option.map _) (runLength?_newline (by decide) cs ds)
  · have hform : ∀ es, digits? (c :: es) = runLength? Char.isDigit (c :: es) := by
      simp [digits?, hc]
    rw [hform, hform, ← List.cons_append, runLength?_newline (by decide)]

/-- Behind the first character of a sign only an equality sign makes a difference. -/
theorem sign?_cons {d : Char} (hd : d ≠ '=') (c : Char) (cs : List Char) :
    sign? (c :: d :: cs) = sign? [c] := by
  unfold sign?
  split <;> simp_all

theorem sign?_equal (c : Char) (cs : List Char) : sign? (c :: '=' :: cs) = sign? [c, '='] := by
  by_cases hc : c = '!' ∨ c = '>' ∨ c = '<'
  · rcases hc with rfl | rfl | rfl <;> rfl
  · unfold sign?
    split <;> simp_all

theorem sign?_newline (c : Char) (cs ds : List Char) :
    sign? (c :: (cs ++ '\n' :: ds)) = sign? (c :: cs) := by
  cases cs with
  | nil => exact sign?_cons (by decide) c ds
  | cons d cs =>
    by_cases hd : d = '='
    · subst hd
      exact (sign?_equal c _).trans (sign?_equal c cs).symm
    · rw [List.cons_append, sign?_cons hd, sign?_cons hd]

theorem inclusion?_newline (c : Char) (cs ds : List Char) :
    inclusion? (c :: (cs ++ '\n' :: ds)) = inclusion? (c :: cs) := by
  by_cases hat : c = '@'
  · subst hat
    exact congrArg (Option.map _) (runLength?_newline (by decide) cs ds)
  · by_cases hslash : c = '\\'
    · subst hslash
      cases cs with
      | nil => rfl
      | cons d cs =>
        by_cases hd : d = 'i'
        · subst hd
          simp only [List.cons_append, inclusion?]
          rw [runLength?_newline (by decide)]
          cases hblanks : runLength? (fun c => c == ' ' || c == '\t') cs with
          | none => rfl
          | some blanks =>
            have hle := runLength_le (fun c => c == ' ' || c == '\t') cs
            rw [← (runLength?_eq_some hblanks).1] at hle
            have hpath := runLength?_newline (p := (· ≠ '\n')) (by decide) (cs.drop blanks) ds
            rw [← List.drop_append_of_le_length hle] at hpath
            simp only [Option.bind_eq_bind, Option.bind_some, hpath]
        · simp [inclusion?, hd]
    · simp [inclusion?, hat, hslash]

theorem runLength?_le {p : Char → Bool} (h : runLength? p cs = some n) : n ≤ cs.length :=
  (runLength?_eq_some h).1 ▸ runLength_le p cs

theorem inclusion?_le (h : inclusion? cs = some n) : n ≤ cs.length := by
  unfold inclusion? at h
  split at h
  · obtain ⟨m, hm, rfl⟩ := Option.map_eq_some_iff.mp h
    simpa using runLength?_le hm
  · simp only [Option.bind_eq_bind, Option.bind_eq_some_iff] at h
    obtain ⟨blanks, hblanks, path, hpath, hn⟩ := h
    cases hn
    have hle := runLength?_le hblanks
    have hle' := runLength?_le hpath
    simp only [List.length_drop, List.length_cons] at hle' ⊢
    omega
  · cases h

theorem digits?_le (h : digits? cs = some n) : n ≤ cs.length := by
  unfold digits? at h
  split at h
  · obtain ⟨m, hm, rfl⟩ := Option.map_eq_some_iff.mp h
    simpa using runLength?_le hm
  · exact runLength?_le h

theorem sign?_le {kind : TokenKind} (h : sign? cs = some (kind, n)) : n ≤ cs.length := by
  unfold sign? at h
  split at h <;> cases h <;> simp

theorem doubleQuoted?_append (h : doubleQuoted? cs = some n) (rest : List Char) :
    doubleQuoted? (cs ++ rest) = some n ∧ n ≤ cs.length := by
  unfold doubleQuoted? at h
  split at h
  · rename_i cs
    dsimp only at h
    split at h
    · rename_i hlt
      cases h
      simp only [List.cons_append, doubleQuoted?, runLength_append_of_lt hlt, List.length_append,
        List.length_cons]
      exact ⟨if_pos (by omega), by omega⟩
    · cases h
  · cases h

theorem placeholder?_append (h : placeholder? cs = some n) (rest : List Char) :
    placeholder? (cs ++ rest) = some n ∧ n ≤ cs.length := by
  unfold placeholder? at h
  split at h
  · obtain ⟨m, hm, rfl⟩ := Option.map_eq_some_iff.mp h
    obtain ⟨hread, hle⟩ := placeholderLength_append hm rest
    exact ⟨by simp [placeholder?, hread], by simpa using hle⟩
  · cases h

theorem lexeme?_newline_unquoted {kind : TokenKind} (hsingle : c ≠ '\'') (hdouble : c ≠ '"')
    (hbracket : c ≠ '[') (h : lexeme? (c :: cs) = some (kind, n)) :
    lexeme? (c :: (cs ++ '\n' :: ds)) = some (kind, n) ∧ n ≤ (c :: cs).length := by
  rw [lexeme?_unquoted hsingle hdouble hbracket] at h ⊢
  rw [word?_newline, inclusion?_newline, digits?_newline, sign?_newline]
  cases hword : word? (c :: cs) with
  | some m =>
    have hle := word?_le hword
    rw [hword, Option.map_some] at h
    obtain ⟨rfl, rfl⟩ := Prod.mk.inj (Option.some.inj h)
    have htake : (c :: (cs ++ '\n' :: ds)).take m = (c :: cs).take m :=
      List.take_append_of_le_length hle
    rw [Option.map_some, htake]
    exact ⟨rfl, hle⟩
  | none =>
    rw [hword, Option.map_none] at h
    rw [Option.map_none]
    refine ⟨h, ?_⟩
    simp only [Option.orElse_eq_orElse, Option.orElse_eq_or, Option.or_eq_some_iff,
      Option.map_eq_some_iff] at h
    rcases h with h | ⟨-, ⟨m, hm, heq⟩ | ⟨-, ⟨m, hm, heq⟩ | ⟨-, h⟩⟩⟩
    · cases h
    · cases heq
      exact inclusion?_le hm
    · cases heq
      exact digits?_le hm
    · exact sign?_le h

/-- **A lexeme of a text is the same lexeme when a newline follows the text.** -/
theorem lexeme?_newline {kind : TokenKind} (h : lexeme? (c :: cs) = some (kind, n))
    (ds : List Char) :
    lexeme? (c :: (cs ++ '\n' :: ds)) = some (kind, n) ∧ n ≤ (c :: cs).length := by
  by_cases hsingle : c = '\''
  · subst hsingle
    rw [lexeme?_singleQuote] at h ⊢
    obtain ⟨m, hm, heq⟩ := Option.map_eq_some_iff.mp h
    cases heq
    obtain ⟨hread, hle⟩ := quotedLength_newline hm ds
    exact ⟨by rw [hread]; rfl, by simpa using hle⟩
  by_cases hdouble : c = '"'
  · subst hdouble
    rw [lexeme?_doubleQuote] at h ⊢
    obtain ⟨m, hm, heq⟩ := Option.map_eq_some_iff.mp h
    cases heq
    obtain ⟨hread, hle⟩ := doubleQuoted?_append hm ('\n' :: ds)
    rw [List.cons_append] at hread
    exact ⟨by rw [hread]; rfl, hle⟩
  by_cases hbracket : c = '['
  · subst hbracket
    rw [lexeme?_bracket] at h ⊢
    obtain ⟨m, hm, heq⟩ := Option.map_eq_some_iff.mp h
    cases heq
    obtain ⟨hread, hle⟩ := placeholder?_append hm ('\n' :: ds)
    rw [List.cons_append] at hread
    exact ⟨by rw [hread]; rfl, hle⟩
  exact lexeme?_newline_unquoted hsingle hdouble hbracket h

/-! ## Gaps in front of a newline -/

theorem head?_newline_ne {d : Char} (hd : d ≠ '\n') (h : cs.head? ≠ some d) (ds : List Char) :
    (cs ++ '\n' :: ds).head? ≠ some d := by
  cases cs with
  | nil => simpa using Ne.symm hd
  | cons c cs => exact h

theorem gapOpen_line (hc : c ≠ '\n') :
    gapOpen .lineComment (c :: cs) = gapOpen .lineComment cs := by
  rw [gapOpen.eq_def]
  split <;> simp_all

theorem gapOpen_block (hc : c = '*' → cs.head? ≠ some '/') :
    gapOpen .blockComment (c :: cs) = gapOpen .blockComment cs := by
  rw [gapOpen.eq_def]
  split <;> simp_all

theorem gapOpen_other (hdash : c = '-' → cs.head? ≠ some '-') (hhash : c ≠ '#')
    (hslash : c = '/' → cs.head? ≠ some '*') (hblank : Text.isBlank c) :
    gapOpen .blank (c :: cs) = gapOpen .blank cs := by
  rw [gapOpen.eq_def]
  split <;> simp_all

/-- A gap that ends inside a text ends there too when a newline follows the text. One that lasts to
the end of the text, and not inside a block comment, goes on behind the newline. -/
def Seamless (ds : List Char) (g : Gap) (cs : List Char) : Prop :=
  (gapLength g cs = cs.length → gapOpen g cs = false) →
    gapLength g (cs ++ '\n' :: ds) =
      if gapLength g cs < cs.length then gapLength g cs else cs.length + 1 + gapLength .blank ds

/-- What holds behind the first characters of a gap holds of the gap. -/
theorem Seamless.step {g g' : Gap} {cs' : List Char} {k : Nat}
    (hlength : gapLength g cs = gapLength g' cs' + k) (hsize : cs.length = cs'.length + k)
    (hopen : gapOpen g cs = gapOpen g' cs')
    (hlong : gapLength g (cs ++ '\n' :: ds) = gapLength g' (cs' ++ '\n' :: ds) + k)
    (ih : Seamless ds g' cs') : Seamless ds g cs := by
  intro hclosed
  rw [hlong, ih (fun hend => hopen ▸ hclosed (by omega)), hlength, hsize]
  split <;> split <;> omega

theorem seamless (ds : List Char) (g : Gap) (cs : List Char) : Seamless ds g cs := by
  induction g, cs using gapLength.induct with
  | case1 cs ih => exact ih.step rfl rfl rfl rfl
  | case2 cs ih => exact ih.step rfl rfl rfl rfl
  | case3 cs ih => exact ih.step rfl rfl rfl rfl
  | case4 c cs hdash hhash hslash hblank ih =>
    have hdash := head?_ne hdash
    have hslash := head?_ne hslash
    refine ih.step ?_ rfl (gapOpen_other hdash hhash hslash hblank) ?_
    · rw [gapLength_other hdash hhash hslash, if_pos hblank]
    · rw [List.cons_append, gapLength_other (fun hc => head?_newline_ne (by decide) (hdash hc) ds)
        hhash (fun hc => head?_newline_ne (by decide) (hslash hc) ds), if_pos hblank]
  | case5 c cs hdash hhash hslash hblank =>
    have hdash := head?_ne hdash
    have hslash := head?_ne hslash
    intro _
    rw [List.cons_append, gapLength_other (fun hc => head?_newline_ne (by decide) (hdash hc) ds)
      hhash (fun hc => head?_newline_ne (by decide) (hslash hc) ds), if_neg hblank,
      gapLength_other hdash hhash hslash, if_neg hblank, if_pos (by simp)]
  | case6 cs ih => exact ih.step rfl rfl rfl rfl
  | case7 c cs hc ih =>
    exact ih.step (gapLength_line hc) rfl (gapOpen_line hc) (gapLength_line hc)
  | case8 cs ih => exact ih.step rfl rfl rfl rfl
  | case9 c cs hc ih =>
    have hc := head?_ne hc
    have hlong := gapLength_block fun heq => head?_newline_ne (by decide) (hc heq) ds
    exact ih.step (gapLength_block hc) rfl (gapOpen_block hc) hlong
  | case10 g =>
    -- the newline is a blank, or it ends a line comment
    intro hclosed
    cases g with
    | blank => exact (gapLength_other (by simp) (by decide) (by simp)).trans (Nat.add_comm _ _)
    | lineComment => exact Nat.add_comm _ _
    | blockComment => exact absurd (hclosed rfl) (by decide)

/-! ## Pieces of two texts -/

section EndsInComment

variable {rest : List Char} {kind : TokenKind}

theorem endsInComment_nil (hgap : (gap cs).2 = []) : endsInComment cs = gapOpen .blank cs := by
  rw [endsInComment.eq_def]
  split <;> simp_all

theorem endsInComment_token (hgap : (gap cs).2 = c :: rest)
    (hlex : lexeme? (c :: rest) = some (kind, n)) :
    endsInComment cs = endsInComment ((c :: rest).drop n) := by
  rw [endsInComment.eq_def]
  split
  · simp_all
  · rename_i hgap'
    rw [hgap, List.cons.injEq] at hgap'
    obtain ⟨rfl, rfl⟩ := hgap'
    split <;> simp_all

-- a comment opens neither inside quotes nor inside another comment
example : endsInComment "x /* y".toList = true ∧ endsInComment "'/*' -- /*".toList = false := by
  decide +kernel

end EndsInComment

theorem gap_append (cs : List Char) : (gap cs).1 ++ (gap cs).2 = cs := by
  rw [gap, List.splitAt_eq]
  exact List.take_append_drop _ _

/-- A gap that ends inside a text ends there too when a newline follows the text. -/
theorem gap_newline {rest : List Char} (hgap : (gap cs).2 = c :: rest) (ds : List Char) :
    gap (cs ++ '\n' :: ds) = ((gap cs).1, c :: (rest ++ '\n' :: ds)) := by
  have hlt : gapLength .blank cs < cs.length := by
    have hlength := congrArg List.length hgap
    simp only [gap, List.splitAt_eq, List.length_drop, List.length_cons] at hlength
    omega
  have hlength := seamless ds .blank cs (fun hend => absurd hend (by omega))
  rw [if_pos hlt] at hlength
  have hdrop : cs.drop (gapLength .blank cs) = c :: rest := by
    simpa [gap, List.splitAt_eq] using hgap
  rw [gap, gap, hlength, List.splitAt_eq, List.splitAt_eq,
    List.take_append_of_le_length (Nat.le_of_lt hlt), List.drop_append_of_le_length
    (Nat.le_of_lt hlt), hdrop, List.cons_append]

/-- Pieces are counted from behind a gap. -/
theorem pieces_gap (p : Text.Position) {gone : List Char}
    (h : gapLength .blank (gone ++ cs) = gone.length + gapLength .blank cs) :
    pieces p (gone ++ cs) = pieces (p.after gone) cs := by
  have hgap : gap (gone ++ cs) = (gone ++ (gap cs).1, (gap cs).2) := by
    rw [gap, gap, h, List.splitAt_eq, List.splitAt_eq, List.take_length_add_append,
      List.drop_length_add_append]
  have hafter : p.after (gap (gone ++ cs)).1 = (p.after gone).after (gap cs).1 := by
    rw [hgap, Text.Position.after_append]
  cases hrest : (gap cs).2 with
  | nil => rw [pieces_nil hrest, pieces_nil (by rw [hgap]; exact hrest)]
  | cons c rest =>
    have hrest' : (gap (gone ++ cs)).2 = c :: rest := by rw [hgap]; exact hrest
    cases hlex : lexeme? (c :: rest) with
    | none => rw [pieces_stray hrest hlex, pieces_stray hrest' hlex, hafter]
    | some found =>
      obtain ⟨kind, n⟩ := found
      rw [pieces_token hrest hlex, pieces_token hrest' hlex, hafter]

/-- **The pieces of two texts with a newline between them are those of the first and those of the
second**, if the first has no stray characters and does not end inside a comment. -/
theorem pieces_newline (p : Text.Position) (cs ds : List Char)
    (hstrays : ∀ c q, .stray c q ∉ pieces p cs) (hclosed : endsInComment cs = false) :
    pieces p (cs ++ '\n' :: ds) = pieces p cs ++ pieces (p.after (cs ++ ['\n'])) ds := by
  induction p, cs using pieces.induct with
  | case1 p cs hgap =>
    rw [endsInComment_nil hgap] at hclosed
    have hle : cs.length ≤ gapLength .blank cs := by
      simpa [gap, List.splitAt_eq] using hgap
    have hlength := seamless ds .blank cs (fun _ => hclosed)
    rw [if_neg (by omega)] at hlength
    have hseam : cs ++ '\n' :: ds = (cs ++ ['\n']) ++ ds := by simp
    rw [hseam] at hlength ⊢
    rw [pieces_nil hgap, List.nil_append, pieces_gap p (by simpa using hlength)]
  | case2 p cs here c rest hgap kind n hlex lexeme ih =>
    rw [pieces_token hgap hlex] at hstrays ⊢
    rw [endsInComment_token hgap hlex] at hclosed
    obtain ⟨hlex', hle⟩ := lexeme?_newline hlex ds
    have hgap' := gap_newline hgap ds
    have htake : (c :: (rest ++ '\n' :: ds)).take n = (c :: rest).take n :=
      List.take_append_of_le_length hle
    have hdrop : (c :: (rest ++ '\n' :: ds)).drop n = (c :: rest).drop n ++ '\n' :: ds :=
      List.drop_append_of_le_length hle
    have hplace : p.after (cs ++ ['\n']) =
        (here.after lexeme).after ((c :: rest).drop n ++ ['\n']) := by
      rw [← Text.Position.after_append, ← Text.Position.after_append, ← List.append_assoc,
        ← List.append_assoc, List.append_assoc (gap cs).1, List.take_append_drop, ← hgap,
        gap_append]
    have hlater := ih (fun c q hmem => hstrays c q (List.mem_cons_of_mem _ hmem)) hclosed
    rw [pieces_token (by rw [hgap']) hlex', hgap', htake, hdrop, hlater, hplace, List.cons_append]
  | case3 p cs here c rest hgap hlex ih =>
    rw [pieces_stray hgap hlex] at hstrays
    exact absurd List.mem_cons_self (hstrays c here)

end Scan

/-! ## Texts that start elsewhere -/

/-- A place so many bytes and lines further on. -/
def Text.Position.moved (bytes lines : Nat) (p : Position) : Position :=
  ⟨p.offset + bytes, p.line + lines⟩

/-- A token so many bytes and lines further on. -/
def Token.moved (bytes lines : Nat) (t : Token) : Token :=
  { t with line := t.line + lines, offset := t.offset + bytes }

/-- A stray character so many lines further down. -/
def StrayChar.movedDown (lines : Nat) (s : StrayChar) : StrayChar :=
  { s with line := s.line + lines }

namespace Scan

/-- A piece so many bytes and lines further on. -/
def Piece.moved (bytes lines : Nat) : Piece → Piece
  | .token t => .token (t.moved bytes lines)
  | .stray c p => .stray c (p.moved bytes lines)

variable {bytes lines : Nat}

theorem after_moved (p : Text.Position) (cs : List Char) :
    (p.moved bytes lines).after cs = (p.after cs).moved bytes lines := by
  simp only [Text.Position.after, Text.Position.moved, Text.Position.mk.injEq]
  omega

/-- The pieces of a text that starts elsewhere are the same, moved. -/
theorem pieces_moved (p : Text.Position) (cs : List Char) :
    pieces (p.moved bytes lines) cs = (pieces p cs).map (Piece.moved bytes lines) := by
  induction p, cs using pieces.induct with
  | case1 p cs hgap => rw [pieces_nil hgap, pieces_nil hgap, List.map_nil]
  | case2 p cs here c rest hgap kind n hlex lexeme ih =>
    rw [pieces_token hgap hlex, pieces_token hgap hlex, after_moved, after_moved, ih]
    rfl
  | case3 p cs here c rest hgap hlex ih =>
    rw [pieces_stray hgap hlex, pieces_stray hgap hlex, after_moved, after_moved, ih]
    rfl

theorem tokensOf_append (ps qs : List Piece) : tokensOf (ps ++ qs) = tokensOf ps ++ tokensOf qs :=
  List.filterMap_append

theorem tokensOf_moved (ps : List Piece) :
    tokensOf (ps.map (Piece.moved bytes lines)) = (tokensOf ps).map (Token.moved bytes lines) := by
  induction ps with
  | nil => rfl
  | cons x ps ih =>
    cases x with
    | token t => exact congrArg (t.moved bytes lines :: ·) ih
    | stray c p => exact ih

end Scan

/-! ## Columns behind a newline -/

namespace Text

theorem charOffsets_add (n k : Nat) (cs : List Char) :
    charOffsets (n + k) cs = (charOffsets n cs).map fun x => (x.1 + k, x.2) := by
  induction cs generalizing n with
  | nil => rfl
  | cons c cs ih => rw [charOffsets, Nat.add_right_comm, ih, charOffsets, List.map_cons]

variable (a b : String) (n : Nat)

theorem byteLength_append_newline : byteLength (a ++ "\n").toList = byteLength a.toList + 1 := by
  rw [String.toList_append, byteLength_append]
  rfl

/-- Read backwards from behind a newline, the characters behind it come first, and then the newline.
-/
theorem reverse_charOffsets_newline (cs : List Char) :
    (charOffsets 0 ((a ++ "\n").toList ++ cs)).reverse =
      (charOffsets 0 cs).reverse.map (fun x => (x.1 + (byteLength a.toList + 1), x.2)) ++
        (byteLength a.toList, '\n') :: (charOffsets 0 a.toList).reverse := by
  have hnewline : "\n".toList = ['\n'] := rfl
  rw [charOffsets_append, charOffsets_add, byteLength_append_newline, String.toList_append, hnewline,
    charOffsets_append, List.map_reverse]
  simp [charOffsets]

theorem utf8ByteSize_newline :
    (a ++ "\n" ++ b).utf8ByteSize = b.utf8ByteSize + (byteLength a.toList + 1) := by
  have hnewline : "\n".utf8ByteSize = 1 := rfl
  rw [String.utf8ByteSize_append, String.utf8ByteSize_append, hnewline, byteLength_toList,
    Nat.add_comm]

theorem slice_newline (start stop : Nat) :
    slice (a ++ "\n" ++ b) (start + (byteLength a.toList + 1)) (stop + (byteLength a.toList + 1)) =
      slice b start stop := by
  rw [← byteLength_append_newline, Nat.add_comm start, Nat.add_comm stop, slice_append]

theorem slice_zero_newline : slice (a ++ "\n" ++ b) 0 (n + (byteLength a.toList + 1)) =
    a ++ "\n" ++ slice b 0 n := by
  rw [← byteLength_append_newline, Nat.add_comm n, slice_zero_append]

theorem lineStart_newline : lineStart (a ++ "\n" ++ b) (n + (byteLength a.toList + 1)) =
    lineStart b n + (byteLength a.toList + 1) := by
  rw [lineStart, slice_zero_newline, String.toList_append, reverse_charOffsets_newline,
    List.find?_append, List.find?_map, lineStart]
  simp only [Function.comp_def]
  cases (charOffsets 0 (slice b 0 n).toList).reverse.find? (·.2 = '\n') with
  | none => simp
  | some x => exact Nat.add_right_comm _ _ _

theorem excerptStart_newline : excerptStart (a ++ "\n" ++ b) (n + (byteLength a.toList + 1)) =
    excerptStart b n + (byteLength a.toList + 1) := by
  simp only [excerptStart]
  rw [slice_zero_newline, String.toList_append, reverse_charOffsets_newline,
    Scan.takeWhile_append_cons (by simp), List.takeWhile_map, ← List.map_take, List.getLast?_map]
  simp only [Function.comp_def]
  cases (((charOffsets 0 (slice b 0 n).toList).reverse.takeWhile (·.2 ≠ '\n')).take
    contextWidth).getLast? with
  | none => rfl
  | some x => rfl

theorem excerptStop_newline : excerptStop (a ++ "\n" ++ b) (n + (byteLength a.toList + 1)) =
    excerptStop b n + (byteLength a.toList + 1) := by
  simp only [excerptStop]
  rw [utf8ByteSize_newline, slice_newline]
  cases (((charOffsets 0 (slice b n b.utf8ByteSize).toList).takeWhile (·.2 ≠ '\n')).take
    contextWidth).getLast? with
  | none => rfl
  | some x =>
    show n + (byteLength a.toList + 1) + x.1 + x.2.utf8Size =
      n + x.1 + x.2.utf8Size + (byteLength a.toList + 1)
    omega

/-- Columns are counted from the last newline. -/
theorem columnAt_newline :
    columnAt (a ++ "\n" ++ b) (n + (byteLength a.toList + 1)) = columnAt b n := by
  simp only [columnAt]
  rw [utf8ByteSize_newline, Nat.add_min_add_right, lineStart_newline, slice_newline]

theorem excerptAt_newline :
    excerptAt (a ++ "\n" ++ b) (n + (byteLength a.toList + 1)) = excerptAt b n := by
  simp only [excerptAt]
  rw [utf8ByteSize_newline, Nat.add_min_add_right, excerptStart_newline, excerptStop_newline,
    slice_newline]

end Text

/-! ## Tokens and stray characters of two texts -/

theorem Scan.straysOf_moved (a b : String) (lines : Nat) (ps : List Piece) :
    straysOf (a ++ "\n" ++ b) (ps.map (Piece.moved (Text.byteLength a.toList + 1) lines)) =
      (straysOf b ps).map (StrayChar.movedDown lines) := by
  induction ps with
  | nil => rfl
  | cons x ps ih =>
    cases x with
    | token t => exact ih
    | stray c p =>
      have hcolumn := Text.columnAt_newline a b p.offset
      have hexcerpt := Text.excerptAt_newline a b p.offset
      simp only [straysOf, List.map_cons, Piece.moved, Text.Position.moved, List.filterMap_cons,
        StrayChar.movedDown, hcolumn, hexcerpt] at ih ⊢
      rw [ih]

theorem Scan.straysOf_append (text : String) (ps qs : List Piece) :
    straysOf text (ps ++ qs) = straysOf text ps ++ straysOf text qs :=
  List.filterMap_append

theorem Scan.not_mem_of_straysOf {text : String} {ps : List Piece} (h : straysOf text ps = []) :
    ∀ c p, .stray c p ∉ ps := by
  intro c p hmem
  simpa using List.filterMap_eq_nil_iff.mp h _ hmem

theorem Scan.straysOf_eq_nil {ps : List Piece} (h : ∀ c p, .stray c p ∉ ps) (text : String) :
    straysOf text ps = [] := by
  refine List.filterMap_eq_nil_iff.mpr ?_
  intro x hx
  cases x with
  | token t => rfl
  | stray c p => exact absurd hx (h c p)

/-- **The tokens of two texts with a newline between them are those of the first and those of the
second**, which stand further on. So are the stray characters. -/
theorem tokenize_newline {a : String} (b : String) (hstrays : (tokenize a).2 = [])
    (hclosed : Scan.endsInComment a.toList = false) :
    tokenize (a ++ "\n" ++ b) =
      ((tokenize a).1 ++ (tokenize b).1.map
        (Token.moved (Text.byteLength a.toList + 1) (Text.newlines a.toList + 1)),
       (tokenize b).2.map (StrayChar.movedDown (Text.newlines a.toList + 1))) := by
  have htext : (a ++ "\n" ++ b).toList = a.toList ++ '\n' :: b.toList := by simp
  have hplace : Text.Position.start.after (a.toList ++ ['\n']) =
      Text.Position.start.moved (Text.byteLength a.toList + 1) (Text.newlines a.toList + 1) := by
    simp only [Text.Position.after, Text.Position.moved, Text.Position.mk.injEq,
      Text.byteLength_append, Text.newlines_append]
    exact ⟨rfl, rfl⟩
  have hpieces : Scan.pieces .start (a ++ "\n" ++ b).toList = Scan.pieces .start a.toList ++
      (Scan.pieces .start b.toList).map
        (.moved (Text.byteLength a.toList + 1) (Text.newlines a.toList + 1)) := by
    rw [htext, Scan.pieces_newline _ _ _ (Scan.not_mem_of_straysOf hstrays) hclosed, hplace,
      Scan.pieces_moved]
  have hnone : Scan.straysOf (a ++ "\n" ++ b) (Scan.pieces .start a.toList) = [] :=
    Scan.straysOf_eq_nil (Scan.not_mem_of_straysOf hstrays) _
  simp only [tokenize, hpieces, Scan.tokensOf_append, Scan.straysOf_append, hnone,
    Scan.tokensOf_moved, Scan.straysOf_moved, List.nil_append]

end SchemaScript
