import SchemaScript.Proofs.Dialect.Literal
import SchemaScript.Proofs.Value.Grammar

/-!
# Native terms

A term goes through the text of a dialect and comes back as a native term: with the dialect's words
for points in time, single quotes only, and sequences asked in the dialect's way.

* `Term.words` — the words of a term, as it is written.
* `Term.literals`, `Term.calls` — what a term holds at any depth.
* `Readable` — rows of terms that the grammar derives from words of a text.
* `Target.nativeTerm` — the native term for a term.
* `Readable.derives_native` — the native terms of a readable row are derived from their own words.
-/

set_option autoImplicit false

namespace SchemaScript

open Reader

/-! ## Terms and their words -/

namespace Term

mutual

/-- The words of a term. -/
def words : Term → List Word
  | .literal text => [Word.ofText text]
  | .call function args =>
    Word.ofText function :: Word.lparen :: ([Word.comma].intercalate (wordLists args) ++ [Word.rparen])
  | .expression terms => (wordLists terms).flatten

/-- The words of several terms. -/
def wordLists : List Term → List (List Word)
  | [] => []
  | t :: ts => t.words :: wordLists ts

end

theorem wordLists_eq (ts : List Term) : wordLists ts = ts.map words := by
  induction ts with
  | nil => rfl
  | cons t ts ih => rw [wordLists, ih, List.map_cons]

/-- The words of a row of terms. -/
def rowWords (ts : List Term) : List Word := ts.flatMap words

mutual

/-- The literals of a term. -/
def literals : Term → List String
  | .literal text => [text]
  | .call _ args => rowLiterals args
  | .expression terms => rowLiterals terms

/-- The literals of several terms. -/
def rowLiterals : List Term → List String
  | [] => []
  | t :: ts => t.literals ++ rowLiterals ts

end

mutual

/-- The calls of a term, each with its function and arguments. -/
def calls : Term → List (String × List Term)
  | .literal _ => []
  | .call function args => (function, args) :: rowCalls args
  | .expression terms => rowCalls terms

/-- The calls of several terms. -/
def rowCalls : List Term → List (String × List Term)
  | [] => []
  | t :: ts => t.calls ++ rowCalls ts

end

theorem rowLiterals_append (ts rs : List Term) :
    rowLiterals (ts ++ rs) = rowLiterals ts ++ rowLiterals rs := by
  induction ts with
  | nil => rfl
  | cons t ts ih => simp [rowLiterals, ih]

theorem rowCalls_append (ts rs : List Term) :
    rowCalls (ts ++ rs) = rowCalls ts ++ rowCalls rs := by
  induction ts with
  | nil => rfl
  | cons t ts ih => simp [rowCalls, ih]

end Term

/-- The words of a phrase with these terms: in a row, or each behind a comma. -/
def Phrase.wordsOf : Phrase → List Term → List Word
  | .moreValues, ts | .moreTerms, ts => ts.flatMap fun t => Word.comma :: t.words
  | _, ts => Term.rowWords ts

/-- A row of terms that the grammar derives as a phrase, from words that a text can have. -/
def Readable (p : Phrase) (ts : List Term) : Prop :=
  ∃ ws, (∀ w ∈ ws, w.Lexical) ∧ Derives p ws ts

/-! ## Native terms -/

namespace Target

/-- The native term for a call, given its arguments and their native terms. Oracle asks a sequence
for its next value by a name. -/
def callTerm (t : Target) (function : String) (args nativeArgs : List Term) : Term :=
  match args with
  | .literal sequence :: _ =>
    if t = .oracle ∧ Writer.isNextValue function then
      .literal (Writer.unquoted sequence ++ "." ++ function)
    else .call function nativeArgs
  | _ => .call function nativeArgs

mutual

/-- The native term for a term: what is read back once it is written. -/
def nativeTerm (t : Target) : Term → Term
  | .literal text => t.literalTerm text
  | .call function args => t.callTerm function args (t.nativeTerms args)
  | .expression terms => .expression (t.nativeTerms terms)

/-- The native terms for several terms. -/
def nativeTerms (t : Target) : List Term → List Term
  | [] => []
  | x :: xs => t.nativeTerm x :: t.nativeTerms xs

end

theorem nativeTerms_eq (t : Target) (ts : List Term) : t.nativeTerms ts = ts.map t.nativeTerm := by
  induction ts with
  | nil => rfl
  | cons x xs ih => rw [nativeTerms, ih, List.map_cons]

/-- What Oracle needs of a call to write it as a name: its first argument names a sequence, in
quotes or not. -/
def NamesSequence (t : Target) (call : String × List Term) : Prop :=
  t = .oracle → Writer.isNextValue call.1 →
    ∀ first ∈ call.2.head?, ∃ text, first = .literal text ∧ Scan.isWord (Writer.unquoted text).toList

end Target

/-! ## Native terms are derived from their own words -/

theorem Word.Inline.of_isName {w : Word} (hw : w.Lexical) (hk : w.kind.isName) : w.Inline :=
  ⟨hw, by rintro heq; rw [heq] at hk; cases hk⟩

/-- A row of terms that the grammar derives as a phrase from the words it is written as. -/
structure Canonical (p : Phrase) (ts : List Term) : Prop where
  inline : ∀ w ∈ p.wordsOf ts, w.Inline
  derives : Derives p (p.wordsOf ts) ts

namespace Canonical

theorem of {p : Phrase} {ts : List Term} (ws : List Word) (hwords : p.wordsOf ts = ws)
    (hinline : ∀ w ∈ ws, w.Inline) (hderives : Derives p ws ts) : Canonical p ts :=
  ⟨hwords ▸ hinline, hwords ▸ hderives⟩

/-- A word on its own as a term. -/
theorem of_word {w : Word} (hw : w.Lexical) (hk : w.kind.isConstant ∨ w.kind.isName) :
    Canonical .term [.literal w.value] := by
  have hinline : w.Inline := ⟨hw, by
    rintro heq
    rw [heq] at hk
    rcases hk with hk | hk <;> cases hk⟩
  have hwords : Phrase.wordsOf .term [.literal w.value] = [w] := by
    simp [Phrase.wordsOf, Term.rowWords, Term.words, hinline.ofText_eq]
  refine of [w] hwords (by simpa using hinline) ?_
  rcases hk with hk | hk
  · exact .constant hk
  · exact .name hk

end Canonical

namespace Target

theorem isIdentifier_or_keyword {k : TokenKind} (h : k.isName) :
    k = .identifier ∨ ∃ word, k = .keyword word := by
  cases k with
  | identifier => exact .inl rfl
  | keyword word => exact .inr ⟨word, rfl⟩
  | _ => cases h

theorem wordKind_eq_keyword {v : List Char} {k : Keyword} (h : Scan.wordKind v = .keyword k) :
    Keyword.ofWord? (String.ofList v) = some k := by
  unfold Scan.wordKind at h
  split at h
  · rename_i hk
    cases h
    exact hk
  · cases h

theorem wordKind_cases (v : List Char) :
    Scan.wordKind v = .identifier ∨ ∃ k, Scan.wordKind v = .keyword k := by
  unfold Scan.wordKind
  split
  · exact .inr ⟨_, rfl⟩
  · exact .inl rfl

theorem dateWord?_isDate {t : Target} {k d : Keyword} (h : t.dateWord? k = some d) : d.isDate := by
  rcases dateWord?_eq_some h with ⟨rfl, rfl⟩ | ⟨rfl, rfl⟩ <;> rfl

theorem dateWord?_eq_none {t : Target} {k : Keyword} (h : k.isDate = false) :
    t.dateWord? k = none := by
  cases t <;> rw [dateWord?, if_neg] <;> (intro hk; revert h; simp [hk, Keyword.isDate])
  rcases hk with rfl | rfl <;> rfl

/-- A keyword that stands for no point in time is the same in every dialect. -/
theorem literalTerm_keyword (t : Target) {w : Word} (hw : w.Lexical) {k : Keyword}
    (hk : w.kind = .keyword k) :
    t.literalTerm w.value = .literal (((t.dateWord? k).map Keyword.name).getD w.value) := by
  obtain ⟨hword, hkind⟩ := hw.isWord (.inr ⟨k, hk⟩)
  have hof := wordKind_eq_keyword (hkind.symm.trans hk)
  rw [String.ofList_toList] at hof
  have hquote := Scan.isWord_no_quote hword
  rw [literalTerm_of_unquoted t (Text.singleQuoted?_eq_none hquote.1 hquote.2)
    (.inr (Postgres.sequenceOf?_keyword hof)), nativeWord, hof, Option.bind_some]
  cases hdate : t.dateWord? k with
  | none => simp [Text.collapse_of_no_newline (Scan.isWord_not_mem hword (by decide))]
  | some d =>
    have hline : '\n' ∉ d.name.toList :=
      Scan.isWord_not_mem (d.lexical_word.isWord (.inr ⟨d, rfl⟩)).1 (by decide)
    simp [Text.collapse_of_no_newline hline]

/-- A text without letters and quotes is the same in every dialect. -/
theorem literalTerm_of_no_letter (t : Target) {v : String} (hv : ∀ c ∈ v.toList, c.isAlpha = false)
    (hquote : ∀ c ∈ v.toList, c ≠ '\'' ∧ c ≠ '"' ∧ c ≠ '\n') : t.literalTerm v = .literal v := by
  have hhead : ∀ d, v.toList.head? = some d → d ∈ v.toList := fun d hd =>
    List.mem_of_mem_head? (Option.mem_def.mpr hd)
  have hnone : Text.singleQuoted? v = none :=
    Text.singleQuoted?_eq_none (fun h => (hquote _ (hhead _ h)).1 rfl)
      (fun h => (hquote _ (hhead _ h)).2.1 rfl)
  have hletter : ∀ k ∈ Keyword.all, k.name.toList.any Char.isAlpha = true := by decide +kernel
  rw [literalTerm_of_unquoted t hnone (.inr (Postgres.sequenceOf?_of_no_letter hv)),
    nativeWord_of_ne fun k _ => Text.upper_ne_of_no_letter hv
      (List.any_eq_true.mp (hletter k (Keyword.mem_all k))),
    Text.collapse_of_no_newline fun h => (hquote _ h).2.2 rfl]

theorem literalTerm_sign (t : Target) {v : String} {kind : TokenKind} (hv : kind.sign? = some v) :
    t.literalTerm v = .literal v := by
  have hall : v.toList.all (fun c => c ≠ '\'' ∧ c ≠ '"' ∧ c ≠ '\n') = true := by
    unfold TokenKind.sign? at hv
    split at hv <;> cases hv <;> decide
  refine literalTerm_of_no_letter t (Scan.sign_no_letter hv) fun c hc => ?_
  exact of_decide_eq_true (List.all_eq_true.mp hall c hc)

theorem literalTerm_digits (t : Target) {v : String} (hv : Scan.isNumeral v.toList) :
    t.literalTerm v = .literal v := by
  refine literalTerm_of_no_letter t (Scan.isNumeral_no_letter hv) ?_
  have hdigits : ∀ ds, Scan.isDigits ds → ∀ c ∈ ds, c ≠ '\'' ∧ c ≠ '"' ∧ c ≠ '\n' := by
    intro ds hds c hc
    rw [Scan.isDigits, Bool.and_eq_true, List.all_eq_true] at hds
    have := hds.2 c hc
    refine ⟨?_, ?_, ?_⟩ <;> (rintro rfl; revert this; decide)
  unfold Scan.isNumeral at hv
  split at hv
  · rename_i hcs
    rw [hcs]
    rintro c hc
    rcases List.mem_cons.mp hc with rfl | hc
    · decide
    · exact hdigits _ hv c hc
  · exact hdigits _ hv

end Target

namespace Term

@[simp] theorem rowWords_nil : rowWords [] = [] := rfl

@[simp] theorem rowWords_cons (t : Term) (ts : List Term) :
    rowWords (t :: ts) = t.words ++ rowWords ts := List.flatMap_cons

@[simp] theorem rowWords_append (ts rs : List Term) :
    rowWords (ts ++ rs) = rowWords ts ++ rowWords rs := List.flatMap_append

theorem words_call (f : String) (t : Term) (ts : List Term) :
    words (.call f (t :: ts)) = Word.ofText f :: Word.lparen ::
      (t.words ++ (ts.flatMap (fun t => Word.comma :: t.words) ++ [Word.rparen])) := by
  have hmore : ∀ (t : Term) (ts : List Term), [Word.comma].intercalate ((t :: ts).map words) =
      t.words ++ ts.flatMap fun t => Word.comma :: t.words := by
    intro t ts
    induction ts generalizing t with
    | nil => simp
    | cons u us ih =>
      rw [List.map_cons, List.map_cons, List.intercalate_cons_cons, ← List.map_cons, ih]
      simp
  rw [words, wordLists_eq, hmore, List.append_assoc]

end Term

namespace Canonical

/-- A call with arguments. -/
theorem call {f : String} {x : Term} {xs : List Term} (hf : (Word.ofText f).Inline)
    (hname : (Word.ofText f).kind.isName) (hx : Canonical .value [x])
    (hxs : Canonical .moreValues xs) : Canonical .term [.call f (x :: xs)] := by
  have hwords : Phrase.wordsOf .term [.call f (x :: xs)] = Word.ofText f :: Word.lparen ::
      (Phrase.wordsOf .value [x] ++ (Phrase.wordsOf .moreValues xs ++ [Word.rparen])) := by
    simp [Phrase.wordsOf, Term.words_call]
  refine of _ hwords ?_ (.call hname rfl rfl hx.derives hxs.derives)
  simp only [List.forall_mem_cons, List.forall_mem_append]
  exact ⟨hf, Word.inline_lparen, hx.inline, hxs.inline, Word.inline_rparen, nofun⟩

theorem noValue : Canonical .moreValues [] := of [] rfl nofun .noValue

theorem noTerm : Canonical .moreTerms [] := of [] rfl nofun .noTerm

theorem done : Canonical .conjunctions [] := of [] rfl nofun .done

theorem single {x : Term} (hx : Canonical .term [x]) : Canonical .value [x] :=
  ⟨hx.inline, hx.derives.single⟩

end Canonical

namespace Target

theorem inline_nextval : (Word.ofText "nextval").Inline ∧ (Word.ofText "nextval").kind.isName := by
  have hword : Scan.isWord "nextval".toList := by decide
  have hkind : Scan.wordKind "nextval".toList = .identifier := by decide +kernel
  rw [Word.ofText_word hword, hkind]
  exact ⟨⟨.word hword hkind.symm, nofun⟩, rfl⟩

/-- A name is native as it is, or as a call where it asks a sequence for its next value. -/
theorem literalTerm_name (t : Target) {w : Word} (hw : w.Lexical) (hk : w.kind.isName) :
    t.literalTerm w.value = .literal w.value ∨ t = .postgres ∧ ∃ sequence : String,
      Scan.isWord sequence.toList ∧
        t.literalTerm w.value = .call "nextval" [.literal (Text.quoted sequence)] := by
  obtain ⟨hword, hkind⟩ := hw.isWord (isIdentifier_or_keyword hk)
  have hquote := Scan.isWord_no_quote hword
  have hnone := Text.singleQuoted?_eq_none hquote.1 hquote.2
  have hnative : t.nativeWord w.value = w.value := by
    refine nativeWord_of_ne fun k hdate heq => ?_
    have hof := Keyword.ofWord?_eq_some.mpr heq
    have hk : k.mayBeName := by
      rw [hkind, Scan.wordKind, String.ofList_toList, hof] at hk
      exact hk
    cases hd : k.isDate with
    | false => rw [dateWord?_eq_none hd] at hdate; cases hdate
    | true =>
      have hsoft : k.mayBeName = false := by revert hd; cases k <;> decide
      exact absurd hk (by rw [hsoft]; decide)
  by_cases hseq : t = .oracle ∨ Postgres.sequenceOf? w.value = none
  · left
    rw [literalTerm_of_unquoted t hnone hseq, hnative,
      Text.collapse_of_no_newline (Scan.isWord_not_mem hword (by decide))]
  · obtain ⟨ht, hsome⟩ := not_or.mp hseq
    obtain ⟨sequence, hsequence⟩ := Option.ne_none_iff_exists'.mp hsome
    obtain rfl : t = .postgres := by cases t <;> first | rfl | exact absurd rfl ht
    exact .inr ⟨rfl, sequence, Postgres.isWord_sequence hword hsequence,
      literalTerm_sequence hnone hsequence⟩

theorem canonical_name (t : Target) {w : Word} (hw : w.Lexical) (hk : w.kind.isName) :
    Canonical .term [t.literalTerm w.value] := by
  rcases t.literalTerm_name hw hk with heq | ⟨-, sequence, -, heq⟩
  · rw [heq]
    exact .of_word hw (.inr hk)
  · rw [heq]
    refine .call inline_nextval.1 inline_nextval.2 (.single ?_) .noValue
    exact .of_word (w := ⟨.singleQuoted, Text.quoted sequence⟩) (.singleQuoted sequence rfl rfl)
      (.inl rfl)

theorem canonical_constant (t : Target) {w : Word} (hw : w.Lexical) (hk : w.kind.isConstant) :
    Canonical .term [t.literalTerm w.value] := by
  cases hw with
  | word hv hkind =>
    rcases wordKind_cases w.value.toList with hid | ⟨k, hkw⟩
    · rw [hkind, hid] at hk
      cases hk
    · rw [literalTerm_keyword t (.word hv hkind) (hkind.trans hkw)]
      cases hd : t.dateWord? k with
      | none => exact .of_word (.word hv hkind) (.inl hk)
      | some d => exact .of_word d.lexical_word (.inl (dateWord?_isDate hd))
  | digits hv hkind =>
    rw [literalTerm_digits t hv]
    exact .of_word (.digits hv hkind) (.inl hk)
  | singleQuoted content hv hkind =>
    rw [hv, literalTerm_of_quoted t (Text.singleQuoted?_quoted content), Text.collapse_quoted]
    exact .of_word (w := ⟨.singleQuoted, Text.quoted (Text.collapse content)⟩)
      (.singleQuoted _ rfl rfl) (.inl rfl)
  | doubleQuoted content hc hv hkind =>
    rw [literalTerm_of_quoted t (Text.singleQuoted?_doubleQuoted hv), Text.collapse_quoted]
    exact .of_word (w := ⟨.singleQuoted, Text.quoted (Text.collapse (String.ofList content))⟩)
      (.singleQuoted _ rfl rfl) (.inl rfl)
  | placeholder hv hkind => rw [hkind] at hk; cases hk
  | inclusion hv hn hkind => rw [hkind] at hk; cases hk
  | sign hv =>
    unfold TokenKind.sign? at hv
    split at hv <;> simp_all [TokenKind.isConstant]

/-- Oracle's name for the next value of a sequence is a name. -/
theorem lexical_nextval {sequence f : String} (hs : Scan.isWord sequence.toList)
    (hf : Scan.isWord f.toList) : Word.Lexical ⟨.identifier, sequence ++ "." ++ f⟩ := by
  have hword : Scan.isWord (sequence ++ "." ++ f).toList := by
    cases hcs : sequence.toList with
    | nil => simp [hcs, Scan.isWord] at hs
    | cons c cs =>
      have hdot : Scan.isWordChar '.' := by decide
      rw [hcs, Scan.isWord, Bool.and_eq_true] at hs
      simp only [String.toList_append, hcs, List.cons_append, Scan.isWord, hs.1, List.all_append,
        hs.2, Scan.isWord_all hf, Bool.true_and, Bool.and_true]
      exact hdot
  have hkind : Scan.wordKind (sequence ++ "." ++ f).toList = .identifier := by
    have hdot : ∀ k ∈ Keyword.all, '.' ∉ k.name.toList := by decide +kernel
    rcases wordKind_cases (sequence ++ "." ++ f).toList with h | ⟨k, h⟩
    · exact h
    · have hupper := Keyword.ofWord?_eq_some.mp (wordKind_eq_keyword h)
      refine absurd ?_ (hdot k (Keyword.mem_all k))
      rw [← hupper, Text.upper, String.toList_ofList, String.ofList_toList]
      exact List.mem_map.mpr ⟨'.', by simp, by decide⟩
  exact .word hword hkind.symm

theorem isWord_of_isNextValue {f : String} (h : Writer.isNextValue f) : Scan.isWord f.toList := by
  rw [Writer.isNextValue, Text.sameName_iff, ← String.toList_inj] at h
  simp only [Text.lower, String.toList_ofList] at h
  have halpha : ∀ c ∈ f.toList, c.isAlpha := by
    intro c hc
    have hmem : c.toLower ∈ "nextval".toList.map Char.toLower := h ▸ List.mem_map_of_mem hc
    have hletters : ("nextval".toList.map Char.toLower).all Char.isAlpha = true := by decide
    rw [← Text.isAlpha_toLower]
    exact List.all_eq_true.mp hletters _ hmem
  cases hcs : f.toList with
  | nil => rw [hcs] at h; cases h
  | cons c cs =>
    rw [hcs] at halpha
    rw [Scan.isWord, Bool.and_eq_true, List.all_eq_true]
    refine ⟨halpha c (by simp), fun d hd => ?_⟩
    simp [Scan.isWordChar, Char.isAlphanum, halpha d (by simp [hd])]

theorem callTerm_cases (t : Target) (f : String) (x : Term) (xs ys : List Term) :
    t.callTerm f (x :: xs) ys = .call f ys ∨ ∃ sequence, x = .literal sequence ∧ t = .oracle ∧
      Writer.isNextValue f ∧ t.callTerm f (x :: xs) ys =
        .literal (Writer.unquoted sequence ++ "." ++ f) := by
  cases x with
  | literal sequence =>
    by_cases h : t = .oracle ∧ Writer.isNextValue f
    · exact .inr ⟨sequence, rfl, h.1, h.2, by rw [callTerm, if_pos h]⟩
    · exact .inl (by rw [callTerm, if_neg h])
  | call g args => exact .inl rfl
  | expression terms => exact .inl rfl

/-- The words that hold a row together: operators, and keywords that stand for no point in time. -/
theorem structural (t : Target) {w : Word} (hw : w.Lexical)
    (hk : w.kind.isOperator ∨ ∃ k : Keyword, w.kind = .keyword k ∧ k.isDate = false) :
    w.Inline ∧ t.nativeTerm (.literal w.value) = .literal w.value ∧ Word.ofText w.value = w := by
  have hinline : w.Inline := ⟨hw, by rintro heq; rw [heq] at hk; simp [TokenKind.isOperator] at hk⟩
  refine ⟨hinline, ?_, hinline.ofText_eq⟩
  rw [nativeTerm]
  rcases hk with hop | ⟨k, hk, hdate⟩
  · cases hw with
    | sign hv => exact literalTerm_sign t hv
    | word _ hkind =>
      rw [hkind] at hop
      rcases wordKind_cases w.value.toList with h | ⟨k, h⟩ <;> (rw [h] at hop; cases hop)
    | digits _ hkind | singleQuoted _ _ hkind | doubleQuoted _ _ _ hkind | placeholder _ hkind
      | inclusion _ _ hkind => rw [hkind] at hop; cases hop
  · rw [literalTerm_keyword t hw hk, dateWord?_eq_none hdate]
    rfl

end Target

theorem Word.ofText_lparen : Word.ofText "(" = Word.lparen := Word.inline_lparen.ofText_eq

theorem Word.ofText_rparen : Word.ofText ")" = Word.rparen := Word.inline_rparen.ofText_eq

theorem Word.ofText_comma : Word.ofText "," = Word.comma := Word.inline_comma.ofText_eq

namespace Target

theorem nativeTerm_lparen (t : Target) : t.nativeTerm (.literal "(") = .literal "(" :=
  t.literalTerm_sign (show TokenKind.lparen.sign? = some "(" from rfl)

theorem nativeTerm_rparen (t : Target) : t.nativeTerm (.literal ")") = .literal ")" :=
  t.literalTerm_sign (show TokenKind.rparen.sign? = some ")" from rfl)

theorem nativeTerm_comma (t : Target) : t.nativeTerm (.literal ",") = .literal "," :=
  t.literalTerm_sign (show TokenKind.comma.sign? = some "," from rfl)

theorem nativeTerms_append (t : Target) (xs ys : List Term) :
    t.nativeTerms (xs ++ ys) = t.nativeTerms xs ++ t.nativeTerms ys := by
  simp [nativeTerms_eq]

theorem nativeTerms_intersperse (t : Target) (xs : List Term) :
    t.nativeTerms (xs.intersperse (.literal ",")) =
      (t.nativeTerms xs).intersperse (.literal ",") := by
  rw [nativeTerms_eq, nativeTerms_eq]
  induction xs with
  | nil => rfl
  | cons x xs ih =>
    cases xs with
    | nil => rfl
    | cons y ys =>
      rw [List.intersperse_cons_cons, List.map_cons, List.map_cons, ih, nativeTerm_comma]
      rfl

end Target

theorem Term.rowWords_intersperse (x : Term) (xs : List Term) :
    rowWords ((x :: xs).intersperse (.literal ",")) =
      x.words ++ Phrase.wordsOf .moreTerms xs := by
  induction xs generalizing x with
  | nil => simp [Phrase.wordsOf]
  | cons y ys ih =>
    rw [List.intersperse_cons_cons, rowWords_cons, rowWords_cons, ih]
    simp [Phrase.wordsOf, words, Word.ofText_comma]

theorem Term.mem_rowCalls_intersperse (ts : List Term) (c : String × List Term) :
    c ∈ rowCalls (ts.intersperse (.literal ",")) ↔ c ∈ rowCalls ts := by
  induction ts with
  | nil => rfl
  | cons x xs ih =>
    cases xs with
    | nil => rfl
    | cons y ys =>
      rw [List.intersperse_cons_cons]
      simp only [rowCalls, calls, List.nil_append, List.mem_append] at ih ⊢
      rw [ih]

theorem Word.Lexical.isNumeral {w : Word} (hw : w.Lexical) (hk : w.kind = .digits) :
    Scan.isNumeral w.value.toList := by
  cases hw with
  | digits hv => exact hv
  | word _ hkind =>
    rw [hk] at hkind
    rcases Target.wordKind_cases w.value.toList with h | ⟨k, h⟩ <;> (rw [h] at hkind; cases hkind)
  | sign hv => rw [hk] at hv; cases hv
  | singleQuoted _ _ hkind | doubleQuoted _ _ _ hkind | placeholder _ hkind
    | inclusion _ _ hkind => rw [hk] at hkind; cases hkind

theorem TokenKind.keyword_of_isConjunction {k : TokenKind} (h : k.isConjunction) :
    ∃ word : Keyword, k = .keyword word ∧ word.isDate = false := by
  unfold isConjunction at h
  split at h
  · exact ⟨_, rfl, rfl⟩
  · exact ⟨_, rfl, rfl⟩
  · cases h

/-- Digits behind a term are native as a sign and a number. -/
theorem Target.canonical_signed (t : Target) {v : String} (hv : Scan.isNumeral v.toList) :
    Canonical .tail (t.nativeTerms (Rules.signed v)) := by
  have hsign : ∀ {kind : TokenKind} {sign number : String}, kind.sign? = some sign →
      kind.isOperator → Scan.isNumeral number.toList →
      Canonical .tail (t.nativeTerms [.literal sign, .literal number]) := by
    intro kind sign number hs hop hn
    have hsi : Word.Inline ⟨kind, sign⟩ := ⟨.sign hs, by rintro rfl; cases hop⟩
    have hni : Word.Inline ⟨.digits, number⟩ := ⟨.digits hn rfl, nofun⟩
    simp only [nativeTerms, nativeTerm, literalTerm_sign t hs, literalTerm_digits t hn]
    refine .of [⟨kind, sign⟩, ⟨.digits, number⟩] ?_ (by simpa using ⟨hsi, hni⟩)
      (.operator hop (.constant rfl))
    simp [Phrase.wordsOf, Term.words, hsi.ofText_eq, hni.ofText_eq]
  unfold Rules.signed
  split
  · rename_i digits hdigits
    rw [hdigits] at hv
    refine hsign (show TokenKind.minus.sign? = some "-" from rfl) rfl ?_
    rw [String.toList_ofList]
    exact Scan.isNumeral_of_isDigits hv
  · exact hsign (show TokenKind.plus.sign? = some "+" from rfl) rfl hv

/-- A row in parentheses. -/
theorem Canonical.parens {ts : List Term} (h : Canonical .condition ts) :
    Term.rowWords (.literal "(" :: (ts ++ [.literal ")"])) =
      Word.lparen :: (Phrase.wordsOf .condition ts ++ [Word.rparen]) ∧
    ∀ w ∈ Word.lparen :: (Phrase.wordsOf .condition ts ++ [Word.rparen]), w.Inline := by
  constructor
  · simp [Phrase.wordsOf, Term.words, Word.ofText_lparen, Word.ofText_rparen]
  · simp only [List.forall_mem_cons, List.forall_mem_append]
    exact ⟨Word.inline_lparen, h.inline, Word.inline_rparen, nofun⟩

/-- **Native terms are derived from their own words.** -/
theorem Derives.canonical (t : Target) {p : Phrase} {ws : List Word} {ts : List Term}
    (h : Derives p ws ts) (hws : ∀ w ∈ ws, w.Lexical)
    (hcalls : ∀ c ∈ Term.rowCalls ts, t.NamesSequence c) : Canonical p (t.nativeTerms ts) := by
  induction h with
  | constant hw => exact t.canonical_constant (hws _ (by simp)) hw
  | name hw => exact t.canonical_name (hws _ (by simp)) hw
  | @callEmpty w l r hw hl hr =>
    have hinline : w.Inline := .of_isName (hws _ (by simp)) hw
    refine .of [w, Word.lparen, Word.rparen] ?_ ?_ (.callEmpty hw rfl rfl)
    · simp [Phrase.wordsOf, Target.nativeTerms, Target.nativeTerm, Target.callTerm, Term.words,
        Term.wordLists, hinline.ofText_eq]
    · simpa using ⟨hinline, Word.inline_lparen, Word.inline_rparen⟩
  | @call w l r us vs x xs hw hl hr hfirst hothers ihfirst ihothers =>
    have hinline : w.Inline := .of_isName (hws _ (by simp)) hw
    simp only [Term.rowCalls, Term.calls, List.append_nil, List.forall_mem_cons,
      List.forall_mem_append] at hcalls
    simp only [List.forall_mem_cons, List.forall_mem_append] at hws
    have hx := ihfirst hws.2.2.1 (by simpa [Term.rowCalls] using hcalls.2.1)
    have hxs := ihothers hws.2.2.2.1 hcalls.2.2
    rcases t.callTerm_cases w.value x xs (t.nativeTerms (x :: xs)) with
      heq | ⟨sequence, rfl, ht, hnext, heq⟩
    · have hcall := Canonical.call (hinline.ofText_eq.symm ▸ hinline)
        (hinline.ofText_eq.symm ▸ hw) hx hxs
      rw [Target.nativeTerms, Target.nativeTerm, heq]
      exact hcall
    · obtain ⟨text, htext, hword⟩ := hcalls.1 ht hnext _ rfl
      cases htext
      rw [Target.nativeTerms, Target.nativeTerm, heq]
      exact .of_word (w := ⟨.identifier, _⟩)
        (Target.lexical_nextval hword (Target.isWord_of_isNextValue hnext)) (.inr rfl)
  | @null w hw =>
    obtain ⟨hinline, hnative, hof⟩ := t.structural (hws _ (by simp)) (.inr ⟨_, hw, rfl⟩)
    refine .of [w] ?_ (by simpa using hinline) ?_
    · simp [Phrase.wordsOf, Target.nativeTerms, hnative, Term.words, hof]
    · rw [Target.nativeTerms, hnative]
      exact .null hw
  | single hterm ih =>
    have hx := ih hws hcalls
    exact ⟨hx.inline, hx.derives.single⟩
  | @expression ws ts _ ih =>
    have hx := ih hws (by simpa [Term.rowCalls, Term.calls] using hcalls)
    refine .of (Phrase.wordsOf .condition (t.nativeTerms ts)) ?_ hx.inline hx.derives.expression
    simp [Phrase.wordsOf, Target.nativeTerms, Target.nativeTerm, Term.words, Term.wordLists_eq,
      Term.rowWords, List.flatMap_def]
  | noValue => exact .noValue
  | @nextValue c us vs x xs hc _ _ ihfirst ihothers =>
    simp only [Term.rowCalls, List.forall_mem_append] at hcalls
    simp only [List.forall_mem_cons, List.forall_mem_append] at hws
    have hx := ihfirst hws.2.1 (by simpa [Term.rowCalls] using hcalls.1)
    have hxs := ihothers hws.2.2 hcalls.2
    refine .of (Word.comma :: (Phrase.wordsOf .value (t.nativeTerms [x]) ++
      Phrase.wordsOf .moreValues (t.nativeTerms xs))) ?_ ?_ (.nextValue rfl hx.derives hxs.derives)
    · simp [Phrase.wordsOf, Target.nativeTerms]
    · simp only [List.forall_mem_cons, List.forall_mem_append]
      exact ⟨Word.inline_comma, hx.inline, hxs.inline⟩
  | noTerm => exact .noTerm
  | @nextTerm c us vs x xs hc _ _ ihfirst ihothers =>
    simp only [Term.rowCalls, List.forall_mem_append] at hcalls
    simp only [List.forall_mem_cons, List.forall_mem_append] at hws
    have hx := ihfirst hws.2.1 (by simpa [Term.rowCalls] using hcalls.1)
    have hxs := ihothers hws.2.2 hcalls.2
    refine .of (Word.comma :: (Phrase.wordsOf .term (t.nativeTerms [x]) ++
      Phrase.wordsOf .moreTerms (t.nativeTerms xs))) ?_ ?_ (.nextTerm rfl hx.derives hxs.derives)
    · simp [Phrase.wordsOf, Target.nativeTerms]
    · simp only [List.forall_mem_cons, List.forall_mem_append]
      exact ⟨Word.inline_comma, hx.inline, hxs.inline⟩
  | @operator w ws ts hw _ ih =>
    simp only [List.forall_mem_cons] at hws
    obtain ⟨hinline, hnative, hof⟩ := t.structural hws.1 (.inl hw)
    have hx := ih hws.2 (by simpa [Term.rowCalls, Term.calls] using hcalls)
    rw [Target.nativeTerms, hnative]
    refine .of (w :: Phrase.wordsOf .term (t.nativeTerms ts)) ?_ ?_ (.operator hw hx.derives)
    · simp [Phrase.wordsOf, Term.words, hof]
    · simpa using ⟨hinline, hx.inline⟩
  | @operatorGroup w l r ws ts hw hl hr _ ih =>
    simp only [List.forall_mem_cons, List.forall_mem_append] at hws
    obtain ⟨hinline, hnative, hof⟩ := t.structural hws.1 (.inl hw)
    have hx := ih hws.2.2.1 (by simpa [Term.rowCalls, Term.calls, Term.rowCalls_append] using hcalls)
    simp only [Target.nativeTerms, Target.nativeTerms_append, hnative, Target.nativeTerm_lparen,
      Target.nativeTerm_rparen]
    refine .of (w :: Word.lparen :: (Phrase.wordsOf .condition (t.nativeTerms ts) ++ [Word.rparen])) ?_ ?_
      (.operatorGroup hw rfl rfl hx.derives)
    · simp [Phrase.wordsOf, Term.words, hof, Word.ofText_lparen, Word.ofText_rparen]
    · exact List.forall_mem_cons.mpr ⟨hinline, hx.parens.2⟩
  | @signed w hw =>
    have hnumeral := (hws w (by simp)).isNumeral hw
    exact t.canonical_signed hnumeral
  | @between w a us vs low high hw ha _ _ ihlow ihhigh =>
    simp only [List.forall_mem_cons, List.forall_mem_append] at hws
    simp only [Term.rowCalls, Term.calls, List.nil_append, List.append_nil,
      List.forall_mem_append] at hcalls
    obtain ⟨hwi, hwn, hwo⟩ := t.structural hws.1 (.inr ⟨_, hw, rfl⟩)
    obtain ⟨hai, han, hao⟩ := t.structural hws.2.2.1 (.inr ⟨_, ha, rfl⟩)
    have hlow := ihlow hws.2.1 (by simpa [Term.rowCalls] using hcalls.1)
    have hhigh := ihhigh hws.2.2.2 (by simpa [Term.rowCalls] using hcalls.2)
    simp only [Target.nativeTerms, hwn, han]
    refine .of (w :: (Phrase.wordsOf .term (t.nativeTerms [low]) ++
      a :: Phrase.wordsOf .term (t.nativeTerms [high]))) ?_ ?_
      (.between hw ha hlow.derives hhigh.derives)
    · simp [Phrase.wordsOf, Target.nativeTerms, Term.words, hwo, hao]
    · simp only [List.forall_mem_cons, List.forall_mem_append]
      exact ⟨hwi, hlow.inline, hai, hhigh.inline⟩
  | @among w l r us vs x xs hw hl hr _ hothers ihfirst ihothers =>
    simp only [List.forall_mem_cons, List.forall_mem_append] at hws
    obtain ⟨hwi, hwn, hwo⟩ := t.structural hws.1 (.inr ⟨_, hw, rfl⟩)
    have hcalls' : ∀ c ∈ Term.rowCalls (x :: xs), t.NamesSequence c := by
      intro c hc
      refine hcalls c ?_
      simp only [Term.rowCalls, Term.calls, Term.rowCalls_append, List.nil_append, List.mem_append]
      exact .inl ((Term.mem_rowCalls_intersperse _ c).mpr hc)
    simp only [Term.rowCalls, List.forall_mem_append] at hcalls'
    have hx := ihfirst hws.2.2.1 (by simpa [Term.rowCalls] using hcalls'.1)
    have hxs := ihothers hws.2.2.2.1 hcalls'.2
    simp only [Target.nativeTerms, Target.nativeTerms_append, Target.nativeTerms_intersperse, hwn,
      Target.nativeTerm_lparen, Target.nativeTerm_rparen]
    refine .of (w :: Word.lparen :: (Phrase.wordsOf .term (t.nativeTerms [x]) ++
      (Phrase.wordsOf .moreTerms (t.nativeTerms xs) ++ [Word.rparen]))) ?_ ?_
      (.among hw rfl rfl hx.derives hxs.derives)
    · have hrow := Term.rowWords_intersperse (t.nativeTerm x) (t.nativeTerms xs)
      have htail : ∀ rs, Phrase.wordsOf .tail rs = Term.rowWords rs := fun _ => rfl
      rw [htail, Term.rowWords_cons, Term.rowWords_cons, Term.rowWords_append, hrow]
      simp [Phrase.wordsOf, Term.words, Target.nativeTerms, hwo, Word.ofText_lparen,
        Word.ofText_rparen]
    · simp only [List.forall_mem_cons, List.forall_mem_append]
      exact ⟨hwi, Word.inline_lparen, hx.inline, hxs.inline, Word.inline_rparen, nofun⟩
  | @isNull w n hw hn =>
    simp only [List.forall_mem_cons] at hws
    obtain ⟨hwi, hwn, hwo⟩ := t.structural hws.1 (.inr ⟨_, hw, rfl⟩)
    obtain ⟨hni, hnn, hno⟩ := t.structural hws.2.1 (.inr ⟨_, hn, rfl⟩)
    simp only [Target.nativeTerms, hwn, hnn]
    refine .of [w, n] ?_ (by simpa using ⟨hwi, hni⟩) (.isNull hw hn)
    simp [Phrase.wordsOf, Term.words, hwo, hno]
  | @isNotNull w m n hw hm hn =>
    simp only [List.forall_mem_cons] at hws
    obtain ⟨hwi, hwn, hwo⟩ := t.structural hws.1 (.inr ⟨_, hw, rfl⟩)
    obtain ⟨hmi, hmn, hmo⟩ := t.structural hws.2.1 (.inr ⟨_, hm, rfl⟩)
    obtain ⟨hni, hnn, hno⟩ := t.structural hws.2.2.1 (.inr ⟨_, hn, rfl⟩)
    simp only [Target.nativeTerms, hwn, hmn, hnn]
    refine .of [w, m, n] ?_ (by simpa using ⟨hwi, hmi, hni⟩) (.isNotNull hw hm hn)
    simp [Phrase.wordsOf, Term.words, hwo, hmo, hno]
  | @group l r ws ts hl hr _ ih =>
    simp only [List.forall_mem_cons, List.forall_mem_append] at hws
    have hx := ih hws.2.1 (by simpa [Term.rowCalls, Term.calls, Term.rowCalls_append] using hcalls)
    simp only [Target.nativeTerms, Target.nativeTerms_append, Target.nativeTerm_lparen,
      Target.nativeTerm_rparen]
    exact .of _ hx.parens.1 hx.parens.2 (.group rfl rfl hx.derives)
  | @groupOperator l r w us vs ts rs hl hr hw _ hterm ih ihoperand =>
    simp only [List.forall_mem_cons, List.forall_mem_append] at hws
    simp only [Term.rowCalls, Term.calls, Term.rowCalls_append, List.nil_append,
      List.forall_mem_append] at hcalls
    obtain ⟨hwi, hwn, hwo⟩ := t.structural hws.2.2.2.1 (.inl hw)
    have hx := ih hws.2.1 hcalls.1
    have hy := ihoperand hws.2.2.2.2 hcalls.2
    simp only [Target.nativeTerms, Target.nativeTerms_append, Target.nativeTerm_lparen,
      Target.nativeTerm_rparen, hwn]
    refine .of (Word.lparen :: (Phrase.wordsOf .condition (t.nativeTerms ts) ++
      Word.rparen :: w :: Phrase.wordsOf .term (t.nativeTerms rs))) ?_ ?_
      (.groupOperator rfl rfl hw hx.derives hy.derives)
    · simp [Phrase.wordsOf, Term.words, hwo, Word.ofText_lparen, Word.ofText_rparen]
    · simp only [List.forall_mem_cons, List.forall_mem_append]
      exact ⟨Word.inline_lparen, hx.inline, Word.inline_rparen, hwi, hy.inline⟩
  | @comparison us vs ts rs _ _ ihfirst ihrest =>
    simp only [List.forall_mem_append] at hws
    simp only [Term.rowCalls_append, List.forall_mem_append] at hcalls
    have hx := ihfirst hws.1 hcalls.1
    have hy := ihrest hws.2 hcalls.2
    rw [Target.nativeTerms_append]
    refine .of _ ?_ (List.forall_mem_append.mpr ⟨hx.inline, hy.inline⟩)
      (.comparison hx.derives hy.derives)
    simp [Phrase.wordsOf]
  | done => exact .done
  | @joined w us vs ts rs hw _ _ ihfirst ihothers =>
    simp only [List.forall_mem_cons, List.forall_mem_append] at hws
    simp only [Term.rowCalls, Term.calls, Term.rowCalls_append, List.nil_append,
      List.forall_mem_append] at hcalls
    obtain ⟨hwi, hwn, hwo⟩ := t.structural hws.1 (.inr (TokenKind.keyword_of_isConjunction hw))
    have hx := ihfirst hws.2.1 hcalls.1
    have hy := ihothers hws.2.2 hcalls.2
    simp only [Target.nativeTerms, Target.nativeTerms_append, hwn]
    refine .of (w :: (Phrase.wordsOf .primary (t.nativeTerms ts) ++
      Phrase.wordsOf .conjunctions (t.nativeTerms rs))) ?_ ?_ (.joined hw hx.derives hy.derives)
    · simp [Phrase.wordsOf, Term.words, hwo]
    · simp only [List.forall_mem_cons, List.forall_mem_append]
      exact ⟨hwi, hx.inline, hy.inline⟩
  | @condition us vs ts rs _ _ ihfirst ihothers =>
    simp only [List.forall_mem_append] at hws
    simp only [Term.rowCalls_append, List.forall_mem_append] at hcalls
    have hx := ihfirst hws.1 hcalls.1
    have hy := ihothers hws.2 hcalls.2
    rw [Target.nativeTerms_append]
    refine .of _ ?_ (List.forall_mem_append.mpr ⟨hx.inline, hy.inline⟩)
      (.condition hx.derives hy.derives)
    simp [Phrase.wordsOf]

/-! ## The literals of readable terms -/

/-- The text of a word of a term: of any word but an inclusion and a placeholder. -/
def IsText (s : String) : Prop :=
  ∃ w : Word, w.Lexical ∧ w.kind ≠ .inclusion ∧ w.kind ≠ .placeholder ∧ w.value = s

theorem IsText.of {w : Word} (hw : w.Lexical) (hi : w.kind ≠ .inclusion)
    (hp : w.kind ≠ .placeholder) : IsText w.value :=
  ⟨w, hw, hi, hp, rfl⟩

theorem isText_lparen : IsText "(" := ⟨_, Word.inline_lparen.lexical, nofun, nofun, rfl⟩

theorem isText_rparen : IsText ")" := ⟨_, Word.inline_rparen.lexical, nofun, nofun, rfl⟩

theorem isText_comma : IsText "," := ⟨_, Word.inline_comma.lexical, nofun, nofun, rfl⟩

theorem isText_signed {v : String} (hv : Scan.isNumeral v.toList) :
    ∀ s ∈ Term.rowLiterals (Rules.signed v), IsText s := by
  have hnumber : ∀ {n : String}, Scan.isNumeral n.toList → IsText n :=
    fun {n} hn => ⟨⟨.digits, n⟩, .digits hn rfl, nofun, nofun, rfl⟩
  unfold Rules.signed
  split
  · rename_i digits hdigits
    rw [hdigits] at hv
    have hrest : IsText (String.ofList digits) :=
      hnumber (by rw [String.toList_ofList]; exact Scan.isNumeral_of_isDigits hv)
    simpa [Term.rowLiterals, Term.literals] using
      ⟨⟨⟨.minus, "-"⟩, .sign rfl, nofun, nofun, rfl⟩, hrest⟩
  · simpa [Term.rowLiterals, Term.literals] using
      ⟨⟨⟨.plus, "+"⟩, .sign rfl, nofun, nofun, rfl⟩, hnumber hv⟩

theorem Term.mem_rowLiterals_intersperse (ts : List Term) (s : String)
    (h : s ∈ rowLiterals (ts.intersperse (.literal ","))) : s = "," ∨ s ∈ rowLiterals ts := by
  induction ts with
  | nil => exact .inr h
  | cons x xs ih =>
    cases xs with
    | nil => exact .inr h
    | cons y ys =>
      rw [List.intersperse_cons_cons] at h
      simp only [rowLiterals, literals, List.mem_append, List.mem_singleton] at ih h ⊢
      grind

/-- Every literal of a row that the grammar derives is the text of a word. -/
theorem Derives.isText {p : Phrase} {ws : List Word} {ts : List Term} (h : Derives p ws ts)
    (hws : ∀ w ∈ ws, w.Lexical) : ∀ s ∈ Term.rowLiterals ts, IsText s := by
  have hof : ∀ {w : Word}, w.Lexical → w.kind ≠ .inclusion → w.kind ≠ .placeholder →
      IsText w.value := IsText.of
  have hclass : ∀ {w : Word}, w.Lexical → (w.kind.isConstant ∨ w.kind.isName ∨ w.kind.isOperator ∨
      w.kind.isConjunction) → IsText w.value := by
    intro w hw hk
    refine hof hw ?_ ?_ <;> (intro heq; simp [heq, TokenKind.isConstant, TokenKind.isName,
      TokenKind.isOperator, TokenKind.isConjunction] at hk)
  induction h with
  | single _ ih => exact ih hws
  | signed hw => exact isText_signed ((hws _ (by simp)).isNumeral hw)
  | @among w l r us vs x xs hw _ _ _ _ ihfirst ihothers =>
    simp only [List.forall_mem_cons, List.forall_mem_append] at hws
    have hx := ihfirst hws.2.2.1
    have hxs := ihothers hws.2.2.2.1
    have hitems : ∀ s ∈ Term.rowLiterals ((x :: xs).intersperse (.literal ",")), IsText s := by
      intro s hs
      rcases Term.mem_rowLiterals_intersperse _ s hs with rfl | hs
      · exact isText_comma
      · simp only [Term.rowLiterals, List.append_nil, List.mem_append] at hx hs
        exact hs.elim (hx s) (hxs s)
    simp only [Term.rowLiterals, Term.literals, Term.rowLiterals_append, List.forall_mem_cons,
      List.forall_mem_append]
    have hnil : ∀ s ∈ ([] : List String), IsText s := by simp
    have hword := hof hws.1 (by rw [hw]; decide) (by rw [hw]; decide)
    exact ⟨⟨hword, hnil⟩, ⟨isText_lparen, hnil⟩, hitems, ⟨isText_rparen, hnil⟩, hnil⟩
  | _ =>
    simp only [List.forall_mem_cons, List.forall_mem_append, Term.rowLiterals, Term.literals,
      Term.rowLiterals_append, List.append_nil] at *
    grind [isText_lparen, isText_rparen]

namespace Readable

variable {p : Phrase} {ts : List Term}

theorem isText (h : Readable p ts) : ∀ s ∈ Term.rowLiterals ts, IsText s := by
  obtain ⟨ws, hws, hd⟩ := h
  exact hd.isText hws

theorem canonical (t : Target) (h : Readable p ts)
    (hcalls : ∀ c ∈ Term.rowCalls ts, t.NamesSequence c) : Canonical p (t.nativeTerms ts) := by
  obtain ⟨ws, hws, hd⟩ := h
  exact hd.canonical t hws hcalls

end Readable

/-! ## Native terms stay as they are -/

namespace Target

theorem dateWord?_dateWord? {t : Target} {k d : Keyword} (h : t.dateWord? k = some d) :
    t.dateWord? d = none := by
  rcases dateWord?_eq_some h with ⟨rfl, rfl⟩ | ⟨rfl, rfl⟩ <;> rfl

theorem nativeTerm_literalTerm (t : Target) {v : String} (hv : IsText v) :
    t.nativeTerm (t.literalTerm v) = t.literalTerm v := by
  have hfixed : t.literalTerm v = .literal v → t.nativeTerm (t.literalTerm v) = t.literalTerm v := by
    intro h
    rw [h, nativeTerm, h]
  have hquoted : ∀ c, t.literalTerm v = .literal (Text.quoted (Text.collapse c)) →
      t.nativeTerm (t.literalTerm v) = t.literalTerm v := by
    intro c h
    rw [h, nativeTerm, literalTerm_of_quoted t (Text.singleQuoted?_quoted _), Text.collapse_quoted,
      Text.collapse_collapse]
  obtain ⟨w, hw, hi, hp, rfl⟩ := hv
  cases hw with
  | word hv hkind =>
    rcases wordKind_cases w.value.toList with hid | ⟨k, hk⟩
    · have hname : w.kind.isName := by rw [hkind, hid]; rfl
      rcases t.literalTerm_name (.word hv hkind) hname with heq | ⟨rfl, sequence, hseq, heq⟩
      · exact hfixed heq
      · have hline := Scan.isWord_not_mem hseq (d := '\n') (by decide)
        rw [heq, nativeTerm, callTerm, if_neg (by simp)]
        simp only [nativeTerms, nativeTerm,
          literalTerm_of_quoted .postgres (Text.singleQuoted?_quoted sequence), Text.collapse_quoted,
          Text.collapse_of_no_newline hline]
    · have heq := literalTerm_keyword t (.word hv hkind) (hkind.trans hk)
      cases hdate : t.dateWord? k with
      | none => exact hfixed (by rw [heq, hdate]; rfl)
      | some d =>
        have hd := literalTerm_keyword t d.lexical_word rfl
        rw [dateWord?_dateWord? hdate] at hd
        rw [heq, hdate]
        exact hd
  | digits hv hkind => exact hfixed (literalTerm_digits t hv)
  | singleQuoted content hv hkind =>
    refine hquoted content ?_
    rw [hv, literalTerm_of_quoted t (Text.singleQuoted?_quoted content), Text.collapse_quoted]
  | doubleQuoted content hc hv hkind =>
    refine hquoted (String.ofList content) ?_
    rw [literalTerm_of_quoted t (Text.singleQuoted?_doubleQuoted hv), Text.collapse_quoted]
  | placeholder hv hkind => exact absurd hkind hp
  | inclusion hv hn hkind => exact absurd hkind hi
  | sign hv => exact hfixed (literalTerm_sign t hv)

theorem nativeTerm_callTerm (t : Target) {f : String} {args : List Term}
    (hargs : t.nativeTerms (t.nativeTerms args) = t.nativeTerms args)
    (hnames : t.NamesSequence (f, args)) :
    t.nativeTerm (t.nativeTerm (.call f args)) = t.nativeTerm (.call f args) := by
  cases args with
  | nil => rfl
  | cons x xs =>
    rw [nativeTerm]
    rcases t.callTerm_cases f x xs (t.nativeTerms (x :: xs)) with
      heq | ⟨sequence, rfl, rfl, hnext, heq⟩
    · rw [heq, nativeTerm, hargs, nativeTerms]
      rcases t.callTerm_cases f (t.nativeTerm x) (t.nativeTerms xs)
        (t.nativeTerm x :: t.nativeTerms xs) with heq' | ⟨sequence, -, rfl, hnext, -⟩
      · exact heq'
      · obtain ⟨text, htext, -⟩ := hnames rfl hnext x rfl
        subst htext
        rw [callTerm, if_pos ⟨rfl, hnext⟩] at heq
        cases heq
    · obtain ⟨text, htext, hword⟩ := hnames rfl hnext _ rfl
      cases htext
      rw [heq, nativeTerm]
      have hlex := lexical_nextval hword (isWord_of_isNextValue hnext)
      rcases oracle.literalTerm_name hlex rfl with h | ⟨h, -⟩
      · exact h
      · cases h

mutual

/-- A native term stays as it is. -/
theorem nativeTerm_nativeTerm (t : Target) : ∀ (x : Term), (∀ s ∈ x.literals, IsText s) →
    (∀ c ∈ x.calls, t.NamesSequence c) → t.nativeTerm (t.nativeTerm x) = t.nativeTerm x
  | .literal text, hlit, _ => by
    rw [nativeTerm]
    exact nativeTerm_literalTerm t (hlit text (by simp [Term.literals]))
  | .call f args, hlit, hcalls => by
    have ih := nativeTerms_nativeTerms t args hlit fun c hc => hcalls c (by simp [Term.calls, hc])
    exact nativeTerm_callTerm t ih (hcalls (f, args) (by simp [Term.calls]))
  | .expression terms, hlit, hcalls => by
    rw [nativeTerm, nativeTerm, nativeTerms_nativeTerms t terms hlit hcalls]

theorem nativeTerms_nativeTerms (t : Target) : ∀ (xs : List Term),
    (∀ s ∈ Term.rowLiterals xs, IsText s) → (∀ c ∈ Term.rowCalls xs, t.NamesSequence c) →
    t.nativeTerms (t.nativeTerms xs) = t.nativeTerms xs
  | [], _, _ => rfl
  | x :: xs, hlit, hcalls => by
    simp only [Term.rowLiterals, Term.rowCalls, List.forall_mem_append] at hlit hcalls
    rw [nativeTerms, nativeTerms, nativeTerm_nativeTerm t x hlit.1 hcalls.1,
      nativeTerms_nativeTerms t xs hlit.2 hcalls.2]

end

end Target

end SchemaScript
