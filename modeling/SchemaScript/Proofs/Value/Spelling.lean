import SchemaScript.Proofs.Dialect.Spelling
import SchemaScript.Proofs.Value.Native

/-!
# Spelling values

What is written for a value, and what it is read back as.

* `Target.term_nativeTerm` — a value and its native form are written alike.
* `Term.spells` — a native value spells its own words.
-/

set_option autoImplicit false

namespace SchemaScript

open Text (Tidy)

theorem Text.double_of_no_quote {cs : List Char} (h : '\'' ∉ cs) : double cs = cs := by
  induction cs with
  | nil => rfl
  | cons c cs ih =>
    rw [List.mem_cons, not_or] at h
    rw [double, if_neg (Ne.symm h.1), ih h.2]

theorem Scan.isPlaceholder_no_newline {cs : List Char} (h : isPlaceholder cs) : '\n' ∉ cs := by
  unfold isPlaceholder at h
  split at h
  · rename_i inside
    have hlen := placeholderLength_take (eq_of_beq h) []
    rw [List.take_length] at hlen
    simpa using hlen.2.2.2
  · cases h

theorem Scan.isNumeral_no_newline {cs : List Char} (h : isNumeral cs) : '\n' ∉ cs := by
  have hdigits : ∀ ds, isDigits ds → '\n' ∉ ds := by
    intro ds hds hc
    rw [isDigits, Bool.and_eq_true, List.all_eq_true] at hds
    exact absurd (hds.2 _ hc) (by decide)
  unfold isNumeral at h
  split at h
  · simpa using hdigits _ h
  · exact hdigits _ h

theorem TokenKind.sign?_no_newline {kind : TokenKind} {v : String} (h : kind.sign? = some v) :
    '\n' ∉ v.toList := by
  unfold sign? at h
  split at h <;> cases h <;> decide

/-- No word ends in a newline. -/
theorem Word.Inline.getLast?_ne {w : Word} (hw : w.Inline) :
    w.value.toList.getLast? ≠ some '\n' := by
  have hmem : '\n' ∉ w.value.toList → w.value.toList.getLast? ≠ some '\n' := by
    intro h heq
    exact h (List.mem_of_getLast? heq)
  obtain ⟨hlex, hne⟩ := hw
  cases hlex with
  | word hv _ => exact hmem (Scan.isWord_not_mem hv (by decide))
  | digits hv _ => exact hmem (Scan.isNumeral_no_newline hv)
  | singleQuoted content hv _ =>
    rw [hv, Text.toList_quoted]
    simp [List.getLast?_cons]
  | doubleQuoted content _ hv _ => simp [hv, List.getLast?_cons]
  | placeholder hv _ => exact hmem (Scan.isPlaceholder_no_newline hv)
  | inclusion _ _ hk => exact absurd hk hne
  | sign hv => exact hmem (TokenKind.sign?_no_newline hv)

theorem Word.Inline.tidy {w : Word} (hw : w.Inline) (h : Text.collapse w.value = w.value) :
    Tidy w.value :=
  ⟨h, hw.getLast?_ne⟩

namespace Target

variable (t : Target) (o : WriteOptions)

theorem term_literal (v : String) :
    (t.writer o).term (.literal v) = .ok (Text.collapse (t.dialect.nativeLiteral v)) := by
  rw [Writer.term, Writer.write]
  cases t <;> rfl

theorem term_expression (ts : List Term) :
    (t.writer o).term (.expression ts) =
      ((t.writer o).terms ts).map fun texts => Text.collapse (" ".intercalate texts) := by
  rw [Writer.term, Writer.write]
  cases (t.writer o).terms ts <;> cases t <;> rfl

/-- A call is written with its arguments in parentheses, unless it asks for the next value of a
sequence in Oracle. -/
theorem term_call {f : String} {args : List Term}
    (h : t = .oracle → Writer.isNextValue f → args = []) :
    (t.writer o).term (.call f args) = ((t.writer o).terms args).map fun texts =>
      Text.collapse (Writer.withArguments f texts) := by
  rw [Writer.term.eq_def]
  dsimp only
  rw [Writer.write]
  cases t with
  | postgres => cases (Writer.terms _ args) <;> rfl
  | oracle =>
    by_cases hf : Writer.isNextValue f
    · cases h rfl hf
      simp [writer, dialect, Dialect.oracle, Oracle.layout?, hf, Writer.terms]
      rfl
    · simp [writer, dialect, Dialect.oracle, Oracle.layout?, hf]
      cases (Writer.terms _ args) <;> rfl

/-- Oracle asks a sequence for its next value by a name. -/
theorem term_nextval {f sequence : String} {args : List Term} (hf : Writer.isNextValue f) :
    (oracle.writer o).term (.call f (.literal sequence :: args)) =
      .ok (Text.collapse (Writer.unquoted sequence ++ "." ++ f)) := by
  rw [Writer.term, Writer.write]
  simp [writer, dialect, Dialect.oracle, Oracle.layout?, hf]
  rfl

theorem terms_cons (x : Term) (xs : List Term) :
    (t.writer o).terms (x :: xs) = do
      return (← (t.writer o).term x) :: (← (t.writer o).terms xs) := by
  rw [Writer.terms]

/-! ## A value and its native form -/

/-- A literal that is its own native form is written as it is. -/
theorem term_of_literalTerm {u : String} (h : t.literalTerm u = .literal u) :
    Text.collapse u = u ∧ (t.writer o).term (.literal u) = .ok u := by
  have hu : Text.collapse (t.dialect.nativeLiteral u) = u := by
    rw [literalTerm] at h
    split at h
    · cases h
    · exact Term.literal.inj h
  refine ⟨?_, by rw [term_literal, hu]⟩
  rw [← hu, Text.collapse_collapse]

/-- A text that asks for the next value of a sequence is a word. -/
theorem isWord_of_sequence {v sequence : String} (hv : IsText v)
    (hquote : Text.singleQuoted? v = none) (hseq : Postgres.sequenceOf? v = some sequence) :
    Scan.isWord v.toList := by
  have hletter : ¬ ∀ c ∈ v.toList, c.isAlpha = false := by
    intro h
    rw [Postgres.sequenceOf?_of_no_letter h] at hseq
    cases hseq
  obtain ⟨w, hw, hi, hp, rfl⟩ := hv
  cases hw with
  | word hv _ => exact hv
  | digits hv _ => exact absurd (Scan.isNumeral_no_letter hv) hletter
  | singleQuoted content hv _ => simp [hv] at hquote
  | doubleQuoted content _ hv _ => simp [Text.singleQuoted?_doubleQuoted hv] at hquote
  | placeholder _ hk => exact absurd hk hp
  | inclusion _ _ hk => exact absurd hk hi
  | sign hv => exact absurd (Scan.sign_no_letter hv) hletter

theorem term_sequence {v sequence : String} (hv : IsText v) (hquote : Text.singleQuoted? v = none)
    (hseq : Postgres.sequenceOf? v = some sequence) :
    (postgres.writer o).term (.call "nextval" [.literal (Text.quoted sequence)]) =
      (postgres.writer o).term (.literal v) := by
  have hword := Postgres.isWord_sequence (isWord_of_sequence hv hquote hseq) hseq
  have hline : '\n' ∉ sequence.toList := Scan.isWord_not_mem hword (by decide)
  have hnative : postgres.literalTerm (Text.quoted sequence) = .literal (Text.quoted sequence) := by
    rw [literalTerm_of_quoted _ (Text.singleQuoted?_quoted _), Text.collapse_quoted,
      Text.collapse_of_no_newline hline]
  have hquoted : Text.quoted sequence = "'" ++ sequence ++ "'" := by
    rw [Text.quoted, Text.double_of_no_quote (Scan.isWord_not_mem hword (by decide)),
      String.ofList_toList]
  rw [term_call postgres o (fun h => by cases h), terms_cons, (term_of_literalTerm _ o hnative).2,
    term_literal, nativeLiteral_postgres, Postgres.nativeLiteral_of_sequence hquote hseq, hquoted]
  have htext : Writer.withArguments "nextval" ["'" ++ sequence ++ "'"] =
      "nextval('" ++ sequence ++ "')" := by
    rw [← String.toList_inj]
    simp [Writer.withArguments]
  exact congrArg (fun s => Except.ok (Text.collapse s)) htext

theorem term_literalTerm {v : String} (hv : IsText v) :
    (t.writer o).term (t.literalTerm v) = (t.writer o).term (.literal v) := by
  have hfixed := t.nativeTerm_literalTerm hv
  cases hterm : t.literalTerm v with
  | literal u =>
    rw [hterm, nativeTerm] at hfixed
    rw [(term_of_literalTerm t o hfixed).2, term_literal]
    rw [literalTerm] at hterm
    split at hterm
    · cases hterm
    · rw [Term.literal.inj hterm]
  | call f args =>
    rw [literalTerm] at hterm
    split at hterm
    · rename_i sequence hsome
      split at hsome
      · rename_i hcond
        obtain ⟨rfl, hquote⟩ := hcond
        rw [← hterm]
        exact term_sequence o hv hquote hsome
      · cases hsome
    · cases hterm
  | expression ts =>
    rw [literalTerm] at hterm
    split at hterm <;> cases hterm

theorem term_callTerm {f : String} {args : List Term}
    (hargs : (t.writer o).terms (t.nativeTerms args) = (t.writer o).terms args)
    (hfixed : t.nativeTerm (t.nativeTerm (.call f args)) = t.nativeTerm (.call f args))
    (hnames : t.NamesSequence (f, args)) :
    (t.writer o).term (t.nativeTerm (.call f args)) = (t.writer o).term (.call f args) := by
  cases args with
  | nil => rfl
  | cons x xs =>
    rw [nativeTerm] at hfixed ⊢
    rcases t.callTerm_cases f x xs (t.nativeTerms (x :: xs)) with
      heq | ⟨sequence, rfl, rfl, hnext, heq⟩
    · -- no call for the next value of a sequence, or it would have been made a name
      have hnext : t = .oracle → ¬ Writer.isNextValue f := by
        rintro rfl hnext
        obtain ⟨text, rfl, -⟩ := hnames rfl hnext x rfl
        rw [callTerm, if_pos ⟨rfl, hnext⟩] at heq
        cases heq
      rw [heq, term_call t o fun ht hf => absurd hf (hnext ht),
        term_call t o fun ht hf => absurd hf (hnext ht), hargs]
    · rw [heq, nativeTerm] at hfixed
      obtain ⟨hcollapse, hterm⟩ := term_of_literalTerm .oracle o hfixed
      rw [heq, hterm, term_nextval o hnext, hcollapse]

mutual

/-- **A value and its native form are written alike.** -/
theorem term_nativeTerm : ∀ x : Term, (∀ s ∈ x.literals, IsText s) →
    (∀ c ∈ x.calls, t.NamesSequence c) →
    (t.writer o).term (t.nativeTerm x) = (t.writer o).term x
  | .literal v, hlit, _ => term_literalTerm t o (hlit v (by simp [Term.literals]))
  | .call f args, hlit, hcalls => by
    refine term_callTerm t o ?_ (nativeTerm_nativeTerm t _ hlit hcalls)
      (hcalls (f, args) (by simp [Term.calls]))
    exact terms_nativeTerms args hlit fun c hc => hcalls c (by simp [Term.calls, hc])
  | .expression ts, hlit, hcalls => by
    rw [nativeTerm, term_expression, term_expression, terms_nativeTerms ts hlit hcalls]

theorem terms_nativeTerms : ∀ xs : List Term, (∀ s ∈ Term.rowLiterals xs, IsText s) →
    (∀ c ∈ Term.rowCalls xs, t.NamesSequence c) →
    (t.writer o).terms (t.nativeTerms xs) = (t.writer o).terms xs
  | [], _, _ => rfl
  | x :: xs, hlit, hcalls => by
    simp only [Term.rowLiterals, Term.rowCalls, List.forall_mem_append] at hlit hcalls
    rw [nativeTerms, terms_cons, terms_cons, term_nativeTerm x hlit.1 hcalls.1,
      terms_nativeTerms xs hlit.2 hcalls.2]

end

end Target

/-! ## Words of a value -/

theorem List.mem_intercalate {α : Type} {seps l : List α} {ls : List (List α)} {a : α} (hl : l ∈ ls)
    (ha : a ∈ l) : a ∈ seps.intercalate ls := by
  rw [List.intercalate, List.mem_flatten]
  refine ⟨l, ?_, ha⟩
  induction ls with
  | nil => cases hl
  | cons k ks ih =>
    cases ks with
    | nil => simpa using hl
    | cons k' ks =>
      rw [List.intersperse_cons_cons]
      rcases List.mem_cons.mp hl with rfl | hl
      · simp
      · exact List.mem_cons_of_mem _ (List.mem_cons_of_mem _ (ih hl))

theorem List.map_eq_self {α : Type} {f : α → α} {xs : List α} (h : xs.map f = xs) :
    ∀ x ∈ xs, f x = x := by
  induction xs with
  | nil => nofun
  | cons y ys ih =>
    rw [List.map_cons, List.cons.injEq] at h
    exact List.forall_mem_cons.mpr ⟨h.1, ih h.2⟩

theorem Term.mem_rowCalls {c : String × List Term} {ts : List Term} :
    c ∈ rowCalls ts ↔ ∃ x ∈ ts, c ∈ x.calls := by
  induction ts with
  | nil => simp [rowCalls]
  | cons x xs ih => simp [rowCalls, ih]

/-- A word can be read as a name or stands for something else; in either case it spells itself. -/
theorem spells_word {v : String} (hv : Scan.isWord v.toList) : Spells v [Word.ofText v] := by
  have hword := Word.ofText_word hv
  have hcases := Target.wordKind_cases v.toList
  generalize hkind : Scan.wordKind v.toList = kind at hword hcases
  have hinline : (Word.ofText v).Inline := by
    rw [hword]
    refine ⟨.word hv hkind.symm, ?_⟩
    rcases hcases with rfl | ⟨k, rfl⟩ <;> nofun
  exact hinline.spells (Text.tidy_of_no_newline (Scan.isWord_not_mem hv (by decide)))

theorem Rules.rowCalls_signed (digits : String) : Term.rowCalls (signed digits) = [] := by
  unfold signed
  split <;> rfl

/-- Every function that is called in a row that the grammar derives is a word. -/
theorem Derives.isWord_calls {p : Phrase} {ws : List Word} {ts : List Term} (h : Derives p ws ts)
    (hws : ∀ w ∈ ws, w.Lexical) : ∀ c ∈ Term.rowCalls ts, Scan.isWord c.1.toList := by
  have hname : ∀ {w : Word}, w.Lexical → w.kind.isName → Scan.isWord w.value.toList :=
    fun hw hk => (hw.isWord (Target.isIdentifier_or_keyword hk)).1
  induction h with
  | single _ ih => exact ih hws
  | signed => simp [Rules.rowCalls_signed]
  | @among w l r us vs x xs hw _ _ _ _ ihfirst ihothers =>
    simp only [List.forall_mem_cons, List.forall_mem_append] at hws
    have hx := ihfirst hws.2.2.1
    have hxs := ihothers hws.2.2.2.1
    intro c hc
    simp only [Term.rowCalls, Term.calls, Term.rowCalls_append, List.nil_append, List.append_nil,
      Term.mem_rowCalls_intersperse, List.mem_append] at hc hx
    exact hc.elim (hx c) (hxs c)
  | _ =>
    simp only [List.forall_mem_cons, List.forall_mem_append, Term.rowCalls, Term.calls,
      Term.rowCalls_append, List.append_nil] at *
    grind

namespace Target

variable (t : Target) (o : WriteOptions)

/-- What a value needs to spell its own words. -/
structure Spellable (x : Term) : Prop where
  native : t.nativeTerm x = x
  names : ∀ c ∈ x.calls, t.NamesSequence c
  functions : ∀ c ∈ x.calls, Scan.isWord c.1.toList
  inline : ∀ w ∈ x.words, w.Inline

theorem terms_eq_mapM (xs : List Term) : (t.writer o).terms xs = xs.mapM (t.writer o).term := by
  induction xs with
  | nil => rfl
  | cons x xs ih => rw [terms_cons, ih, List.mapM_cons]

variable {t}

theorem Spellable.args {f : String} {args : List Term} (h : t.Spellable (.call f args)) :
    (t = .oracle → Writer.isNextValue f → args = []) ∧ ∀ x ∈ args, t.Spellable x := by
  have hnative := h.native
  have hargs : t.nativeTerms args = args := by
    cases args with
    | nil => rfl
    | cons x xs =>
      rw [nativeTerm] at hnative
      rcases t.callTerm_cases f x xs (t.nativeTerms (x :: xs)) with heq | ⟨_, _, _, _, heq⟩
      · exact (Term.call.inj (heq.symm.trans hnative)).2
      · cases heq.symm.trans hnative
  refine ⟨?_, fun x hx => ?_⟩
  · rintro rfl hnext
    cases args with
    | nil => rfl
    | cons x xs =>
      obtain ⟨text, rfl, -⟩ := h.names (f, x :: xs) (by simp [Term.calls]) rfl hnext x rfl
      rw [nativeTerm, callTerm, if_pos ⟨rfl, hnext⟩] at hnative
      cases hnative
  · have hcalls : ∀ c ∈ x.calls, c ∈ (Term.call f args).calls := fun c hc => by
      rw [Term.calls]
      exact List.mem_cons_of_mem _ (Term.mem_rowCalls.mpr ⟨x, hx, hc⟩)
    refine ⟨?_, fun c hc => h.names c (hcalls c hc), fun c hc => h.functions c (hcalls c hc), ?_⟩
    · rw [nativeTerms_eq] at hargs
      exact List.map_eq_self hargs x hx
    · intro w hw
      refine h.inline w ?_
      rw [Term.words, Term.wordLists_eq]
      have hmem : w ∈ [Word.comma].intercalate (args.map Term.words) :=
        List.mem_intercalate (List.mem_map_of_mem hx) hw
      simp [hmem]

theorem Spellable.terms {ts : List Term} (h : t.Spellable (.expression ts)) :
    ∀ x ∈ ts, t.Spellable x := by
  intro x hx
  have hnative : t.nativeTerms ts = ts := Term.expression.inj h.native
  have hcalls : ∀ c ∈ x.calls, c ∈ (Term.expression ts).calls := fun c hc => by
    rw [Term.calls]
    exact Term.mem_rowCalls.mpr ⟨x, hx, hc⟩
  refine ⟨?_, fun c hc => h.names c (hcalls c hc), fun c hc => h.functions c (hcalls c hc), ?_⟩
  · rw [nativeTerms_eq] at hnative
    exact List.map_eq_self hnative x hx
  · intro w hw
    refine h.inline w ?_
    rw [Term.words, Term.wordLists_eq, ← List.flatMap_def]
    exact List.mem_flatMap.mpr ⟨x, hx, hw⟩

variable (t)

theorem spells_call {f : String} {args : List Term} (hf : Scan.isWord f.toList)
    (hnext : t = .oracle → Writer.isNextValue f → args = [])
    (hargs : ∀ x ∈ args, ∃ text, (t.writer o).term x = .ok text ∧ Spells text x.words) :
    ∃ text, (t.writer o).term (.call f args) = .ok text ∧
      Spells text (Term.words (.call f args)) := by
  obtain ⟨g, hterms, hspell⟩ := mapM_eq_ok hargs
  have hnames := opens_names hspell
  have htext : Spells (Writer.withArguments f (args.map g)) (Term.words (.call f args)) := by
    have happend := (spells_word hf).append hnames.spells (parted_names _).detached
    rw [Term.words, Term.wordLists_eq]
    rw [Writer.names, ← String.append_assoc, ← String.append_assoc] at happend
    exact happend
  refine ⟨_, ?_, htext⟩
  rw [term_call t o hnext, terms_eq_mapM, hterms]
  exact congrArg Except.ok htext.tidy.collapsed

theorem spells_expression {ts : List Term}
    (hts : ∀ x ∈ ts, ∃ text, (t.writer o).term x = .ok text ∧ Spells text x.words) :
    ∃ text, (t.writer o).term (.expression ts) = .ok text ∧
      Spells text (Term.words (.expression ts)) := by
  obtain ⟨g, hterms, hspell⟩ := mapM_eq_ok hts
  have htext : Spells (" ".intercalate (ts.map g)) (Term.words (.expression ts)) := by
    have hlist := spells_intercalate " " hspell (fun x hx => opens_space.append_spells (hspell x hx))
      (by decide)
    rw [List.intercalate_nil_map] at hlist
    rw [Term.words, Term.wordLists_eq, ← List.flatMap_def]
    exact hlist
  refine ⟨_, ?_, htext⟩
  rw [term_expression, terms_eq_mapM, hterms]
  exact congrArg Except.ok htext.tidy.collapsed

mutual

/-- **A native value spells its own words.** -/
theorem spells_term : ∀ x : Term, t.Spellable x →
    ∃ text, (t.writer o).term x = .ok text ∧ Spells text x.words
  | .literal v, h => by
    obtain ⟨hcollapse, hterm⟩ := term_of_literalTerm t o h.native
    have hinline := h.inline (Word.ofText v) (by simp [Term.words])
    exact ⟨v, hterm, hinline.spells (hinline.tidy hcollapse)⟩
  | .call f args, h =>
    spells_call t o (h.functions (f, args) (by simp [Term.calls])) h.args.1
      (spells_terms args h.args.2)
  | .expression ts, h => spells_expression t o (spells_terms ts h.terms)

theorem spells_terms : ∀ xs : List Term, (∀ x ∈ xs, t.Spellable x) →
    ∀ x ∈ xs, ∃ text, (t.writer o).term x = .ok text ∧ Spells text x.words
  | [], _ => nofun
  | x :: xs, h => List.forall_mem_cons.mpr ⟨spells_term x (h x (by simp)),
      spells_terms xs fun y hy => h y (by simp [hy])⟩

end

/-! ### Native values can be spelled -/

theorem names_callTerm {f : String} {args : List Term}
    (hargs : ∀ c ∈ Term.rowCalls (t.nativeTerms args), t.NamesSequence c)
    (hnames : t.NamesSequence (f, args)) :
    ∀ c ∈ (t.nativeTerm (.call f args)).calls, t.NamesSequence c := by
  cases args with
  | nil =>
    rintro c hc - - first hfirst
    rw [show (t.nativeTerm (.call f [])).calls = [(f, [])] from rfl, List.mem_singleton] at hc
    subst hc
    cases hfirst
  | cons x xs =>
    rw [nativeTerm]
    rcases t.callTerm_cases f x xs (t.nativeTerms (x :: xs)) with
      heq | ⟨sequence, rfl, rfl, hnext, heq⟩
    · rw [heq, Term.calls]
      refine List.forall_mem_cons.mpr ⟨?_, hargs⟩
      rintro rfl hnext
      obtain ⟨text, rfl, -⟩ := hnames rfl hnext x rfl
      rw [callTerm, if_pos ⟨rfl, hnext⟩] at heq
      cases heq
    · rw [heq]
      intro c hc
      cases hc

mutual

theorem names_nativeTerm : ∀ x : Term, (∀ c ∈ x.calls, t.NamesSequence c) →
    ∀ c ∈ (t.nativeTerm x).calls, t.NamesSequence c
  | .literal v, _ => by
    rw [nativeTerm, literalTerm]
    split
    · -- a call takes the place of a literal in Postgres only
      rename_i hsome
      split at hsome
      · rename_i ht
        rintro c - rfl
        cases ht.1
      · cases hsome
    · nofun
  | .call f args, h => by
    refine names_callTerm t ?_ (h (f, args) (by simp [Term.calls]))
    exact names_nativeTerms args fun c hc => h c (by simp [Term.calls, hc])
  | .expression ts, h => by
    rw [nativeTerm]
    exact names_nativeTerms ts h

theorem names_nativeTerms : ∀ xs : List Term, (∀ c ∈ Term.rowCalls xs, t.NamesSequence c) →
    ∀ c ∈ Term.rowCalls (t.nativeTerms xs), t.NamesSequence c
  | [], _ => nofun
  | x :: xs, h => by
    simp only [Term.rowCalls, List.forall_mem_append] at h
    simp only [nativeTerms, Term.rowCalls, List.forall_mem_append]
    exact ⟨names_nativeTerm x h.1, names_nativeTerms xs h.2⟩

end

/-- The native form of a value that has been read can be spelled. -/
theorem spellable_nativeTerm {x : Term} (h : Readable .value [x])
    (hcalls : ∀ c ∈ x.calls, t.NamesSequence c) :
    Canonical .value [t.nativeTerm x] ∧ t.Spellable (t.nativeTerm x) := by
  have hrow : Term.rowCalls [x] = x.calls := List.append_nil x.calls
  have hcanonical := h.canonical t (by rw [hrow]; exact hcalls)
  have htext := h.isText
  rw [show Term.rowLiterals [x] = x.literals from List.append_nil x.literals] at htext
  refine ⟨hcanonical, t.nativeTerm_nativeTerm x htext hcalls, t.names_nativeTerm x hcalls, ?_, ?_⟩
  · have hwords := hcanonical.derives.isWord_calls fun w hw => (hcanonical.inline w hw).lexical
    intro c hc
    exact hwords c (List.mem_append_left _ hc)
  · intro w hw
    exact hcanonical.inline w (List.mem_append_left _ hw)

/-- The native form of a condition that has been read can be spelled. -/
theorem spellable_nativeTerms {ts : List Term} (h : Readable .condition ts)
    (hcalls : ∀ c ∈ Term.rowCalls ts, t.NamesSequence c) :
    Canonical .condition (t.nativeTerms ts) ∧ t.Spellable (.expression (t.nativeTerms ts)) := by
  have hcanonical := h.canonical t hcalls
  refine ⟨hcanonical, ?_, t.names_nativeTerms ts hcalls, ?_, ?_⟩
  · rw [nativeTerm, t.nativeTerms_nativeTerms ts h.isText hcalls]
  · exact hcanonical.derives.isWord_calls fun w hw => (hcanonical.inline w hw).lexical
  · intro w hw
    rw [Term.words, Term.wordLists_eq, ← List.flatMap_def] at hw
    exact hcanonical.inline w hw

end Target

end SchemaScript
