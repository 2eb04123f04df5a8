import SchemaScript.Proofs.Token.Lexeme

/-!
# The rules of gaps

The blanks and comments at the head of a text, said without the functions that pass over them.

* `Scan.gapLength_other`, `Scan.gapLength_line`, `Scan.gapLength_block` — one character of a gap.
* `Scan.IsGap` — the longest run of blanks and comments in front of a text.
* `Scan.IsGap.read`, `Scan.isGap_gap` — `gap` cuts a text behind that run.
-/

set_option autoImplicit false

namespace SchemaScript

namespace Scan

variable {cs rest : List Char}

/-! ## One character -/

theorem gapLength_other {c : Char} (hdash : c = '-' → cs.head? ≠ some '-') (hhash : c ≠ '#')
    (hslash : c = '/' → cs.head? ≠ some '*') :
    gapLength .blank (c :: cs) = if Text.isBlank c then gapLength .blank cs + 1 else 0 := by
  rw [gapLength.eq_def]
  split <;> simp_all

theorem gapLength_eq_zero {c : Char} (hdash : c ≠ '-') (hhash : c ≠ '#') (hslash : c ≠ '/')
    (hblank : Text.isBlank c = false) : gapLength .blank (c :: cs) = 0 := by
  rw [gapLength_other (absurd · hdash) hhash (absurd · hslash), hblank]
  rfl

theorem gapLength_dash (h : cs.head? ≠ some '-') : gapLength .blank ('-' :: cs) = 0 := by
  rw [gapLength_other (fun _ => h) (by decide) (by simp)]
  rfl

theorem gapLength_isBlank {c : Char} (hc : Text.isBlank c) (cs : List Char) :
    gapLength .blank (c :: cs) = gapLength .blank cs + 1 := by
  have hne : ∀ d : Char, Text.isBlank d = false → c ≠ d := by
    rintro d hd rfl
    rw [hc] at hd
    cases hd
  rw [gapLength_other (absurd · (hne '-' (by decide))) (hne '#' (by decide))
    (absurd · (hne '/' (by decide))), if_pos hc]

theorem gapLength_line {c : Char} (hc : c ≠ '\n') :
    gapLength .lineComment (c :: cs) = gapLength .lineComment cs + 1 := by
  rw [gapLength.eq_def]
  split <;> simp_all

theorem gapLength_block {c : Char} (hc : c = '*' → cs.head? ≠ some '/') :
    gapLength .blockComment (c :: cs) = gapLength .blockComment cs + 1 := by
  rw [gapLength.eq_def]
  split <;> simp_all

/-! ## Gaps -/

/-- A text opens with a blank or a comment. -/
def OpensGap (cs : List Char) : Prop :=
  (∃ c ∈ cs.head?, Text.isBlank c) ∨ ['-', '-'] <+: cs ∨ ['#'] <+: cs ∨ ['/', '*'] <+: cs

/-- Blanks, line comments and block comments in front of a text that opens with none of these. A
line comment goes to the end of its line, a block comment to the first closing sign, or else to the
end of the text. -/
inductive IsGap : List Char → List Char → Prop
  | nil {rest : List Char} (h : ¬ OpensGap rest) : IsGap [] rest
  | blank {c : Char} {gap rest : List Char} (hc : Text.isBlank c) (h : IsGap gap rest) :
      IsGap (c :: gap) rest
  | line {opening body gap rest : List Char} (hopening : opening = ['-', '-'] ∨ opening = ['#'])
      (hbody : '\n' ∉ body) (hend : ∀ c ∈ (gap ++ rest).head?, c = '\n') (h : IsGap gap rest) :
      IsGap (opening ++ (body ++ gap)) rest
  | block {body gap rest : List Char} (hbody : ¬ ['*', '/'] <:+: body) (h : IsGap gap rest) :
      IsGap ('/' :: '*' :: (body ++ '*' :: '/' :: gap)) rest
  | unclosed {body : List Char} (hbody : ¬ ['*', '/'] <:+: body) : IsGap ('/' :: '*' :: body) []

/-! ### The longest run is found -/

theorem pair_prefix_cons {a b : Char} {cs : List Char} (h : cs.head? = some b) :
    [a, b] <+: a :: cs := by
  obtain ⟨ds, rfl⟩ := List.head?_eq_some_iff.mp h
  exact ⟨ds, rfl⟩

theorem gapLength_of_not_opensGap (h : ¬ OpensGap cs) : gapLength .blank cs = 0 := by
  simp only [OpensGap, not_or] at h
  obtain ⟨hblank, hdash, hhash, hslash⟩ := h
  cases cs with
  | nil => rfl
  | cons c cs =>
    rw [gapLength_other, if_neg fun hc => hblank ⟨c, rfl, hc⟩]
    · rintro rfl hnext
      exact hdash (pair_prefix_cons hnext)
    · rintro rfl
      exact hhash ⟨cs, rfl⟩
    · rintro rfl hnext
      exact hslash (pair_prefix_cons hnext)

theorem gapLength_lineBody {body : List Char} (hbody : '\n' ∉ body)
    (hrest : ∀ c ∈ rest.head?, c = '\n') :
    gapLength .lineComment (body ++ rest) = body.length + gapLength .blank rest := by
  induction body with
  | nil =>
    cases rest with
    | nil => rfl
    | cons c rest =>
      obtain rfl := hrest c rfl
      rw [gapLength_isBlank (by decide), List.length_nil, Nat.zero_add]
      rfl
  | cons c body ih =>
    rw [List.mem_cons, not_or] at hbody
    rw [List.cons_append, gapLength_line (Ne.symm hbody.1), ih hbody.2, List.length_cons]
    omega

theorem gapLength_blockBody {body : List Char} (hbody : ¬ ['*', '/'] <:+: body)
    (rest : List Char) : gapLength .blockComment (body ++ '*' :: '/' :: rest) =
      body.length + 2 + gapLength .blank rest := by
  induction body with
  | nil => exact Nat.add_comm _ _
  | cons c body ih =>
    obtain ⟨hc, hbody⟩ := pair_not_infix_cons hbody
    have hhead : c = '*' → (body ++ '*' :: '/' :: rest).head? ≠ some '/' := by
      intro heq
      have hne := hc heq
      cases body with
      | nil => simp
      | cons d body => exact hne
    rw [List.cons_append, gapLength_block hhead, ih hbody, List.length_cons]
    omega

theorem gapLength_unclosed {body : List Char} (hbody : ¬ ['*', '/'] <:+: body) :
    gapLength .blockComment body = body.length := by
  induction body with
  | nil => rfl
  | cons c body ih =>
    obtain ⟨hc, hbody⟩ := pair_not_infix_cons hbody
    rw [gapLength_block hc, ih hbody, List.length_cons]

/-- **The longest run of blanks and comments is found.** -/
theorem IsGap.read {gap rest : List Char} (h : IsGap gap rest) :
    Scan.gap (gap ++ rest) = (gap, rest) := by
  have hlength : gapLength .blank (gap ++ rest) = gap.length := by
    induction h with
    | nil h => exact gapLength_of_not_opensGap h
    | blank hc _ ih => rw [List.cons_append, gapLength_isBlank hc, ih, List.length_cons]
    | @line opening body gap rest hopening hbody hend _ ih =>
      have hline := gapLength_lineBody hbody hend
      rcases hopening with rfl | rfl
      · change gapLength .lineComment ((body ++ gap) ++ rest) + 2 = _
        rw [List.append_assoc, hline, ih]
        simp
      · change gapLength .lineComment ((body ++ gap) ++ rest) + 1 = _
        rw [List.append_assoc, hline, ih]
        simp
    | @block body gap rest hbody _ ih =>
      have hblock := gapLength_blockBody hbody (gap ++ rest)
      change gapLength .blockComment ((body ++ '*' :: '/' :: gap) ++ rest) + 2 = _
      rw [List.append_assoc, List.cons_append, List.cons_append, hblock, ih]
      simp only [List.length_cons, List.length_append]
      omega
    | @unclosed body hbody =>
      rw [List.append_nil]
      exact congrArg (· + 2) (gapLength_unclosed hbody)
  rw [Scan.gap, hlength, List.splitAt_eq, List.take_left, List.drop_left]

/-! ### What is found is the longest run -/

/-- What is left of a run of blanks and comments, from inside one of them on. -/
def Gap.Leaves : Gap → List Char → List Char → Prop
  | .blank, gap, rest => IsGap gap rest
  | .lineComment, gap, rest => ∃ body tail, gap = body ++ tail ∧ '\n' ∉ body ∧
      (∀ c ∈ (tail ++ rest).head?, c = '\n') ∧ IsGap tail rest
  | .blockComment, gap, rest =>
      (∃ body tail, gap = body ++ '*' :: '/' :: tail ∧ ¬ ['*', '/'] <:+: body ∧ IsGap tail rest) ∨
        (rest = [] ∧ ¬ ['*', '/'] <:+: gap)

theorem Gap.Leaves.line {opening gap rest : List Char}
    (hopening : opening = ['-', '-'] ∨ opening = ['#']) (h : Gap.lineComment.Leaves gap rest) :
    IsGap (opening ++ gap) rest := by
  obtain ⟨body, tail, rfl, hbody, hend, htail⟩ := h
  exact .line hopening hbody hend htail

theorem Gap.Leaves.block {gap rest : List Char} (h : Gap.blockComment.Leaves gap rest) :
    IsGap ('/' :: '*' :: gap) rest := by
  rcases h with ⟨body, tail, rfl, hbody, htail⟩ | ⟨rfl, hbody⟩
  · exact .block hbody htail
  · exact .unclosed hbody

theorem not_opensGap {c : Char} (hdash : c = '-' → cs.head? ≠ some '-') (hhash : c ≠ '#')
    (hslash : c = '/' → cs.head? ≠ some '*') (hblank : ¬ Text.isBlank c) :
    ¬ OpensGap (c :: cs) := by
  rintro (⟨d, hd, hd'⟩ | h | h | h)
  · cases hd
    exact hblank hd'
  · obtain ⟨tail, htail⟩ := h
    cases htail
    exact hdash rfl rfl
  · obtain ⟨tail, htail⟩ := h
    cases htail
    exact hhash rfl
  · obtain ⟨tail, htail⟩ := h
    cases htail
    exact hslash rfl rfl

theorem leaves_gapLength (g : Gap) (cs : List Char) :
    g.Leaves (cs.take (gapLength g cs)) (cs.drop (gapLength g cs)) := by
  induction g, cs using gapLength.induct with
  | case1 cs ih => exact ih.line (.inl rfl)
  | case2 cs ih => exact ih.line (.inr rfl)
  | case3 cs ih => exact ih.block
  | case4 c cs hdash hhash hslash hblank ih =>
    rw [gapLength_isBlank hblank]
    exact .blank hblank ih
  | case5 c cs hdash hhash hslash hblank =>
    have hdash := head?_ne hdash
    have hslash := head?_ne hslash
    rw [gapLength_other hdash hhash hslash, if_neg hblank]
    exact .nil (not_opensGap hdash hhash hslash hblank)
  | case6 cs ih =>
    -- the newline that ends a line comment is the first blank behind it
    exact ⟨[], _, rfl, by simp, fun c hc => (Option.some.inj hc).symm, .blank (by decide) ih⟩
  | case7 c cs hc ih =>
    rw [gapLength_line hc]
    obtain ⟨body, tail, hgap, hbody, hend, htail⟩ := ih
    refine ⟨c :: body, tail, ?_, ?_, hend, htail⟩
    · rw [List.take_succ_cons, hgap, List.cons_append]
    · rw [List.mem_cons, not_or]
      exact ⟨Ne.symm hc, hbody⟩
  | case8 cs ih => exact .inl ⟨[], _, rfl, by simp, ih⟩
  | case9 c cs hc ih =>
    have hc := head?_ne hc
    rw [gapLength_block hc, List.take_succ_cons, List.drop_succ_cons]
    rcases ih with ⟨body, tail, hgap, hbody, htail⟩ | ⟨hrest, hgap⟩
    · refine .inl ⟨c :: body, tail, by rw [hgap, List.cons_append], ?_, htail⟩
      rw [Text.pair_infix_cons, not_or]
      refine ⟨fun ⟨hstar, hslash⟩ => hc hstar ?_, hbody⟩
      refine head?_of_take (n := gapLength .blockComment cs) ?_
      rw [hgap, List.head?_append, hslash]
      rfl
    · refine .inr ⟨hrest, ?_⟩
      rw [Text.pair_infix_cons, not_or]
      exact ⟨fun ⟨hstar, hslash⟩ => hc hstar (head?_of_take hslash), hgap⟩
  | case10 g =>
    cases g with
    | blank => exact .nil (by simp [OpensGap])
    | lineComment => exact ⟨[], [], rfl, by simp, by simp, .nil (by simp [OpensGap])⟩
    | blockComment => exact .inr ⟨rfl, by simp⟩

/-- **A text is cut behind the longest run of blanks and comments.** -/
theorem isGap_gap (cs : List Char) : IsGap (gap cs).1 (gap cs).2 := by
  rw [gap, List.splitAt_eq]
  exact leaves_gapLength .blank cs

theorem isGap_iff {gap rest : List Char} :
    IsGap gap rest ↔ Scan.gap (gap ++ rest) = (gap, rest) := by
  refine ⟨IsGap.read, fun h => ?_⟩
  have hgap := isGap_gap (gap ++ rest)
  rwa [h] at hgap

instance (gap rest : List Char) : Decidable (IsGap gap rest) := decidable_of_iff _ isGap_iff.symm

end Scan

end SchemaScript
