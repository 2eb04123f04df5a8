import SchemaScript.Dialect.Target
import SchemaScript.Proofs.Token.Word
import SchemaScript.Text.Lines
import SchemaScript.Value.Write

/-!
# Literals in a dialect

What the dialects make of the text of a word, by the class of the word.

* `Target.literalText` — the text that a literal is written as.
* `Target.literalText_word`, `Target.literalText_quoted`, … — that text, class by class.
-/

set_option autoImplicit false

namespace SchemaScript

/-! ## Texts without quotes, without letters, and words -/

namespace Text

theorem collapse_of_no_newline {s : String} (h : '\n' ∉ s.toList) : collapse s = s :=
  (tidy_of_no_newline h).collapsed

/-- A text without letters is not, up to letter case, one that has letters. -/
theorem upper_ne_of_no_letter {s t : String} (hs : ∀ c ∈ s.toList, c.isAlpha = false)
    (ht : ∃ c ∈ t.toList, c.isAlpha) : upper s ≠ t := by
  rintro rfl
  obtain ⟨c, hc, halpha⟩ := ht
  rw [upper, String.toList_ofList, List.mem_map] at hc
  obtain ⟨d, hd, rfl⟩ := hc
  rw [isAlpha_toUpper, hs d hd] at halpha
  cases halpha

end Text

namespace Scan

theorem isWord_no_quote {v : List Char} (hv : isWord v) :
    v.head? ≠ some '\'' ∧ v.head? ≠ some '"' := by
  cases v with
  | nil => simp
  | cons c cs =>
    rw [isWord, Bool.and_eq_true] at hv
    constructor <;> (rintro heq; cases heq; revert hv; simp)

theorem isWord_all {v : List Char} (hv : isWord v) : v.all isWordChar := by
  cases v with
  | nil => rfl
  | cons c cs =>
    rw [isWord, Bool.and_eq_true] at hv
    simp [isWordChar, Char.isAlphanum, hv.1]
    simpa [isWordChar, Char.isAlphanum] using hv.2

theorem isWord_not_mem {v : List Char} (hv : isWord v) {d : Char} (hd : isWordChar d = false) :
    d ∉ v := by
  rintro hmem
  rw [List.all_eq_true.mp (isWord_all hv) d hmem] at hd
  cases hd

theorem isNumeral_no_letter {v : List Char} (hv : isNumeral v) : ∀ c ∈ v, c.isAlpha = false := by
  have hdigits : ∀ ds, isDigits ds → ∀ c ∈ ds, c.isAlpha = false := by
    intro ds hds c hc
    rw [isDigits, Bool.and_eq_true, List.all_eq_true] at hds
    exact isAlpha_of_isDigit (hds.2 c hc)
  unfold isNumeral at hv
  split at hv
  · rintro c hc
    rcases List.mem_cons.mp hc with rfl | hc
    · rfl
    · exact hdigits _ hv c hc
  · exact hdigits _ hv

theorem sign_no_letter {kind : TokenKind} {v : String} (hv : kind.sign? = some v) :
    ∀ c ∈ v.toList, c.isAlpha = false := by
  have hall : v.toList.all (fun c => !c.isAlpha) = true := by
    unfold TokenKind.sign? at hv
    split at hv <;> cases hv <;> decide
  intro c hc
  simpa using List.all_eq_true.mp hall c hc

end Scan

/-! ## Sequences -/

namespace Postgres

/-- A literal asks for the next value of a sequence if it is the sequence's name and a suffix. -/
theorem sequenceOf?_eq_some {v sequence : String} (h : sequenceOf? v = some sequence) :
    ∃ suffix, v.toList = sequence.toList ++ suffix ∧ suffix.map Char.toLower = ".nextval".toList := by
  unfold sequenceOf? at h
  simp only at h
  split at h
  · rename_i hsame
    cases h
    refine ⟨_, by rw [String.toList_ofList, List.take_append_drop], ?_⟩
    rw [Text.sameName_iff, ← String.toList_inj] at hsame
    simpa [Text.lower] using hsame
  · cases h

/-- A word that asks for the next value of a sequence opens with the sequence's name, a word. -/
theorem isWord_sequence {v sequence : String} (hv : Scan.isWord v.toList)
    (h : sequenceOf? v = some sequence) : Scan.isWord sequence.toList := by
  obtain ⟨suffix, hsplit, hsuffix⟩ := sequenceOf?_eq_some h
  rw [hsplit] at hv
  cases hseq : sequence.toList with
  | nil =>
    rw [hseq] at hv
    cases suffix with
    | nil => cases hv
    | cons c cs =>
      have hdot : c.toLower = '.' := by simpa using congrArg List.head? hsuffix
      simp only [List.nil_append, Scan.isWord, Bool.and_eq_true] at hv
      rw [← Text.isAlpha_toLower, hdot] at hv
      exact absurd hv.1 (by decide)
  | cons c cs =>
    rw [hseq, List.cons_append, Scan.isWord, List.all_append, Bool.and_eq_true, Bool.and_eq_true] at hv
    simp [Scan.isWord, hv.1, hv.2.1]

theorem sequenceOf?_of_no_letter {v : String} (hv : ∀ c ∈ v.toList, c.isAlpha = false) :
    sequenceOf? v = none := by
  cases h : sequenceOf? v with
  | none => rfl
  | some sequence =>
    obtain ⟨suffix, hsplit, hsuffix⟩ := sequenceOf?_eq_some h
    have hmem : 'n' ∈ suffix.map Char.toLower := by rw [hsuffix]; decide
    obtain ⟨c, hc, hlower⟩ := List.mem_map.mp hmem
    have halpha := hv c (by simp [hsplit, hc])
    rw [← Text.isAlpha_toLower, hlower] at halpha
    cases halpha

/-- No keyword asks for the next value of a sequence. -/
theorem sequenceOf?_keyword {v : String} {k : Keyword} (hv : Keyword.ofWord? v = some k) :
    sequenceOf? v = none := by
  cases h : sequenceOf? v with
  | none => rfl
  | some sequence =>
    obtain ⟨suffix, hsplit, hsuffix⟩ := sequenceOf?_eq_some h
    have hdot : ∀ k ∈ Keyword.all, '.' ∉ k.name.toList := by decide +kernel
    have hmem : '.' ∈ suffix.map Char.toLower := by rw [hsuffix]; decide
    obtain ⟨c, hc, hlower⟩ := List.mem_map.mp hmem
    refine absurd ?_ (hdot k (Keyword.mem_all k))
    rw [← Keyword.ofWord?_eq_some.mp hv, Text.upper, String.toList_ofList, hsplit, List.mem_map]
    refine ⟨c, by simp [hc], ?_⟩
    rw [← Text.toUpper_toLower, hlower]
    decide

end Postgres

/-! ## What a literal is written as -/

/-- The words for points in time that a dialect does not know, and the one that it has for them. -/
def Target.dateWord? : Target → Keyword → Option Keyword
  | .oracle, k => if k = .currentTimestamp ∨ k = .currentDate then some .sysdate else none
  | .postgres, k => if k = .sysdate then some .currentTimestamp else none

/-- A dialect has one word for points in time that it puts in place of others. -/
theorem Target.dateWord?_eq_some {t : Target} {k d : Keyword} (h : t.dateWord? k = some d) :
    (t = .oracle ∧ d = .sysdate) ∨ (t = .postgres ∧ d = .currentTimestamp) := by
  cases t with
  | oracle =>
    rw [dateWord?] at h
    split at h
    · exact .inl ⟨rfl, (Option.some.inj h).symm⟩
    · cases h
  | postgres =>
    rw [dateWord?] at h
    split at h
    · exact .inr ⟨rfl, (Option.some.inj h).symm⟩
    · cases h

/-- A word as a dialect writes it, sequences aside. -/
def Target.nativeWord (t : Target) (v : String) : String :=
  (((Keyword.ofWord? v).bind t.dateWord?).map Keyword.name).getD v

theorem Target.nativeWord_keyword {t : Target} {v : String} {k : Keyword}
    (h : Text.upper v = k.name) : t.nativeWord v = ((t.dateWord? k).map Keyword.name).getD v := by
  rw [nativeWord, Keyword.ofWord?_eq_some.mpr h, Option.bind_some]

theorem Target.nativeWord_of_ne {t : Target} {v : String}
    (h : ∀ k, (t.dateWord? k).isSome → Text.upper v ≠ k.name) : t.nativeWord v = v := by
  cases hk : Keyword.ofWord? v with
  | none => simp [nativeWord, hk]
  | some k =>
    cases hdate : t.dateWord? k with
    | none => simp [nativeWord, hk, hdate]
    | some d => exact absurd (Keyword.ofWord?_eq_some.mp hk) (h k (by rw [hdate]; rfl))

namespace Oracle

theorem nativeLiteral_of_quoted {v q : String} (h : Text.singleQuoted? v = some q) :
    nativeLiteral v = q := by
  unfold nativeLiteral
  rw [h]

theorem nativeLiteral_of_unquoted {v : String} (h : Text.singleQuoted? v = none) :
    nativeLiteral v = Target.oracle.nativeWord v := by
  unfold nativeLiteral
  rw [h]
  dsimp only
  split
  · rename_i hupper
    exact (Target.nativeWord_keyword (t := .oracle) (k := .currentTimestamp) hupper).symm
  · rename_i hupper
    exact (Target.nativeWord_keyword (t := .oracle) (k := .currentDate) hupper).symm
  · rename_i h1 h2
    refine (Target.nativeWord_of_ne fun k hk => ?_).symm
    rw [Target.dateWord?] at hk
    split at hk
    · rename_i hdate
      rcases hdate with rfl | rfl
      · exact h1
      · exact h2
    · cases hk

end Oracle

namespace Postgres

theorem nativeLiteral_of_quoted {v q : String} (h : Text.singleQuoted? v = some q) :
    nativeLiteral v = q := by
  unfold nativeLiteral
  rw [h]

theorem nativeLiteral_of_sequence {v sequence : String} (h : Text.singleQuoted? v = none)
    (hseq : sequenceOf? v = some sequence) : nativeLiteral v = "nextval('" ++ sequence ++ "')" := by
  unfold nativeLiteral
  rw [h, hseq]

theorem nativeLiteral_of_unquoted {v : String} (h : Text.singleQuoted? v = none)
    (hseq : sequenceOf? v = none) : nativeLiteral v = Target.postgres.nativeWord v := by
  unfold nativeLiteral
  rw [h, hseq]
  dsimp only
  split
  · rename_i hsame
    rw [Text.sameName_iff] at hsame
    refine (Target.nativeWord_keyword (t := .postgres) (k := .sysdate) ?_).symm
    rw [← Text.upper_lower, hsame]
    decide
  · rename_i hsame
    refine (Target.nativeWord_of_ne fun k hk => ?_).symm
    rw [Target.dateWord?] at hk
    split at hk
    · rintro hupper
      rename_i hdate
      subst hdate
      refine hsame (Text.sameName_iff.mpr ?_)
      rw [← Text.lower_upper, hupper]
      decide
    · cases hk

end Postgres

namespace Target

theorem nativeLiteral_oracle : oracle.dialect.nativeLiteral = Oracle.nativeLiteral := rfl

theorem nativeLiteral_postgres : postgres.dialect.nativeLiteral = Postgres.nativeLiteral := rfl

/-- The term that is read back from the text of a literal in a dialect. Where a sequence is asked
for its next value by a name, Postgres has a call. -/
def literalTerm (t : Target) (v : String) : Term :=
  match if t = .postgres ∧ Text.singleQuoted? v = none then Postgres.sequenceOf? v else none with
  | some sequence => .call "nextval" [.literal (Text.quoted sequence)]
  | none => .literal (Text.collapse (t.dialect.nativeLiteral v))

theorem literalTerm_sequence {v sequence : String} (h : Text.singleQuoted? v = none)
    (hseq : Postgres.sequenceOf? v = some sequence) :
    postgres.literalTerm v = .call "nextval" [.literal (Text.quoted sequence)] := by
  rw [literalTerm, if_pos ⟨rfl, h⟩, hseq]

theorem literalTerm_of_quoted (t : Target) {v q : String} (h : Text.singleQuoted? v = some q) :
    t.literalTerm v = .literal (Text.collapse q) := by
  rw [literalTerm, if_neg (by simp [h])]
  cases t with
  | oracle => rw [nativeLiteral_oracle, Oracle.nativeLiteral_of_quoted h]
  | postgres => rw [nativeLiteral_postgres, Postgres.nativeLiteral_of_quoted h]

theorem literalTerm_of_unquoted (t : Target) {v : String} (h : Text.singleQuoted? v = none)
    (hseq : t = .oracle ∨ Postgres.sequenceOf? v = none) :
    t.literalTerm v = .literal (Text.collapse (t.nativeWord v)) := by
  cases t with
  | oracle =>
    rw [literalTerm, if_neg (by simp), nativeLiteral_oracle, Oracle.nativeLiteral_of_unquoted h]
  | postgres =>
    have hseq : Postgres.sequenceOf? v = none := by simpa using hseq
    rw [literalTerm, if_pos ⟨rfl, h⟩, hseq, nativeLiteral_postgres,
      Postgres.nativeLiteral_of_unquoted h hseq]

end Target

end SchemaScript
