import SchemaScript.Text.Blank
import SchemaScript.Text.Letters
import SchemaScript.Text.Lines
import SchemaScript.Text.Quoted

/-!
# Facts about text

* `trimChars_trimChars` — trimming twice is trimming once.
* `lower_upper`, `upper_upper` — letter case.
* `Tidy` — a text without adjacent newlines, and none at its end. Such texts are closed under
  concatenation, and `collapse` leaves them alone.
* `collapse_quoted` — a quoted literal with its lines collapsed is the literal of the collapsed
  content.
-/

set_option autoImplicit false

namespace SchemaScript.Text

/-! ## Trimming -/

section Trim

variable {p : Char → Bool} {cs : List Char}

theorem dropWhile_eq_self (h : ∀ c ∈ cs.head?, p c = false) : cs.dropWhile p = cs := by
  cases cs with
  | nil => rfl
  | cons c cs => simp [h c (by simp)]

theorem head?_dropWhile_false : ∀ c ∈ (cs.dropWhile p).head?, p c = false := by
  intro c hc
  have h := List.head?_dropWhile_not p cs
  rw [Option.mem_def.mp hc] at h
  simpa using h

theorem head?_trimChars : ∀ c ∈ (trimChars p cs).head?, p c = false := by
  intro c hc
  have hpre : trimChars p cs <+: cs.dropWhile p := by
    have h := List.dropWhile_suffix (l := (cs.dropWhile p).reverse) p
    simpa [trimChars] using List.reverse_prefix.mpr h
  obtain ⟨rest, hrest⟩ := hpre
  have hhead : c ∈ (cs.dropWhile p).head? := by
    rw [Option.mem_def] at hc ⊢
    rw [← hrest, List.head?_append, hc]
    rfl
  exact head?_dropWhile_false c hhead

theorem getLast?_trimChars : ∀ c ∈ (trimChars p cs).getLast?, p c = false := by
  intro c hc
  rw [trimChars, List.getLast?_reverse] at hc
  exact head?_dropWhile_false c hc

/-- A text is trimmed if no member of the class stands at either end. -/
theorem trimChars_eq_self (hfirst : ∀ c ∈ cs.head?, p c = false)
    (hlast : ∀ c ∈ cs.getLast?, p c = false) : trimChars p cs = cs := by
  rw [trimChars, dropWhile_eq_self hfirst, dropWhile_eq_self, List.reverse_reverse]
  intro c hc
  rw [List.head?_reverse] at hc
  exact hlast c hc

theorem trimChars_trimChars : trimChars p (trimChars p cs) = trimChars p cs :=
  trimChars_eq_self head?_trimChars getLast?_trimChars

theorem mem_of_mem_trimChars {c : Char} (h : c ∈ trimChars p cs) : c ∈ cs := by
  rw [trimChars, List.mem_reverse] at h
  have h := (List.dropWhile_suffix p).subset h
  rw [List.mem_reverse] at h
  exact (List.dropWhile_suffix p).subset h

end Trim

/-! ## Letter case -/

theorem toLower_toUpper (c : Char) : c.toUpper.toLower = c.toLower := by
  apply Char.ext
  unfold Char.toLower Char.toUpper
  split <;> split <;> (try split) <;> simp_all <;> grind

theorem toUpper_toLower (c : Char) : c.toLower.toUpper = c.toUpper := by
  apply Char.ext
  unfold Char.toUpper Char.toLower
  split <;> split <;> (try split) <;> simp_all <;> grind

theorem isAlpha_toUpper (c : Char) : c.toUpper.isAlpha = c.isAlpha := by
  unfold Char.toUpper Char.isAlpha Char.isUpper Char.isLower
  split
  · grind
  · rfl

theorem isAlpha_toLower (c : Char) : c.toLower.isAlpha = c.isAlpha := by
  rw [← isAlpha_toUpper c.toLower, toUpper_toLower, isAlpha_toUpper]

theorem isBlank_of_isAlpha {c : Char} (h : c.isAlpha) : isBlank c = false := by
  have hn : (65 ≤ c.toNat ∧ c.toNat ≤ 90) ∨ (97 ≤ c.toNat ∧ c.toNat ≤ 122) := by
    unfold Char.isAlpha Char.isUpper Char.isLower at h
    simp only [Bool.or_eq_true, Bool.and_eq_true,
      decide_eq_true_eq, UInt32.le_iff_toNat_le] at h
    exact h
  simp only [isBlank, Bool.or_eq_false_iff, Bool.and_eq_false_iff, decide_eq_false_iff_not,
    beq_eq_false_iff_ne]
  omega

@[simp] theorem lower_upper (s : String) : lower (upper s) = lower s := by
  simp only [lower, upper, String.toList_ofList, List.map_map, Function.comp_def, toLower_toUpper]

@[simp] theorem upper_lower (s : String) : upper (lower s) = upper s := by
  simp only [lower, upper, String.toList_ofList, List.map_map, Function.comp_def, toUpper_toLower]

@[simp] theorem upper_upper (s : String) : upper (upper s) = upper s := by
  rw [← upper_lower (upper s), lower_upper, upper_lower]

/-! ## Lines -/

theorem head?_collapseLines (cs : List Char) : (collapseLines cs).head? = cs.head? := by
  induction cs with
  | nil => rfl
  | cons c cs ih =>
    rw [collapseLines]
    split
    · rename_i h
      rw [ih, h.2, h.1]
      rfl
    · rfl

/-- A pair of characters starts at the first character of a text or behind it. -/
theorem pair_infix_cons {a b c : Char} {cs : List Char} :
    [a, b] <:+: c :: cs ↔ (c = a ∧ cs.head? = some b) ∨ [a, b] <:+: cs := by
  rw [List.infix_cons_iff, List.cons_prefix_cons]
  cases cs with
  | nil => simp
  | cons d ds => simp [List.cons_prefix_cons, eq_comm]

/-- No empty line is left in a text with its lines collapsed. -/
theorem no_gap_collapseLines (cs : List Char) : ¬ ['\n', '\n'] <:+: collapseLines cs := by
  induction cs with
  | nil => simp [collapseLines]
  | cons c cs ih =>
    rw [collapseLines]
    split
    · exact ih
    · rename_i hpair
      rw [pair_infix_cons, head?_collapseLines, not_or]
      exact ⟨hpair, ih⟩

theorem getLast?_collapseLines (cs : List Char) :
    (collapseLines cs).getLast? = cs.getLast? := by
  induction cs with
  | nil => rfl
  | cons c cs ih =>
    rw [collapseLines]
    split
    · rename_i h
      rw [ih, List.getLast?_cons]
      cases cs with
      | nil => simp at h
      | cons d cs => simp [List.getLast?_cons]
    · rw [List.getLast?_cons, List.getLast?_cons, ih]

theorem collapseLines_append {a b : List Char}
    (h : a.getLast? = some '\n' → b.head? ≠ some '\n') :
    collapseLines (a ++ b) = collapseLines a ++ collapseLines b := by
  induction a with
  | nil => rfl
  | cons c a ih =>
    cases a with
    | nil =>
      have hc : ¬(c = '\n' ∧ b.head? = some '\n') := fun hc => h (by simp [hc.1]) hc.2
      simp [collapseLines, hc]
    | cons d a =>
      have ih := ih (by simpa [List.getLast?_cons] using h)
      rw [List.cons_append, collapseLines, collapseLines, ih, List.cons_append, List.head?_cons,
        List.head?_cons]
      by_cases hcd : c = '\n' ∧ some d = some '\n'
      · rw [if_pos hcd, if_pos hcd]
      · rw [if_neg hcd, if_neg hcd, List.cons_append]

theorem collapseLines_collapseLines (cs : List Char) :
    collapseLines (collapseLines cs) = collapseLines cs := by
  induction cs with
  | nil => rfl
  | cons c cs ih =>
    rw [collapseLines]
    split
    · exact ih
    · rename_i h
      rw [collapseLines, head?_collapseLines, if_neg h, ih]

@[simp] theorem collapse_collapse (s : String) : collapse (collapse s) = collapse s := by
  simp [collapse, collapseLines_collapseLines]

/-- A text without adjacent newlines, and with none at its end. -/
structure Tidy (s : String) : Prop where
  collapsed : collapse s = s
  last_ne : s.toList.getLast? ≠ some '\n'

theorem tidy_empty : Tidy "" := ⟨rfl, by simp⟩

theorem Tidy.append {a b : String} (ha : Tidy a) (hb : Tidy b) : Tidy (a ++ b) := by
  have hac : collapseLines a.toList = a.toList := by
    simpa [collapse] using congrArg String.toList ha.collapsed
  have hbc : collapseLines b.toList = b.toList := by
    simpa [collapse] using congrArg String.toList hb.collapsed
  constructor
  · rw [collapse, String.toList_append, collapseLines_append (fun h => absurd h ha.last_ne), hac,
      hbc, ← String.toList_append, String.ofList_toList]
  · rw [String.toList_append, List.getLast?_append]
    cases hlast : b.toList.getLast? with
    | none => simpa using ha.last_ne
    | some c => simpa [hlast] using hb.last_ne

/-- A newline in front of a tidy text that does not itself open with one. -/
theorem Tidy.newline {s : String} (hs : Tidy s) (hne : s.toList ≠ [])
    (hhead : s.toList.head? ≠ some '\n') : Tidy ("\n" ++ s) := by
  have hsc : collapseLines s.toList = s.toList := by
    simpa [collapse] using congrArg String.toList hs.collapsed
  constructor
  · rw [collapse, String.toList_append, collapseLines_append (fun _ => hhead), hsc,
      String.ofList_append, String.ofList_toList]
    rfl
  · rw [String.toList_append, List.getLast?_append]
    cases hlast : s.toList.getLast? with
    | none => exact absurd (List.getLast?_eq_none_iff.mp hlast) hne
    | some c => simpa [hlast] using hs.last_ne

theorem tidy_of_no_newline {s : String} (h : '\n' ∉ s.toList) : Tidy s := by
  constructor
  · have hkey : ∀ cs : List Char, '\n' ∉ cs → collapseLines cs = cs := by
      intro cs hcs
      induction cs with
      | nil => rfl
      | cons c cs ih =>
        rw [List.mem_cons, not_or] at hcs
        rw [collapseLines, if_neg (fun hc => hcs.1 hc.1.symm), ih hcs.2]
    rw [collapse, hkey _ h, String.ofList_toList]
  · exact fun hlast => h (List.mem_of_getLast? hlast)

/-! ## Quoted literals -/

theorem toList_quoted (s : String) :
    (quoted s).toList = '\'' :: (double s.toList ++ ['\'']) := by
  simp [quoted]

theorem head?_double (cs : List Char) : (double cs).head? = cs.head? := by
  cases cs with
  | nil => rfl
  | cons c cs =>
    rw [double]
    split
    · rename_i h
      rw [h]
      rfl
    · rfl

theorem double_collapseLines (cs : List Char) :
    double (collapseLines cs) = collapseLines (double cs) := by
  induction cs with
  | nil => rfl
  | cons c cs ih =>
    by_cases hq : c = '\''
    · subst hq
      simp [double, collapseLines, ih]
    · have hd : double (c :: cs) = c :: double cs := by rw [double, if_neg hq]
      rw [hd, collapseLines, collapseLines, head?_double]
      split
      · exact ih
      · rw [double, if_neg hq, ih]

/-- Collapsing the lines of a quoted literal collapses those of its content. -/
theorem collapse_quoted (s : String) : collapse (quoted s) = quoted (collapse s) := by
  have hlines : collapseLines (quoted s).toList =
      '\'' :: (collapseLines (double s.toList) ++ ['\'']) := by
    rw [toList_quoted, collapseLines, if_neg (by simp),
      collapseLines_append (fun _ => by simp)]
    rfl
  rw [← String.toList_inj, toList_quoted, collapse, String.toList_ofList, hlines, collapse,
    String.toList_ofList, double_collapseLines]

theorem tidy_quoted {s : String} (h : collapse s = s) : Tidy (quoted s) :=
  ⟨by rw [collapse_quoted, h], by simp [toList_quoted, List.getLast?_cons]⟩

@[simp] theorem singleQuoted?_quoted (s : String) : singleQuoted? (quoted s) = some (quoted s) := by
  simp [singleQuoted?, toList_quoted]

theorem singleQuoted?_doubleQuoted {v : String} {content : List Char}
    (hv : v.toList = '"' :: content ++ ['"']) :
    singleQuoted? v = some (quoted (String.ofList content)) := by
  simp [singleQuoted?, hv]

/-- A text that opens with no quote has no single-quoted form. -/
theorem singleQuoted?_eq_none {v : String} (hsingle : v.toList.head? ≠ some '\'')
    (hdouble : v.toList.head? ≠ some '"') : singleQuoted? v = none := by
  rw [singleQuoted?]
  split
  · simp_all
  · simp_all
  · rfl

end SchemaScript.Text
