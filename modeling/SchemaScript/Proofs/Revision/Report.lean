import Mathlib.Algebra.GroupWithZero.Nat
import Mathlib.Data.List.Basic
import SchemaScript.Revision.Warning

/-!
# The report of warnings

A report counts warnings by code, whatever order they come in. It is made by entering one warning
after the other into lines that are kept in order of their codes.

* `Warning.tally` — how many warnings have a code.
* `Warning.Census` — lines that count some warnings: in ascending order of the codes, just one for
  each code that is present.
* `Warning.Census.enter`, `Warning.census_reportLines` — one warning more, and all of them.
* `Warning.Census.unique` — warnings have no two such lists of lines.
* `Warning.readReport`, `Warning.reported` — a report read back, and the count that it gives for a
  kind.
* `Warning.report_census` — what a report says of the warnings.
-/

set_option autoImplicit false

namespace SchemaScript

/-! ## Kinds and codes -/

namespace WarningKind

theorem code_inj {a b : WarningKind} : a.code = b.code ↔ a = b :=
  ⟨by cases a <;> cases b <;> decide, fun h => h ▸ rfl⟩

theorem summary_inj {a b : WarningKind} : a.summary = b.summary ↔ a = b :=
  ⟨by cases a <;> cases b <;> decide, fun h => h ▸ rfl⟩

theorem newline_not_mem_summary (kind : WarningKind) : '\n' ∉ kind.summary.toList := by
  cases kind <;> decide

end WarningKind

namespace Warning

/-- How many warnings have a code. -/
def tally (warnings : List Warning) (code : Nat) : Nat := warnings.countP (·.kind.code = code)

theorem tally_append (ws vs : List Warning) (code : Nat) :
    tally (ws ++ vs) code = tally ws code + tally vs code :=
  List.countP_append

theorem tally_singleton (w : Warning) (code : Nat) :
    tally [w] code = if w.kind.code = code then 1 else 0 := by
  simp [tally, List.countP_cons]

theorem tally_perm {ws vs : List Warning} (h : ws.Perm vs) : tally ws = tally vs :=
  funext fun _ => h.countP_eq _

theorem tally_eq_zero {ws : List Warning} {code : Nat} :
    tally ws code = 0 ↔ ∀ w ∈ ws, w.kind.code ≠ code := by
  simp [tally, List.countP_eq_zero]

/-! ## One warning more -/

section Enter

variable {w : Warning} {lines : List ReportLine} {line : ReportLine}

/-- The lines with one warning more are those of other codes, and one of its code: that which was
there, with a count of one more, or else a new one. -/
theorem mem_enterInto (hlines : lines.Pairwise fun a b => a.code < b.code) :
    line ∈ w.enterInto lines ↔
      (line ∈ lines ∧ line.code ≠ w.kind.code) ∨
      (∃ old ∈ lines, old.code = w.kind.code ∧ line = { old with count := old.count + 1 }) ∨
      ((∀ old ∈ lines, old.code ≠ w.kind.code) ∧ line = ⟨w.kind.code, 1, w.kind.summary⟩) := by
  induction lines with
  | nil => simp [enterInto]
  | cons first lines ih =>
    obtain ⟨hfirst, hlater⟩ := List.pairwise_cons.mp hlines
    rw [enterInto]
    split
    · rename_i hbelow
      rw [List.mem_cons, ih hlater]
      grind
    · split
      · rename_i hsame
        have hothers : ∀ old ∈ lines, old.code ≠ w.kind.code := fun old hold =>
          Nat.ne_of_gt (hsame ▸ hfirst old hold)
        grind
      · -- the lines behind the first have greater codes still
        have hothers : ∀ old ∈ first :: lines, old.code ≠ w.kind.code := by
          grind
        grind

theorem pairwise_enterInto (w : Warning) (hlines : lines.Pairwise fun a b => a.code < b.code) :
    (w.enterInto lines).Pairwise fun a b => a.code < b.code := by
  induction lines with
  | nil => exact List.pairwise_singleton _ _
  | cons first lines ih =>
    obtain ⟨hfirst, hlater⟩ := List.pairwise_cons.mp hlines
    rw [enterInto]
    split
    · rename_i hbelow
      refine List.pairwise_cons.mpr ⟨fun line hline => ?_, ih hlater⟩
      rcases (mem_enterInto hlater).mp hline with ⟨hold, -⟩ | ⟨old, hold, -, rfl⟩ | ⟨-, rfl⟩
      · exact hfirst line hold
      · exact hfirst old hold
      · exact hbelow
    · split
      · exact List.pairwise_cons.mpr ⟨hfirst, hlater⟩
      · have hnew : w.kind.code < first.code := by omega
        refine List.pairwise_cons.mpr ⟨fun line hline => ?_, hlines⟩
        rcases List.mem_cons.mp hline with rfl | hline
        · exact hnew
        · exact Nat.lt_trans hnew (hfirst line hline)

theorem sum_count_enterInto (w : Warning) (lines : List ReportLine) :
    ((w.enterInto lines).map ReportLine.count).sum = (lines.map ReportLine.count).sum + 1 := by
  induction lines with
  | nil => rfl
  | cons first lines ih =>
    rw [enterInto]
    split
    · simp only [List.map_cons, List.sum_cons, ih]
      omega
    · split
      · simp only [List.map_cons, List.sum_cons]
        omega
      · simp only [List.map_cons, List.sum_cons]
        omega

end Enter

/-! ## All warnings -/

/-- Lines that count some warnings: in ascending order of the codes, there is just one for each code
that a warning has, with their number and the summary. -/
structure Census (lines : List ReportLine) (ws : List Warning) : Prop where
  ascending : lines.Pairwise fun a b => a.code < b.code
  mem_iff : ∀ line, line ∈ lines ↔
    ∃ w ∈ ws, line = ⟨w.kind.code, tally ws w.kind.code, w.kind.summary⟩

namespace Census

variable {lines others : List ReportLine} {ws vs : List Warning}

/-- **One warning more** is counted in the line of its code. -/
theorem enter (h : Census lines ws) (w : Warning) : Census (w.enterInto lines) (ws ++ [w]) := by
  refine ⟨pairwise_enterInto w h.ascending, fun line => ?_⟩
  have hline : ∀ v ∈ ws, (⟨v.kind.code, tally ws v.kind.code, v.kind.summary⟩ : ReportLine) ∈ lines :=
    fun v hv => (h.mem_iff _).mpr ⟨v, hv, rfl⟩
  simp only [mem_enterInto h.ascending, tally_append, tally_singleton]
  constructor
  · rintro (⟨hold, hcode⟩ | ⟨old, hold, hcode, rfl⟩ | ⟨hnone, rfl⟩)
    · obtain ⟨v, hv, rfl⟩ := (h.mem_iff line).mp hold
      exact ⟨v, List.mem_append_left _ hv, by simp [Ne.symm hcode]⟩
    · obtain ⟨v, hv, rfl⟩ := (h.mem_iff old).mp hold
      exact ⟨v, List.mem_append_left _ hv, by simp [show w.kind.code = v.kind.code from hcode.symm]⟩
    · have hzero : tally ws w.kind.code = 0 := tally_eq_zero.mpr fun v hv => hnone _ (hline v hv)
      exact ⟨w, by simp, by simp [hzero]⟩
  · rintro ⟨v, hv, rfl⟩
    rcases List.mem_append.mp hv with hv | hv
    · by_cases hcode : v.kind.code = w.kind.code
      · exact .inr (.inl ⟨_, hline v hv, hcode, by simp [hcode]⟩)
      · exact .inl ⟨by simpa [Ne.symm hcode] using hline v hv, hcode⟩
    · obtain rfl := List.mem_singleton.mp hv
      by_cases hsome : ∃ u ∈ ws, u.kind.code = v.kind.code
      · obtain ⟨u, hu, hcode⟩ := hsome
        have hkind : u.kind = v.kind := WarningKind.code_inj.mp hcode
        exact .inr (.inl ⟨_, hline u hu, hcode, by simp [hkind]⟩)
      · have hnone : ∀ u ∈ ws, u.kind.code ≠ v.kind.code := fun u hu hcode => hsome ⟨u, hu, hcode⟩
        refine .inr (.inr ⟨fun old hold => ?_, by simp [tally_eq_zero.mpr hnone]⟩)
        obtain ⟨u, hu, rfl⟩ := (h.mem_iff old).mp hold
        exact hnone u hu

theorem foldl (h : Census lines ws) (vs : List Warning) :
    Census (vs.foldl (fun lines w => w.enterInto lines) lines) (ws ++ vs) := by
  induction vs generalizing lines ws with
  | nil => rwa [List.append_nil]
  | cons v vs ih =>
    have hlater := ih (h.enter v)
    rwa [List.append_assoc] at hlater

/-- Warnings have no two such lists of lines: lines in ascending order are the same if they have the
same members. -/
theorem unique (h : Census lines ws) (h' : Census others ws) : lines = others := by
  have hnodup : ∀ {ls : List ReportLine}, ls.Pairwise (fun a b => a.code < b.code) → ls.Nodup :=
    fun hls => hls.imp fun hlt heq => absurd (heq ▸ hlt) (Nat.lt_irrefl _)
  have hperm : lines.Perm others :=
    (List.perm_ext_iff_of_nodup (hnodup h.ascending) (hnodup h'.ascending)).mpr fun line =>
      (h.mem_iff line).trans (h'.mem_iff line).symm
  exact hperm.eq_of_pairwise (fun a b _ _ hab hba => absurd hab (Nat.lt_asymm hba))
    h.ascending h'.ascending

/-- The order of the warnings does not matter. -/
theorem perm (h : Census lines ws) (hperm : ws.Perm vs) : Census lines vs := by
  refine ⟨h.ascending, fun line => (h.mem_iff line).trans ?_⟩
  simp only [hperm.mem_iff, tally_perm hperm]

end Census

/-- **The lines of a report count the warnings.** -/
theorem census_reportLines (ws : List Warning) : Census (reportLines ws) ws := by
  have hnil : Census [] [] := ⟨.nil, by simp⟩
  exact hnil.foldl ws

/-- The counts of a report add up to the number of warnings. -/
theorem sum_count_reportLines (ws : List Warning) :
    ((reportLines ws).map ReportLine.count).sum = ws.length := by
  have hrun : ∀ lines : List ReportLine,
      ((ws.foldl (fun lines w => w.enterInto lines) lines).map ReportLine.count).sum =
        (lines.map ReportLine.count).sum + ws.length := by
    induction ws with
    | nil => exact fun lines => rfl
    | cons w ws ih =>
      intro lines
      rw [List.foldl_cons, ih, sum_count_enterInto, List.length_cons]
      omega
  rw [reportLines, hrun]
  simp

/-! ## Reading a report -/

/-- A line of a report read back: its summary, and the count in front of it with a colon and a
blank. -/
def readLine (line : List Char) : String × Nat :=
  let number := line.dropWhile (· = ' ')
  (String.ofList ((number.dropWhile Char.isDigit).drop 2),
   Nat.ofDigitChars 10 (number.takeWhile Char.isDigit) 0)

/-- A report read back. -/
def readReport (report : String) : List (String × Nat) :=
  if report = "" then [] else (report.toList.splitOn '\n').map readLine

/-- The count that a report gives for a kind. A kind that it leaves out has none. -/
def reported (report : String) (kind : WarningKind) : Nat :=
  ((readReport report).lookup kind.summary).getD 0

theorem toList_text (line : ReportLine) : ∃ blanks, line.text.toList =
    List.replicate blanks ' ' ++ (Nat.toDigits 10 line.count ++ ':' :: ' ' :: line.summary.toList) := by
  refine ⟨4 - (toString line.count).length, ?_⟩
  simp [ReportLine.text, count]

theorem isDigit_of_mem_digits {n : Nat} {c : Char} (hc : c ∈ Nat.toDigits 10 n) : c.isDigit = true :=
  Nat.isDigit_of_mem_toDigits (by decide) (by decide) hc

theorem readLine_text (line : ReportLine) : readLine line.text.toList = (line.summary, line.count) := by
  obtain ⟨blanks, htext⟩ := toList_text line
  have hdigits : ∀ c ∈ Nat.toDigits 10 line.count, c.isDigit = true := fun c => isDigit_of_mem_digits
  have hnumber : line.text.toList.dropWhile (· = ' ') =
      Nat.toDigits 10 line.count ++ ':' :: ' ' :: line.summary.toList := by
    rw [htext, List.dropWhile_append_of_pos fun c hc => by simp [List.eq_of_mem_replicate hc]]
    -- the number opens with a digit, which is no blank
    cases hopen : Nat.toDigits 10 line.count with
    | nil => exact absurd hopen Nat.toDigits_ne_nil
    | cons d ds =>
      have hd : d ≠ ' ' := by
        rintro rfl
        exact absurd (hdigits ' ' (by simp [hopen])) (by decide)
      simp [hd]
  rw [readLine, hnumber, List.dropWhile_append_of_pos hdigits, List.takeWhile_append_of_pos hdigits]
  simp [Nat.ofDigitChars_ten_toDigits]

theorem newline_not_mem_text {ws : List Warning} {line : ReportLine} (hline : line ∈ reportLines ws) :
    '\n' ∉ line.text.toList := by
  obtain ⟨w, -, rfl⟩ := ((census_reportLines ws).mem_iff line).mp hline
  obtain ⟨blanks, htext⟩ := toList_text ⟨w.kind.code, tally ws w.kind.code, w.kind.summary⟩
  have hdigits : '\n' ∉ Nat.toDigits 10 (tally ws w.kind.code) := fun hmem =>
    absurd (isDigit_of_mem_digits hmem) (by decide)
  rw [htext]
  simp [hdigits, w.kind.newline_not_mem_summary]

/-- **A report is read back as its lines.** -/
theorem readReport_report (ws : List Warning) :
    readReport (report ws) = (reportLines ws).map fun line => (line.summary, line.count) := by
  cases hlines : reportLines ws with
  | nil => rw [report, hlines]; rfl
  | cons first rest =>
    have hsplit : (report ws).toList.splitOn '\n' =
        ((reportLines ws).map ReportLine.text).map String.toList := by
      rw [report, String.toList_intercalate]
      refine List.splitOn_intercalate '\n' ?_ (by simp [hlines])
      simp only [List.forall_mem_map]
      exact fun line => newline_not_mem_text
    have hne : report ws ≠ "" := by
      intro hempty
      obtain ⟨blanks, htext⟩ := toList_text first
      rw [hempty, hlines] at hsplit
      simp [htext] at hsplit
    rw [readReport, if_neg hne, hsplit, ← hlines, List.map_map, List.map_map]
    exact List.map_congr_left fun line _ => readLine_text line

/-- **The count that a report gives for a kind is the number of warnings of its code.** -/
theorem reported_report (ws : List Warning) (kind : WarningKind) :
    reported (report ws) kind = tally ws kind.code := by
  have hmem : ∀ n, (kind.summary, n) ∈ readReport (report ws) ↔
      n = tally ws kind.code ∧ ∃ w ∈ ws, w.kind.code = kind.code := by
    intro n
    simp only [readReport_report, List.mem_map, Prod.mk.injEq, (census_reportLines ws).mem_iff]
    constructor
    · rintro ⟨line, ⟨w, hw, rfl⟩, hsummary, rfl⟩
      rw [WarningKind.summary_inj.mp hsummary]
      exact ⟨rfl, w, hw, congrArg _ (WarningKind.summary_inj.mp hsummary)⟩
    · rintro ⟨rfl, w, hw, hcode⟩
      obtain rfl := WarningKind.code_inj.mp hcode
      exact ⟨_, ⟨w, hw, rfl⟩, rfl, rfl⟩
  rw [reported]
  cases hfound : (readReport (report ws)).lookup kind.summary with
  | none =>
    -- a kind that is left out has no warnings
    refine (tally_eq_zero.mpr fun w hw hcode => ?_).symm
    have hleft := List.lookup_eq_none_iff.mp hfound _ ((hmem _).mpr ⟨rfl, w, hw, hcode⟩)
    simp at hleft
  | some n =>
    obtain ⟨front, back, hsplit, -⟩ := List.lookup_eq_some_iff.mp hfound
    exact ((hmem n).mp (by simp [hsplit])).1

theorem report_perm {ws vs : List Warning} (h : ws.Perm vs) : report vs = report ws := by
  rw [report, report, ((census_reportLines ws).perm h).unique (census_reportLines vs)]

theorem reported_append (ws vs : List Warning) (kind : WarningKind) :
    reported (report (ws ++ vs)) kind = reported (report ws) kind + reported (report vs) kind := by
  rw [reported_report, reported_report, reported_report, tally_append]

/-- **A report is a census of the warnings.** It has one line for each code that is present, in
ascending order of the codes, with the number of warnings of the code and its summary, and the
numbers add up to the number of warnings. The order of the warnings does not matter, and the counts
in the report of two lists put together are the sums of the counts in the reports of the two. -/
theorem report_census (ws : List Warning) :
    (∃ lines : List ReportLine,
      report ws = "\n".intercalate (lines.map ReportLine.text) ∧
      readReport (report ws) = lines.map (fun line => (line.summary, line.count)) ∧
      lines.Pairwise (fun a b => a.code < b.code) ∧
      (∀ line, line ∈ lines ↔ ∃ w ∈ ws,
        line = ⟨w.kind.code, ws.countP (·.kind.code = w.kind.code), w.kind.summary⟩) ∧
      (lines.map ReportLine.count).sum = ws.length) ∧
    (∀ vs, ws.Perm vs → report vs = report ws) ∧
    (∀ kind, reported (report ws) kind = ws.countP (·.kind.code = kind.code)) ∧
    ∀ vs kind, reported (report (ws ++ vs)) kind =
      reported (report ws) kind + reported (report vs) kind := by
  refine ⟨⟨reportLines ws, rfl, readReport_report ws, ?_, ?_, ?_⟩, ?_, ?_, ?_⟩
  · exact (census_reportLines ws).ascending
  · exact (census_reportLines ws).mem_iff
  · exact sum_count_reportLines ws
  · exact fun vs => report_perm
  · exact reported_report ws
  · exact reported_append ws

/-- Three warnings of two codes, in either order. -/
theorem report_census_three :
    let ws : List Warning := [⟨.redundantIndex, ["i", "c", "t"]⟩,
      ⟨.anonymousConstraint, ["fk", "t", "a"]⟩, ⟨.anonymousConstraint, ["check", "t", "b"]⟩]
    ws.Perm ws.reverse ∧ report ws.reverse = report ws ∧
      report ws = "   2: Anonymous constraint (name needed)\n" ++
        "   1: Index redundant w/ (pk,unique) constraint, removed" ∧
      reported (report (ws ++ ws.reverse)) .anonymousConstraint = 4 := by
  intro ws
  have hperm : ws.Perm ws.reverse := (List.reverse_perm ws).symm
  obtain ⟨-, hsame, hreported, happend⟩ := report_census ws
  refine ⟨hperm, hsame _ hperm, by decide +kernel, ?_⟩
  rw [happend, hsame _ hperm, hreported]
  decide

end Warning

end SchemaScript
