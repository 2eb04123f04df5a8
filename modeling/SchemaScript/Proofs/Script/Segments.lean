import Mathlib.Data.List.SplitBy
import SchemaScript.Proofs.Script.Concatenation
import SchemaScript.Proofs.Statement.Boundary

/-!
# Scripts, cut behind the ends of statements

Semicolons and inclusions cut the tokens of a script into its statements, and a text that is no
script fails in the first statement that does not read.

* `segments` — tokens, cut behind each one that ends a statement.
* `readStatements_eq_ok_iff` — tokens read as statements just if each of their segments reads as
  one.
* `Script.parse_segments` — the statements of a script are what its segments read as, and those of
  its beginnings that end a statement are scripts.
* `readStatements_eq_error` — where tokens do not read, the first segments of them do and the
  statement behind does not.
* `Script.parse_fault` — a text that is no script fails at one of its tokens, or where all of them
  have been taken.
-/

set_option autoImplicit false

namespace SchemaScript

open Reader

/-- Tokens, cut behind each one that ends a statement. -/
def segments (ts : List Token) : List (List Token) :=
  ts.splitBy fun t _ => !t.kind.endsStatement

section Segments

variable {ts us vs rest : List Token} {t : Token} {statement : Statement}
  {statements : List Statement} {fault : Fault}

theorem flatten_segments (ts : List Token) : (segments ts).flatten = ts :=
  List.flatten_splitBy _ ts

/-- Tokens that end a statement are cut from what follows. -/
theorem segments_append (ht : ∀ t ∈ us.getLast?, t.kind.endsStatement) (vs : List Token) :
    segments (us ++ vs) = segments us ++ segments vs :=
  List.splitBy_append fun t hlast _ _ => by rw [ht t hlast]; rfl

theorem segments_past (h : Ending.past.Takes us) : segments us = [us] := by
  obtain ⟨us, t, rfl, hus, -⟩ := h
  refine List.splitBy_of_isChain (by simp) ?_
  induction us with
  | nil => simp
  | cons u us ih =>
    obtain ⟨hu, hus⟩ := inside_cons.mp hus
    exact List.isChain_cons.mpr ⟨fun _ _ => by rw [hu]; rfl, ih hus⟩

theorem endsStatement_of_past (h : Ending.past.Takes us) :
    ∀ t ∈ us.getLast?, t.kind.endsStatement := by
  obtain ⟨us, t, rfl, -, ht⟩ := h
  simpa using ht

theorem countP_endsStatement (ts : List Token) : ts.countP (·.kind.endsStatement) =
    ts.countP (·.kind = .semicolon) + ts.countP (·.kind = .inclusion) := by
  induction ts with
  | nil => rfl
  | cons t ts ih =>
    simp only [List.countP_cons, ih]
    cases t.kind <;> simp [TokenKind.endsStatement] <;> omega

theorem countP_past (h : Ending.past.Takes us) : us.countP (·.kind.endsStatement) = 1 := by
  obtain ⟨us, t, rfl, hus, ht⟩ := h
  have hnone : us.countP (·.kind.endsStatement) = 0 := by
    refine List.countP_eq_zero.mpr fun u hu => ?_
    rw [hus u hu]
    exact Bool.false_ne_true
  rw [List.countP_append, hnone, List.countP_singleton, if_pos ht]

/-! ## What segments read as -/

/-- What a statement is read from ends it, and reads as the same statement when nothing follows. -/
theorem Statement.read_taken (h : Statement.read ts = .ok (statement, rest)) :
    ∃ taken, ts = taken ++ rest ∧ Ending.past.Takes taken ∧
      Statement.read taken = .ok (statement, []) := by
  have hne : ts ≠ [] := by
    rintro rfl
    cases h
  obtain ⟨taken, hsplit, htaken, hread⟩ :=
    (Statement.stays_read (n := ts.length)).ok hne (Nat.le_refl _) h
  refine ⟨taken, hsplit, htaken, ?_⟩
  have hlength : (taken ++ []).length ≤ ts.length := by
    rw [hsplit, List.append_nil, List.length_append]
    omega
  simpa using hread taken [] rfl trivial hlength

theorem readStatements_nil : readStatements [] = .ok ([], []) := repeatWhile_stop rfl

theorem readStatements_single (h : Statement.read ts = .ok (statement, [])) :
    readStatements ts = .ok ([statement], []) := by
  have hne : ts ≠ [] := by
    rintro rfl
    cases h
  have hmore : (!ts.isEmpty) = true := by simpa using hne
  rw [readStatements, repeatWhile_step hmore h (List.length_pos_iff.mpr hne),
    ← readStatements, readStatements_nil]
  rfl

/-- The statements that tokens hold are those of their segments, and no token is left. -/
theorem readStatements_segments (h : readStatements ts = .ok (statements, rest)) :
    rest = [] ∧ (segments ts).map Statement.read = statements.map (fun st => .ok (st, [])) ∧
      (∀ seg ∈ segments ts, Ending.past.Takes seg) ∧
      statements.length = ts.countP (·.kind.endsStatement) := by
  unfold readStatements at h
  fun_induction Reader.repeatWhile (fun ts => !ts.isEmpty) Statement.read ts
    generalizing statements rest with
  | case1 | case2 => cases h
  | case3 ts htest st mid hst hlt others rest' hothers ih =>
    cases h
    obtain ⟨hrest, hmap, hends, hcount⟩ := ih hothers
    obtain ⟨taken, rfl, htaken, hread⟩ := Statement.read_taken hst
    rw [segments_append (endsStatement_of_past htaken), segments_past htaken,
      List.countP_append, countP_past htaken]
    refine ⟨hrest, ?_, ?_, ?_⟩
    · rw [List.singleton_append, List.map_cons, List.map_cons, hread, hmap]
    · exact List.forall_mem_cons.mpr ⟨htaken, hends⟩
    · rw [List.length_cons, hcount, Nat.add_comm]
  | case4 ts htest st mid hst hlt =>
    obtain ⟨taken, rfl, ⟨us, t, rfl, -⟩, -⟩ := Statement.read_taken hst
    simp only [List.length_append, List.length_singleton] at hlt
    omega
  | case5 ts htest =>
    cases h
    obtain rfl : ts = [] := by simpa using htest
    simp [segments]

/-- Segments that each read as a statement are put together. -/
theorem readStatements_flatten {segs : List (List Token)}
    (h : segs.map Statement.read = statements.map fun st => .ok (st, [])) :
    readStatements segs.flatten = .ok (statements, []) := by
  induction segs generalizing statements with
  | nil =>
    obtain rfl := List.map_eq_nil_iff.mp h.symm
    exact readStatements_nil
  | cons seg segs ih =>
    obtain ⟨st, others, rfl, hst, hothers⟩ := List.map_eq_cons_iff.mp h.symm
    rw [List.flatten_cons, readStatements_append _ (readStatements_single hst.symm),
      ih hothers.symm]
    rfl

/-- **Tokens read as statements just if each of their segments reads as one.** -/
theorem readStatements_eq_ok_iff : readStatements ts = .ok (statements, []) ↔
    (segments ts).map Statement.read = statements.map fun st => .ok (st, []) := by
  refine ⟨fun h => (readStatements_segments h).2.1, fun h => ?_⟩
  rw [← flatten_segments ts]
  exact readStatements_flatten h

theorem Script.ofTokens_eq_ok {s : Script} :
    Script.ofTokens ts = .ok s ↔ readStatements ts = .ok (s.statements, []) := by
  unfold Script.ofTokens
  simp only [StateT.run]
  cases hread : readStatements ts with
  | error fault => simp [Except.map]
  | ok found =>
    obtain ⟨statements, rest⟩ := found
    obtain rfl := (readStatements_segments hread).1
    cases s
    simp [Except.map]

theorem Script.ofTokens_eq_error :
    Script.ofTokens ts = .error fault ↔ readStatements ts = .error fault := by
  unfold Script.ofTokens
  simp only [StateT.run]
  cases readStatements ts <;> simp [Except.map]

theorem Script.parse_eq_ok_ofTokens {text : String} {s : Script} :
    Script.parse text = .ok s ↔ Script.ofTokens (tokenize text).1 = .ok s := by
  rw [Script.parse_eq_ok, Script.ofTokens_eq_ok]
  constructor
  · rintro ⟨rest, hread⟩
    rwa [(readStatements_segments hread).1] at hread
  · exact fun hread => ⟨[], hread⟩

theorem readStatements_eq_single : readStatements ts = .ok ([statement], []) ↔
    Statement.read ts = .ok (statement, []) := by
  refine ⟨fun h => ?_, readStatements_single⟩
  have hmap := (readStatements_segments h).2.1
  obtain ⟨seg, hsegments, hread⟩ := List.map_eq_singleton_iff.mp hmap
  have hts := flatten_segments ts
  rw [hsegments, List.flatten_singleton] at hts
  rw [← hts, hread]

theorem Script.parse_eq_single {text : String} : Script.parse text = .ok ⟨[statement]⟩ ↔
    Statement.read (tokenize text).1 = .ok (statement, []) := by
  rw [Script.parse_eq_ok_ofTokens, Script.ofTokens_eq_ok, readStatements_eq_single]

/-! ## Beginnings of scripts -/

/-- Tokens that read as statements end with the end of one. -/
theorem getLast_of_readStatements (h : readStatements ts = .ok (statements, [])) :
    ts = [] ∨ ∃ t, ts.getLast? = some t ∧ t.kind.endsStatement := by
  rcases List.eq_nil_or_concat (segments ts) with hnil | ⟨segs, seg, hsegs⟩
  · exact .inl (List.splitBy_eq_nil.mp hnil)
  · obtain ⟨us, t, rfl, -, ht⟩ := (readStatements_segments h).2.2.1 seg (by simp [hsegs])
    refine .inr ⟨t, ?_, ht⟩
    rw [← flatten_segments ts, hsegs]
    simp

/-- Of tokens that read as statements, so do those up to the end of any statement. -/
theorem readStatements_beginning (h : readStatements (us ++ vs) = .ok (statements, []))
    (hus : us = [] ∨ ∃ t, us.getLast? = some t ∧ t.kind.endsStatement) :
    ∃ first, readStatements us = .ok (first, []) := by
  have hlast : ∀ t ∈ us.getLast?, t.kind.endsStatement := by
    rcases hus with rfl | ⟨t, hlast, ht⟩
    · simp
    · simpa [hlast] using ht
  rw [readStatements_eq_ok_iff, segments_append hlast, List.map_append] at h
  obtain ⟨first, second, -, hfirst, -⟩ := List.map_eq_append_iff.mp h.symm
  exact ⟨first, readStatements_eq_ok_iff.mpr hfirst.symm⟩

/-- **Semicolons and inclusions cut a script into its statements.** A script has as many statements
as its text has semicolons and inclusions. The tokens of the text are cut behind each of these, and
every segment, which ends there, reads as the statement at its place. A beginning of the tokens is a
script just if nothing is left of it or it ends with one of these. -/
theorem Script.parse_segments {text : String} {s : Script} (h : Script.parse text = .ok s) :
    s.statements.length = (tokenize text).1.countP (·.kind = .semicolon) +
        (tokenize text).1.countP (·.kind = .inclusion) ∧
      (segments (tokenize text).1).flatten = (tokenize text).1 ∧
      (∀ seg ∈ segments (tokenize text).1,
        ∃ us t, seg = us ++ [t] ∧ Inside us ∧ t.kind.endsStatement) ∧
      (segments (tokenize text).1).map Script.ofTokens =
        s.statements.map (fun st => .ok ⟨[st]⟩) ∧
      ∀ beginning, beginning <+: (tokenize text).1 →
        ((∃ s', Script.ofTokens beginning = .ok s') ↔
          beginning = [] ∨ ∃ t, beginning.getLast? = some t ∧ t.kind.endsStatement) := by
  rw [Script.parse_eq_ok_ofTokens, Script.ofTokens_eq_ok] at h
  obtain ⟨-, hmap, hends, hcount⟩ := readStatements_segments h
  refine ⟨hcount.trans (countP_endsStatement _), flatten_segments _, hends, ?_, ?_⟩
  · refine List.ext_getElem (by simpa using congrArg List.length hmap) fun i hi hi' => ?_
    rw [List.length_map] at hi hi'
    have hread := List.getElem_of_eq hmap (i := i) (by rwa [List.length_map])
    rw [List.getElem_map, List.getElem_map] at hread ⊢
    exact Script.ofTokens_eq_ok.mpr (readStatements_single hread)
  · rintro us ⟨vs, hsplit⟩
    constructor
    · rintro ⟨s', hs'⟩
      exact getLast_of_readStatements (Script.ofTokens_eq_ok.mp hs')
    · intro hus
      rw [← hsplit] at h
      obtain ⟨first, hfirst⟩ := readStatements_beginning h hus
      exact ⟨⟨first⟩, Script.ofTokens_eq_ok.mpr hfirst⟩

/-- An inclusion between two other statements. Without its last token the text is no script. -/
theorem Script.parse_segments_inclusion :
    Script.parse "COMMIT;\n@more.sql\nDROP TABLE t;" =
        .ok ⟨[.commit, .inclusion "more.sql", .drop ⟨.table, "t"⟩]⟩ ∧
      (segments (tokenize "COMMIT;\n@more.sql\nDROP TABLE t;").1).map Script.ofTokens =
        [.ok ⟨[.commit]⟩, .ok ⟨[.inclusion "more.sql"]⟩, .ok ⟨[.drop ⟨.table, "t"⟩]⟩] ∧
      ¬ ∃ s, Script.ofTokens (tokenize "COMMIT;\n@more.sql\nDROP TABLE t;").1.dropLast = .ok s := by
  have hparse : Script.parse "COMMIT;\n@more.sql\nDROP TABLE t;" =
      .ok ⟨[.commit, .inclusion "more.sql", .drop ⟨.table, "t"⟩]⟩ := by
    decide +kernel
  obtain ⟨-, -, -, hsegments, hbeginning⟩ := Script.parse_segments hparse
  refine ⟨hparse, hsegments, ?_⟩
  rw [hbeginning _ (List.dropLast_prefix _)]
  have hlast : (tokenize "COMMIT;\n@more.sql\nDROP TABLE t;").1.dropLast.getLast? =
      some ⟨.identifier, "t", 3, 29⟩ := by
    decide +kernel
  rintro (hnil | ⟨t, ht, hends⟩)
  · rw [hnil] at hlast
    cases hlast
  · rw [hlast] at ht
    cases ht
    cases hends

/-! ## Texts that are no scripts -/

/-- Where tokens do not read as statements, those up to the end of one do, and the statement behind
them does not. -/
theorem readStatements_eq_error (h : readStatements ts = .error fault) :
    ∃ us vs first, ts = us ++ vs ∧ readStatements us = .ok (first, []) ∧ vs ≠ [] ∧
      Statement.read vs = .error fault := by
  unfold readStatements at h
  fun_induction Reader.repeatWhile (fun ts => !ts.isEmpty) Statement.read ts with
  | case1 ts htest fault' hst =>
    cases h
    exact ⟨[], ts, [], rfl, readStatements_nil, by simpa using htest, hst⟩
  | case2 ts htest st mid hst hlt fault' hothers ih =>
    cases h
    obtain ⟨taken, rfl, -, hread⟩ := Statement.read_taken hst
    obtain ⟨us, vs, first, rfl, hus, hne, hvs⟩ := ih hothers
    refine ⟨taken ++ us, vs, st :: first, by simp, ?_, hne, hvs⟩
    rw [readStatements_append _ (readStatements_single hread), hus]
    rfl
  | case3 | case4 | case5 => cases h

theorem readStatements_of_read_error (hne : ts ≠ []) (h : Statement.read ts = .error fault) :
    readStatements ts = .error fault :=
  repeatWhile_error (by simpa using hne) h

/-- The first `j` of the tokens are a script. The others are not: their first statement has this
fault. -/
structure FailsBehind (j : Nat) (ts : List Token) (fault : Fault) : Prop where
  before : ∃ s, Script.ofTokens (ts.take j) = .ok s
  statement : Statement.read (ts.drop j) = .error fault
  behind : Script.ofTokens (ts.drop j) = .error fault

theorem failsBehind_of_readStatements (h : readStatements ts = .error fault) :
    ∃ us vs, ts = us ++ vs ∧ vs ≠ [] ∧ Statement.read vs = .error fault ∧
      FailsBehind us.length ts fault := by
  obtain ⟨us, vs, first, rfl, hus, hne, hvs⟩ := readStatements_eq_error h
  refine ⟨us, vs, rfl, hne, hvs, ?_, ?_, ?_⟩
  · rw [List.take_left]
    exact ⟨⟨first⟩, Script.ofTokens_eq_ok.mpr hus⟩
  · rw [List.drop_left, hvs]
  · rw [List.drop_left]
    exact Script.ofTokens_eq_error.mpr (readStatements_of_read_error hne hvs)

/-- **A text that is no script fails at one of its tokens, behind a script.** Where a token is
unexpected, it is the token at some place `i` of the text: what is said of it is its own class, text
and place. The tokens in front of some `j` up to `i` are a script, and the first statement behind
them fails at this token, in front of which it has no end. Where the text ends too early, the tokens
in front of some `j` are a script as well. The statement behind them has no end and takes all
tokens: it fails at the first token that could follow. -/
theorem Script.parse_fault (text : String) :
    (∀ line column kind value excerpt,
      Script.parse text = .error (.unexpected line column kind value excerpt) →
        ∃ j i t, j ≤ i ∧ (tokenize text).1[i]? = some t ∧
          kind = t.kind.name ∧ value = t.value ∧ line = t.line ∧
          column = Text.columnAt text t.offset ∧ excerpt = Text.excerptAt text t.offset ∧
          FailsBehind j (tokenize text).1 (.unexpected t) ∧
          Inside (((tokenize text).1.take i).drop j)) ∧
      ∀ expected, Script.parse text = .error (.ended expected) →
        ∃ j, FailsBehind j (tokenize text).1 (.ended expected) ∧
          Inside ((tokenize text).1.drop j) ∧
          ∀ t others, t.kind = .inclusion →
            Statement.read ((tokenize text).1.drop j ++ t :: others) = .error (.unexpected t) := by
  constructor
  · intro line column kind value excerpt h
    obtain ⟨fault, hread, heq⟩ := Script.parse_eq_error.mp h
    cases fault with
    | ended expected => cases heq
    | unexpected t =>
      obtain ⟨us, vs, hsplit, hne, hvs, hfails⟩ := failsBehind_of_readStatements hread
      obtain ⟨taken, rest, rfl, htaken⟩ :=
        (Statement.stays_read (n := 0)).unexpected hne (Nat.le_refl _) hvs
      obtain ⟨rfl, rfl, rfl, rfl, rfl⟩ := ReadError.unexpected.inj heq
      refine ⟨us.length, us.length + taken.length, t, Nat.le_add_right _ _, ?_, rfl, rfl, rfl, rfl, rfl,
        hfails, ?_⟩
      · rw [hsplit, List.getElem?_append_right (Nat.le_add_right _ _), Nat.add_sub_cancel_left]
        simp
      · rw [hsplit, List.take_length_add_append, List.take_left, List.drop_left]
        exact htaken
  · intro expected h
    obtain ⟨fault, hread, heq⟩ := Script.parse_eq_error.mp h
    cases fault with
    | unexpected t => cases heq
    | ended expected' =>
      cases heq
      obtain ⟨us, vs, hsplit, hne, hvs, hfails⟩ := failsBehind_of_readStatements hread
      refine ⟨us.length, hfails, ?_⟩
      rw [hsplit, List.drop_left]
      refine ⟨((Statement.stays_read (n := 0)).ended hne (Nat.le_refl _) hvs).1, ?_⟩
      intro t others ht
      exact (Statement.stays_read.ended hne (Nat.le_refl _) hvs).2 t others ht (Nat.le_refl _)

/-- The second statement of a text has no name, and then the text ends in front of the name. -/
theorem Script.parse_fault_name :
    Script.parse "COMMIT; DROP TABLE;" =
        .error (.unexpected 1 19 "SEMICOLON" ";" "COMMIT; DROP TABLE;") ∧
      Script.parse "COMMIT; DROP TABLE" = .error (.ended "IDENTIFIER") ∧
      (∃ j i t, j ≤ i ∧ (tokenize "COMMIT; DROP TABLE;").1[i]? = some t ∧ t.value = ";" ∧
        FailsBehind j (tokenize "COMMIT; DROP TABLE;").1 (.unexpected t)) ∧
      ∃ j, FailsBehind j (tokenize "COMMIT; DROP TABLE").1 (.ended "IDENTIFIER") := by
  have hunexpected : Script.parse "COMMIT; DROP TABLE;" =
      .error (.unexpected 1 19 "SEMICOLON" ";" "COMMIT; DROP TABLE;") := by
    decide +kernel
  have hended : Script.parse "COMMIT; DROP TABLE" = .error (.ended "IDENTIFIER") := by
    decide +kernel
  obtain ⟨j, i, t, hle, ht, -, hvalue, -, -, -, hfails, -⟩ :=
    (Script.parse_fault "COMMIT; DROP TABLE;").1 _ _ _ _ _ hunexpected
  obtain ⟨j', hfails', -⟩ := (Script.parse_fault "COMMIT; DROP TABLE").2 _ hended
  exact ⟨hunexpected, hended, ⟨j, i, t, hle, ht, hvalue.symm, hfails⟩, j', hfails'⟩

end Segments

end SchemaScript
