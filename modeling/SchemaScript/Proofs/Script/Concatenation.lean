import SchemaScript.Proofs.Statement.Tracking
import SchemaScript.Proofs.Statement.WellFormed

/-!
# Scripts put together

Two texts with a newline between them, the first of which is a script.

* `readStatements_append` — statements are read one after the other: the tokens of a script leave
  the tokens that follow to be read as if they stood alone.
* `readStatements_moved`, `readStatements_moved_error` — where tokens stand in a text does not
  change what they read as. A fault moves with its token.
* `Script.parse_newline` — the two texts read as the statements of the first and those of the
  second, or fail where the second does.
-/

set_option autoImplicit false

namespace SchemaScript

open Reader

/-! ## Lists of statements -/

section Statements

variable {bytes lines : Nat} {ts rest : List Token} {statements : List Statement} {fault : Fault}

theorem stable_notEmpty {c : Context} : c.Stable fun ts => !ts.isEmpty := by
  intro ts hts
  cases ts with
  | nil => rw [Context.place_nil hts.following]
  | cons t ts => rfl

theorem tracks_readStatements {c : Context} (hnone : c.following = []) :
    Tracks c c.Guarded readStatements readStatements :=
  .repeatWhile stable_notEmpty (Statement.carries_read.tracks hnone)

theorem Context.place_of_nothing (ts : List Token) :
    (Context.mk bytes lines []).place ts = ts.map (Token.moved bytes lines) :=
  List.append_nil _

/-- Tokens that stand further on read the same. -/
theorem readStatements_moved (h : readStatements ts = .ok (statements, rest)) :
    readStatements (ts.map (Token.moved bytes lines)) =
      .ok (statements, rest.map (Token.moved bytes lines)) := by
  have htracks := tracks_readStatements (c := ⟨bytes, lines, []⟩) rfl
  obtain ⟨-, hrun⟩ := (htracks.ok h).2 (.inl rfl)
  rwa [Context.place_of_nothing, Context.place_of_nothing] at hrun

/-- Where they do not read, they fail at the same token. -/
theorem readStatements_moved_error (h : readStatements ts = .error fault) :
    readStatements (ts.map (Token.moved bytes lines)) = .error (fault.moved bytes lines) := by
  have htracks := tracks_readStatements (c := ⟨bytes, lines, []⟩) rfl
  have hrun := htracks.error h rfl
  rwa [Context.place_of_nothing] at hrun

theorem Context.place_of_nowhere (following ts : List Token) :
    (Context.mk 0 0 following).place ts = ts ++ following := by
  have hmove : ∀ t, (Context.mk 0 0 following).move t = t := fun _ => rfl
  rw [Context.place, List.map_id'' hmove]

/-- Behind the tokens of a script the reading goes on as if nothing stood in front. -/
theorem readStatements_append (following : List Token)
    (h : readStatements ts = .ok (statements, rest)) :
    readStatements (ts ++ following) =
      (readStatements following).map fun found => (statements ++ found.1, found.2) := by
  have hcarries := Statement.carries_read (c := ⟨0, 0, following⟩)
  unfold readStatements at h ⊢
  fun_induction Reader.repeatWhile (fun ts => !ts.isEmpty) Statement.read ts
    generalizing statements rest with
  | case1 | case2 => cases h
  | case3 ts htest st mid hst hlt others rest' hothers ih =>
    cases h
    obtain ⟨-, hst'⟩ := hcarries.ok hst
    rw [Context.place_of_nowhere, Context.place_of_nowhere] at hst'
    have htest' : (!(ts ++ following).isEmpty) = true := by
      cases ts with
      | nil => cases htest
      | cons t ts => rfl
    have hlt' : (mid ++ following).length < (ts ++ following).length := by
      rw [List.length_append, List.length_append]
      omega
    rw [repeatWhile_step htest' hst' hlt', ih hothers]
    cases Reader.repeatWhile (fun ts => !ts.isEmpty) Statement.read following <;> rfl
  | case4 ts htest st mid hst hlt =>
    exact absurd (hcarries.ok hst).1 hlt
  | case5 ts htest =>
    cases h
    have hnil : ts = [] := by simpa using htest
    rw [hnil, List.nil_append]
    cases Reader.repeatWhile (fun ts => !ts.isEmpty) Statement.read following <;> rfl

end Statements

/-! ## Errors -/

/-- What is said of a text, for a text so many lines further down. -/
def ReadError.movedDown (lines : Nat) : ReadError → ReadError
  | .unexpected line column kind value excerpt =>
    .unexpected (line + lines) column kind value excerpt
  | .ended expected => .ended expected

theorem ReadError.ofFault_moved (a b : String) (lines : Nat) (fault : Fault) :
    ReadError.ofFault (a ++ "\n" ++ b) (fault.moved (Text.byteLength a.toList + 1) lines) =
      (ReadError.ofFault b fault).movedDown lines := by
  cases fault with
  | unexpected t =>
    simp only [ofFault, Fault.moved, Token.moved, movedDown, Text.columnAt_newline,
      Text.excerptAt_newline]
  | ended expected => rfl

theorem Script.parse_eq_error {text : String} {e : ReadError} : Script.parse text = .error e ↔
    ∃ fault, readStatements (tokenize text).1 = .error fault ∧ e = .ofFault text fault := by
  unfold Script.parse Script.parseNoting Script.ofTokens
  simp only [StateT.run]
  cases readStatements (tokenize text).1 with
  | ok found => simp [Except.map]
  | error fault => simp [Except.map, eq_comm]

/-! ## Two texts -/

/-- **Reading is compositional.** Let a text read as a script, without stray characters and not
ending inside a comment. Behind it and a newline, any second text has the tokens and the stray
characters that it has alone, further on. It reads as the statements of the second script behind
those of the first, or fails as the second text fails, so many lines further down. -/
theorem Script.parse_newline {a : String} {s : Script} (b : String) (hstrays : (tokenize a).2 = [])
    (hclosed : Scan.endsInComment a.toList = false) (hparse : Script.parse a = .ok s) :
    (tokenize (a ++ "\n" ++ b)).1 = (tokenize a).1 ++ (tokenize b).1.map
        (Token.moved (Text.byteLength a.toList + 1) (Text.newlines a.toList + 1)) ∧
      (tokenize (a ++ "\n" ++ b)).2 =
        (tokenize b).2.map (StrayChar.movedDown (Text.newlines a.toList + 1)) ∧
      (∀ s', Script.parse b = .ok s' →
        Script.parse (a ++ "\n" ++ b) = .ok ⟨s.statements ++ s'.statements⟩) ∧
      ∀ e, Script.parse b = .error e →
        Script.parse (a ++ "\n" ++ b) = .error (e.movedDown (Text.newlines a.toList + 1)) := by
  have htokens := tokenize_newline b hstrays hclosed
  obtain ⟨rest, hfirst⟩ := Script.parse_eq_ok.mp hparse
  have hboth := readStatements_append ((tokenize b).1.map
    (Token.moved (Text.byteLength a.toList + 1) (Text.newlines a.toList + 1))) hfirst
  refine ⟨congrArg Prod.fst htokens, congrArg Prod.snd htokens, ?_, ?_⟩
  · intro s' hsecond
    obtain ⟨rest', hread⟩ := Script.parse_eq_ok.mp hsecond
    rw [readStatements_moved hread] at hboth
    rw [Script.parse_eq_ok, htokens]
    exact ⟨_, hboth⟩
  · intro e hsecond
    obtain ⟨fault, hread, rfl⟩ := Script.parse_eq_error.mp hsecond
    rw [readStatements_moved_error hread] at hboth
    rw [Script.parse_eq_error, htokens]
    exact ⟨_, hboth, (ReadError.ofFault_moved a b _ fault).symm⟩

/-- A comment that runs to the end of the first text ends at the newline. The second text has a
stray character and fails behind it. -/
theorem Script.parse_newline_comment :
    Script.parse "COMMIT;\n? DROP;" = .error (.unexpected 2 7 "SEMICOLON" ";" "? DROP;") ∧
      Script.parse ("COMMIT; -- done" ++ "\n" ++ "COMMIT;\n? DROP;") =
        .error (.unexpected 3 7 "SEMICOLON" ";" "? DROP;") ∧
      (tokenize ("COMMIT; -- done" ++ "\n" ++ "COMMIT;\n? DROP;")).2 =
        [⟨'?', 3, 1, "? DROP;"⟩] := by
  have hfails : Script.parse "COMMIT;\n? DROP;" =
      .error (.unexpected 2 7 "SEMICOLON" ";" "? DROP;") := by
    decide +kernel
  have hparse : Script.parse "COMMIT; -- done" = .ok ⟨[.commit]⟩ := by decide +kernel
  have hboth := Script.parse_newline "COMMIT;\n? DROP;" (by decide +kernel)
    (by decide +kernel) hparse
  refine ⟨hfails, ?_, ?_⟩
  · exact hboth.2.2.2 _ hfails
  · rw [hboth.2.1]
    decide +kernel

end SchemaScript
