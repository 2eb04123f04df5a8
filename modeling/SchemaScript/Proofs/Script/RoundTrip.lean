import SchemaScript.Proofs.Statement.Spelling
import SchemaScript.Script.Convert

/-!
# Scripts that are read back

What is written for a script is read back as its native form, which is written as the same text.

* `Script.arranged`, `Script.native` — the statements in the order in which they are written, and
  the native form of a script.
* `Target.script_native` — a script and its native form are written alike.
* `Target.parse_script` — a native script is read back from what is written for it.
* `Script.WrittenInOracle` — a script that has nothing left to be put into Oracle's words.
-/

set_option autoImplicit false

namespace SchemaScript

open Reader

variable {t : Target} {o : WriteOptions}

/-! ## Order -/

/-- The statements of a script in the order in which they are written. -/
def Script.arranged (t : Target) (o : WriteOptions) (s : Script) : List Statement :=
  if o.sort then
    s.statements.mergeSort fun a b => decide (t.dialect.place a.kind ≤ t.dialect.place b.kind)
  else s.statements

theorem Target.ordered_eq (s : Script) : (t.writer o).ordered s = .ok (s.arranged t o) := by
  have hrank : ∀ st ∈ s.statements, ((t.writer o).dialect.rank? st.kind).isSome := by
    intro st _
    cases st with
    | comment c => cases c <;> cases t <;> rfl
    | _ => cases t <;> rfl
  rw [Writer.ordered, Script.arranged]
  split
  · rw [if_pos ‹_›, Writer.sorted_eq _ _ hrank]
    rfl
  · rw [if_neg ‹_›]

theorem Script.mem_arranged {s : Script} {st : Statement} :
    st ∈ s.arranged t o ↔ st ∈ s.statements := by
  rw [arranged]
  split
  · exact List.mem_mergeSort
  · exact Iff.rfl

/-- The native form of a script: the native forms of its statements, in the order in which they are
written. -/
def Script.native (t : Target) (o : WriteOptions) (s : Script) : Script :=
  ⟨(s.arranged t o).filterMap (·.native? t o)⟩

/-- The native form of a script is in order. -/
theorem Script.arranged_native (s : Script) :
    (s.native t o).arranged t o = (s.native t o).statements := by
  rw [arranged]
  split
  · rename_i hsort
    refine List.mergeSort_of_pairwise ?_
    have hsorted : (s.arranged t o).Pairwise fun a b =>
        t.dialect.place a.kind ≤ t.dialect.place b.kind := by
      rw [arranged, if_pos hsort]
      exact (stablySorted_mergeSort (fun st : Statement => t.dialect.place st.kind) s.statements).sorted
    rw [native, List.pairwise_filterMap]
    refine hsorted.imp fun {a b} hab a' ha' b' hb' => decide_eq_true ?_
    rwa [Statement.kind_native ha', Statement.kind_native hb']
  · rfl

/-! ## A script and its native form -/

theorem Script.writeFor_eq (s : Script) : s.writeFor t o = (t.writer o).script s := by
  rw [Script.writeFor, Target.ofDialect_eq]
  rfl

/-- The text of a script, given the texts of its statements that are not empty. -/
def layBlocks : List String → String
  | [] => ""
  | blocks => "\n\n".intercalate blocks ++ "\n"

theorem Target.script_eq (s : Script) : (t.writer o).script s =
    (((s.arranged t o).mapM ((t.writer o).statement 0)).map (List.filter (· ≠ ""))).map layBlocks := by
  rw [Writer.script, ordered_eq]
  cases hmap : (s.arranged t o).mapM ((t.writer o).statement 0) with
  | error e =>
    simp only [bind, Except.bind, hmap]
    rfl
  | ok texts =>
    simp only [bind, Except.bind, hmap, Except.map]
    cases texts.filter (· ≠ "") <;> rfl

/-- **A script and its native form are written alike.** -/
theorem Target.script_native {s : Script}
    (h : ∀ st ∈ s.statements, st.WellFormed ∧ ∀ l ∈ st.leaves, l.Writable t) :
    (t.writer o).script (s.native t o) = (t.writer o).script s := by
  rw [script_eq, script_eq, Script.arranged_native, Script.native, mapM_filterMap]
  · intro st hst
    have hst := h st (Script.mem_arranged.mp hst)
    exact (statement_native 0 hst.1 hst.2).1
  · intro st hst
    have hst := h st (Script.mem_arranged.mp hst)
    exact (statement_native 0 hst.1 hst.2).2

/-! ## Reading back -/

theorem words_newlines {rest : List Char} : Scan.words ('\n' :: '\n' :: rest) = Scan.words rest :=
  (Scan.words_blank (by decide)).trans (Scan.words_blank (by decide))

/-- Texts that stand on lines of their own, with an empty line between them, have the words of each.
-/
theorem words_layBlocks {α : Type} {xs : List α} {g : α → String} {f : α → List Word}
    (h : ∀ x ∈ xs, Stands (g x) (f x)) :
    Scan.words (layBlocks (xs.map g)).toList = xs.flatMap f := by
  have hjoin : ∀ ys : List α, (∀ y ∈ ys, y ∈ xs) →
      (∀ c ∈ ((String.join (ys.map fun y => "\n\n" ++ g y)).toList ++ ['\n']).head?, c = '\n') ∧
      Scan.words ((String.join (ys.map fun y => "\n\n" ++ g y)).toList ++ ['\n']) = ys.flatMap f := by
    intro ys hys
    induction ys with
    | nil =>
      have hblank : Scan.words ['\n'] = [] := (Scan.words_blank (by decide)).trans Scan.words_nil
      exact ⟨by simp, by simpa using hblank⟩
    | cons y ys ih =>
      obtain ⟨hhead, hwords⟩ := ih fun z hz => hys z (by simp [hz])
      have htext : (String.join ((y :: ys).map fun y => "\n\n" ++ g y)).toList ++ ['\n'] =
          '\n' :: '\n' :: ((g y).toList ++
            ((String.join (ys.map fun y => "\n\n" ++ g y)).toList ++ ['\n'])) := by
        simp
      rw [htext]
      refine ⟨by simp, ?_⟩
      rw [words_newlines, h y (hys y (by simp)) _ hhead, hwords, List.flatMap_cons]
  cases xs with
  | nil => exact Scan.words_nil
  | cons x xs =>
    obtain ⟨hhead, hwords⟩ := hjoin xs fun y hy => by simp [hy]
    have htext : (layBlocks ((x :: xs).map g)).toList = (g x).toList ++
        ((String.join (xs.map fun y => "\n\n" ++ g y)).toList ++ ['\n']) := by
      rw [List.map_cons, layBlocks, intercalate_cons, List.map_map, String.toList_append,
        String.toList_append, List.append_assoc]
      · rfl
      · nofun
    rw [htext, h x (by simp) _ hhead, hwords, List.flatMap_cons]

/-- **A native script is read back from what is written for it.** -/
theorem Target.parse_script {s : Script} (h : ∀ st ∈ s.statements,
    st.WellFormed ∧ st.Restorable ∧ ∀ l ∈ st.leaves, l.Native t o) :
    ∃ out, (t.writer o).script s = .ok out ∧ Script.parse out = .ok ⟨s.arranged t o⟩ := by
  have hall : ∀ st ∈ s.arranged t o, st.WellFormed ∧ st.Restorable ∧ ∀ l ∈ st.leaves, l.Native t o :=
    fun st hst => h st (Script.mem_arranged.mp hst)
  obtain ⟨g, htexts, hg⟩ := mapM_eq_ok fun st hst =>
    spells_statement (o := o) 0 (hall st hst).1 (hall st hst).2.1 (hall st hst).2.2
  have hkept : ((s.arranged t o).map g).filter (· ≠ "") = (s.arranged t o).map g := by
    refine List.filter_eq_self.mpr fun text htext => decide_eq_true fun hnil => ?_
    obtain ⟨st, hst, rfl⟩ := List.mem_map.mp htext
    have hsolid := (hg st hst).2
    rw [hnil] at hsolid
    cases hsolid
  refine ⟨layBlocks ((s.arranged t o).map g), ?_, ?_⟩
  · rw [script_eq, htexts]
    exact congrArg (fun texts => Except.ok (layBlocks texts)) hkept
  · have hwords := words_layBlocks fun st hst => (hg st hst).1
    have hread := readStatements_words fun st hst =>
      ⟨(hall st hst).1, (hall st hst).2.1.announced, fun l hl => ((hall st hst).2.2 l hl).canonical⟩
    obtain ⟨rest, -, hrun⟩ := hread (tokenize (layBlocks ((s.arranged t o).map g))).1 hwords
    exact Script.parse_eq_ok.mpr ⟨rest, hrun⟩

/-- What is asked of a script so that it can be read back once it is written. -/
def Script.Restorable (s : Script) : Prop := ∀ st ∈ s.statements, st.Restorable

/-- The native form of a script that has been read is read back from what is written for the
script. -/
theorem Target.parse_native {s : Script}
    (h : ∀ st ∈ s.statements, st.WellFormed ∧ ∀ l ∈ st.leaves, l.Writable t)
    (hs : s.Restorable) :
    ∃ out, (t.writer o).script s = .ok out ∧ Script.parse out = .ok (s.native t o) ∧
      (t.writer o).script (s.native t o) = .ok out ∧ ∀ l ∈ (s.native t o).leaves, l.Native t o := by
  have hnative : ∀ st ∈ (s.native t o).statements,
      st.WellFormed ∧ st.Restorable ∧ ∀ l ∈ st.leaves, l.Native t o := by
    intro st' hst'
    obtain ⟨st, hmem, hst⟩ := List.mem_filterMap.mp hst'
    have hmem := Script.mem_arranged.mp hmem
    obtain ⟨hwf, hleaves⟩ := h st hmem
    exact ⟨hwf.native hst, (hs st hmem).native hst,
      Statement.native_leaves hwf (hs st hmem) hleaves hst⟩
  obtain ⟨out, hout, hparse⟩ := parse_script hnative
  rw [Script.arranged_native] at hparse
  refine ⟨out, by rwa [← script_native h], hparse, hout, fun l hl => ?_⟩
  obtain ⟨st, hst, hl⟩ := List.mem_flatMap.mp hl
  exact (hnative st hst).2.2 l hl

/-- The leaves of a script that has been read can be written, given that its calls can. -/
theorem Script.writable_of_parse {text : String} {s : Script} (h : Script.parse text = .ok s)
    (hcalls : ∀ call ∈ s.calls, t.NamesSequence call) :
    ∀ st ∈ s.statements, st.WellFormed ∧ ∀ l ∈ st.leaves, l.Writable t := by
  intro st hst
  obtain ⟨hwf, hleaves⟩ := Script.of_parse h st hst
  refine ⟨hwf, fun l hl => ⟨hleaves l hl, fun call hcall => hcalls call ?_⟩⟩
  exact List.mem_flatMap.mpr ⟨l, List.mem_flatMap.mpr ⟨st, hst, hl⟩, hcall⟩

/-- **What is written for a script is a fixed point.** It is read back as a script that is written
as the same text, in either dialect and with any options. What is read back from Postgres has no
synonyms, no storage options but those for the end of a transaction, and no ordered sequences. -/
theorem Script.parse_writeFor {text : String} {s : Script} (t : Target) (o : WriteOptions)
    (hparse : Script.parse text = .ok s) (hs : s.Restorable)
    (hcalls : ∀ call ∈ s.calls, t.NamesSequence call) :
    ∃ out s', s.writeFor t o = .ok out ∧ Script.parse out = .ok s' ∧ s'.writeFor t o = .ok out ∧
      (t = .postgres → Leaf.synonym ∉ s'.leaves ∧
        (∀ x, Leaf.storage x ∈ s'.leaves → ∃ preserve, x = .onCommit preserve) ∧
        Leaf.sequenceOption .order ∉ s'.leaves) := by
  obtain ⟨out, hout, hback, hagain, hleaves⟩ :=
    Target.parse_native (o := o) (writable_of_parse hparse hcalls) hs
  refine ⟨out, s.native t o, by rw [writeFor_eq, hout], hback, by rw [writeFor_eq, hagain], ?_⟩
  rintro rfl
  refine ⟨fun hmem => ?_, fun x hmem => ?_, fun hmem => ?_⟩
  · cases hleaves _ hmem
  · have hx := hleaves _ hmem
    cases x with
    | onCommit preserve => exact ⟨preserve, rfl⟩
    | _ => cases hx
  · cases hleaves _ hmem

theorem Script.parse_writeFor_synonym :
    ∃ s out s', Script.parse "CREATE SYNONYM s FOR t; ALTER TABLE t ADD n NUMBER(4);" = .ok s ∧
      s.Restorable ∧ (∀ call ∈ s.calls, Target.postgres.NamesSequence call) ∧
      s.writeFor .postgres {} = .ok out ∧ Script.parse out = .ok s' ∧
      s'.writeFor .postgres {} = .ok out ∧ Leaf.synonym ∉ s'.leaves := by
  have hparse : Script.parse "CREATE SYNONYM s FOR t; ALTER TABLE t ADD n NUMBER(4);" =
      .ok ⟨[.synonym ⟨"s", some "t"⟩, .alterTable { table := "t", adds :=
        [.column ⟨"n", "", [.dataType ⟨"NUMBER", some "4"⟩]⟩] }]⟩ := by
    decide +kernel
  have hs : Script.Restorable ⟨[.synonym ⟨"s", some "t"⟩, .alterTable { table := "t", adds :=
      [.column ⟨"n", "", [.dataType ⟨"NUMBER", some "4"⟩]⟩] }]⟩ := by
    have hname : Text.upper "n" ∉ Storage.openingWords := by decide
    simp [Script.Restorable, Statement.Restorable, Addition.Announced, hname]
  have hcalls : ∀ call ∈ Script.calls ⟨[.synonym ⟨"s", some "t"⟩, .alterTable { table := "t", adds :=
      [.column ⟨"n", "", [.dataType ⟨"NUMBER", some "4"⟩]⟩] }]⟩,
      Target.postgres.NamesSequence call := by
    intro call hcall
    cases hcall
  obtain ⟨out, s', hout, hback, hagain, hnative⟩ := parse_writeFor .postgres {} hparse hs hcalls
  exact ⟨_, out, s', hparse, hs, hcalls, hout, hback, hagain, (hnative rfl).1⟩

/-! ## Oracle scripts -/

theorem Text.collapse_of_not_infix {s : String} (h : ¬ ['\n', '\n'] <:+: s.toList) :
    Text.collapse s = s := by
  have hlines : ∀ cs : List Char, ¬ ['\n', '\n'] <:+: cs → Text.collapseLines cs = cs := by
    intro cs
    induction cs with
    | nil => intro; rfl
    | cons c cs ih =>
      intro hcs
      rw [Text.collapseLines, if_neg, ih fun hinfix => hcs (List.infix_cons hinfix)]
      rintro ⟨rfl, hhead⟩
      cases cs with
      | nil => cases hhead
      | cons d cs =>
        cases hhead
        exact hcs (List.prefix_append ['\n', '\n'] cs).isInfix
  rw [Text.collapse, hlines _ h, String.ofList_toList]

namespace Target

mutual

/-- A term of Oracle's own stays as it is. -/
theorem nativeTerm_oracle : ∀ x : Term,
    (∀ v ∈ x.literals, Oracle.nativeLiteral v = v ∧ Text.collapse v = v) →
    (∀ call ∈ x.calls, Writer.isNextValue call.1 → call.2 = []) → oracle.nativeTerm x = x
  | .literal v, hlit, _ => by
    obtain ⟨hnative, hcollapse⟩ := hlit v (by simp [Term.literals])
    have hliteral : oracle.literalTerm v = .literal (Text.collapse (Oracle.nativeLiteral v)) := by
      simp [literalTerm]
      rfl
    rw [nativeTerm, hliteral, hnative, hcollapse]
  | .call f args, hlit, hcalls => by
    have hargs := nativeTerms_oracle args hlit fun call hcall =>
      hcalls call (by simp [Term.calls, hcall])
    have hnext := hcalls (f, args) (by simp [Term.calls])
    rw [nativeTerm, hargs, callTerm.eq_def]
    split
    · rw [if_neg]
      rintro ⟨-, hf⟩
      cases hnext hf
    · rfl
  | .expression terms, hlit, hcalls => by
    rw [nativeTerm, nativeTerms_oracle terms hlit hcalls]

theorem nativeTerms_oracle : ∀ xs : List Term,
    (∀ v ∈ Term.rowLiterals xs, Oracle.nativeLiteral v = v ∧ Text.collapse v = v) →
    (∀ call ∈ Term.rowCalls xs, Writer.isNextValue call.1 → call.2 = []) →
    oracle.nativeTerms xs = xs
  | [], _, _ => rfl
  | x :: xs, hlit, hcalls => by
    simp only [Term.rowLiterals, Term.rowCalls, List.forall_mem_append] at hlit hcalls
    rw [nativeTerms, nativeTerm_oracle x hlit.1 hcalls.1, nativeTerms_oracle xs hlit.2 hcalls.2]

end

end Target

/-- A script that has nothing left to be put into Oracle's words. -/
structure Script.WrittenInOracle (s : Script) : Prop where
  dataTypes : ∀ d ∈ s.dataTypes, Text.upper d.name = d.name ∧ Oracle.nativeType d = d
  literals : ∀ v ∈ s.literals, Oracle.nativeLiteral v = v ∧ ¬ ['\n', '\n'] <:+: v.toList
  calls : ∀ call ∈ s.calls, Writer.isNextValue call.1 → call.2 = []
  texts : ∀ text ∈ s.texts, ¬ ['\n', '\n'] <:+: text.toList
  restorable : s.Restorable

/-- The leaves of a script that is written in Oracle are native. -/
theorem Script.WrittenInOracle.native {s : Script} (h : s.WrittenInOracle) {l : Leaf}
    (hl : l ∈ s.leaves) (hread : l.Readable) : l.Native .oracle o := by
  have hlit : ∀ v ∈ l.literals, Oracle.nativeLiteral v = v ∧ Text.collapse v = v := by
    intro v hv
    obtain ⟨hnative, hlines⟩ := h.literals v (List.mem_flatMap.mpr ⟨l, hl, hv⟩)
    exact ⟨hnative, Text.collapse_of_not_infix hlines⟩
  have hcalls : ∀ call ∈ l.calls, Writer.isNextValue call.1 → call.2 = [] :=
    fun call hcall => h.calls call (List.mem_flatMap.mpr ⟨l, hl, hcall⟩)
  have hnames : ∀ call ∈ l.calls, Target.oracle.NamesSequence call := by
    intro call hcall _ hnext first hfirst
    rw [hcalls call hcall hnext] at hfirst
    cases hfirst
  cases l with
  | dataType d =>
    obtain ⟨hupper, hnative⟩ := h.dataTypes d (List.mem_filterMap.mpr ⟨_, hl, rfl⟩)
    have horacle : Target.oracle.dialect.nativeType d = d := hnative
    rw [Leaf.Native, Target.nativeDataType, horacle, hupper]
  | value x =>
    have hspellable := Target.oracle.spellable_nativeTerm hread hnames
    rwa [Target.nativeTerm_oracle x hlit hcalls] at hspellable
  | condition ts =>
    have hspellable := Target.oracle.spellable_nativeTerms hread hnames
    rwa [Target.nativeTerms_oracle ts hlit hcalls] at hspellable
  | storage x => cases x <;> rfl
  | foreignKey key =>
    intro hdefers
    rw [Target.defers, show Target.oracle.dialect.writesDeferrable = false from rfl,
      Bool.and_false] at hdefers
    cases hdefers
  | sequenceOption option => cases option <;> rfl
  | synonym => rfl
  | text text =>
    exact Text.collapse_of_not_infix (h.texts text (List.mem_filterMap.mpr ⟨_, hl, rfl⟩))

/-- **A script that is written in Oracle is read back as it is.** -/
theorem Script.parse_writeFor_oracle {text : String} {s : Script} (o : WriteOptions)
    (hsort : o.sort = false) (hparse : Script.parse text = .ok s) (hs : s.WrittenInOracle) :
    ∃ out, s.writeFor .oracle o = .ok out ∧ Script.parse out = .ok s := by
  have hnative : ∀ st ∈ s.statements,
      st.WellFormed ∧ st.Restorable ∧ ∀ l ∈ st.leaves, l.Native .oracle o := by
    intro st hst
    obtain ⟨hwf, hread⟩ := Script.of_parse hparse st hst
    exact ⟨hwf, hs.restorable st hst, fun l hl =>
      hs.native (List.mem_flatMap.mpr ⟨st, hst, hl⟩) (hread l hl)⟩
  obtain ⟨out, hout, hback⟩ := Target.parse_script hnative
  rw [arranged, hsort, if_neg (by decide)] at hback
  exact ⟨out, by rw [writeFor_eq, hout], hback⟩

theorem Script.parse_writeFor_oracle_default :
    ∃ s out, Script.parse "CREATE TABLE t (id NUMBER(10) DEFAULT 1 NOT NULL) NOLOGGING;" = .ok s ∧
      s.WrittenInOracle ∧ s.writeFor .oracle {} = .ok out ∧ Script.parse out = .ok s := by
  have hparse : Script.parse "CREATE TABLE t (id NUMBER(10) DEFAULT 1 NOT NULL) NOLOGGING;" =
      .ok ⟨[.table
        { name := "t"
          columns := [⟨"id", "t", [.dataType ⟨"NUMBER", some "10"⟩, .defaultValue (.literal "1"),
            .notNull none]⟩]
          storage := [.logging false] }]⟩ := by
    -- sorting does not evaluate, so both sides keep the clauses as a column sorts them
    rw [← (Column.clauses_ofClauses_eq_iff "id"
      [.dataType ⟨"NUMBER", some "10"⟩, .defaultValue (.literal "1"), .notNull none]).mpr (by decide)]
    with_unfolding_all rfl
  have hs : Script.WrittenInOracle ⟨[.table
        { name := "t"
          columns := [⟨"id", "t", [.dataType ⟨"NUMBER", some "10"⟩, .defaultValue (.literal "1"),
            .notNull none]⟩]
          storage := [.logging false] }]⟩ := by
    refine ⟨by decide, by decide, by decide, by decide, ?_⟩
    simp [Script.Restorable, Statement.Restorable]
  obtain ⟨out, hout, hback⟩ := parse_writeFor_oracle {} rfl hparse hs
  exact ⟨_, out, hparse, hs, hout, hback⟩

end SchemaScript
