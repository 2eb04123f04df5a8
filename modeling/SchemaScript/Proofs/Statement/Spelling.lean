import SchemaScript.Proofs.Statement.Native
import SchemaScript.Proofs.Table.Spelling
import SchemaScript.Statement.Write

/-!
# Spelling statements

What is written for a statement, and how it relates to the statement's native form.

* `Target.statement_native` — a statement and its native form are written alike, and nothing is
  written for a statement without one.
* `Target.spells_statement` — a native statement spells its own words, on lines of its own.
-/

set_option autoImplicit false

namespace SchemaScript

open Text (Tidy indent)
open Writer (newLine tab)

namespace Target

variable {t : Target} {o : WriteOptions}

/-! ## A statement and its native form -/

theorem index_native (n : Nat) (i : Index) :
    (t.writer o).index n (i.native t) = (t.writer o).index n i := by
  simp only [Writer.index, Index.native, storages_native]
  rfl

theorem sequence_native (s : Sequence) :
    (t.writer o).sequence (s.native t) = (t.writer o).sequence s := by
  have hform : ∀ s : Sequence, (t.writer o).sequence s = (do
      let options ← (s.options.mapM (t.writer o).sequenceOption).map String.join
      return "CREATE SEQUENCE " ++ s.name ++ options ++ ";" : Written).map Text.collapse := by
    intro s
    rw [Writer.sequence, Writer.write]
    cases s.options.mapM (t.writer o).sequenceOption <;> cases t <;> rfl
  have hoptions : (s.native t).options =
      s.options.filterMap (Option.guard fun option => t.writes option.kind) :=
    congrFun List.filterMap_eq_filter.symm s.options
  rw [hform, hform, hoptions, join_mapM_filterMap]
  · rfl
  · intro option _ hnone
    refine write_leaveOut ?_ _
    simpa [Option.guard] using hnone
  · intro option _ y hsome
    simp only [Option.guard] at hsome
    split at hsome
    · rw [Option.some.inj hsome]
    · cases hsome

/-! ### Changes -/

theorem addition_native (n : Nat) {a : Addition} (hwf : a.WellFormed)
    (h : ∀ l ∈ a.leaves, l.Writable t) :
    (a.native? t o = none → (t.writer o).addition n a = .ok "") ∧
      ∀ b, a.native? t o = some b → (t.writer o).addition n b = (t.writer o).addition n a := by
  cases a with
  | column c =>
    refine ⟨(fun h => by cases h), fun b hb => ?_⟩
    cases hb
    exact column_native n 0 hwf.1.toWellFormed h
  | constraint c =>
    refine ⟨(fun h => by cases h), fun b hb => ?_⟩
    cases hb
    exact tableConstraint_native n h
  | storage s =>
    rw [Addition.native?]
    split
    · refine ⟨(fun h => by cases h), fun b hb => ?_⟩
      cases hb
      rfl
    · rename_i hw
      exact ⟨fun _ => write_leaveOut (by simpa using hw) _, fun _ h => by cases h⟩

theorem modification_native (n : Nat) {m : Modification}
    (h : ∀ columns, m = .modify columns → ∀ c ∈ columns, c.WellFormed ∧ ∀ l ∈ c.leaves, l.Writable t) :
    (m.native? t o = none → (t.writer o).modification n m = .ok "") ∧
      ∀ m', m.native? t o = some m' →
        (t.writer o).modification n m' = (t.writer o).modification n m := by
  cases m with
  | rename r =>
    refine ⟨(fun h => by cases h), fun m' hm => ?_⟩
    cases hm
    rfl
  | modify columns =>
    refine ⟨(fun h => by cases h), fun m' hm => ?_⟩
    cases hm
    have hcolumns : (columns.map (·.native t o)).mapM
        ((t.writer o).column n (Writer.margin n columns)) =
        columns.mapM ((t.writer o).column n (Writer.margin n columns)) :=
      mapM_map_congr fun c hc => column_native _ _ (h columns rfl c hc).1 (h columns rfl c hc).2
    simp only [Writer.modification, Writer.modify, margin_native, hcolumns]
  | storage s =>
    rw [Modification.native?]
    split
    · refine ⟨(fun h => by cases h), fun m' hm => ?_⟩
      cases hm
      rfl
    · rename_i hw
      exact ⟨fun _ => write_leaveOut (by simpa using hw) _, fun _ h => by cases h⟩

/-- Texts that come out empty are left out of a list, whether they are trimmed before or not. -/
theorem filter_map_trimStart (texts : List String) :
    (((texts.filter (· ≠ "")).map Text.trimStart).filter (· ≠ "")) =
      (texts.map Text.trimStart).filter (· ≠ "") := by
  induction texts with
  | nil => rfl
  | cons a as ih =>
    by_cases ha : a = ""
    · have htrim : Text.trimStart a = "" := by rw [ha]; rfl
      rw [List.filter_cons_of_neg (by simp [ha]), ih, List.map_cons,
        List.filter_cons_of_neg (by simp [htrim])]
    · rw [List.filter_cons_of_pos (by simp [ha]), List.map_cons, List.map_cons, List.filter_cons,
        List.filter_cons, ih]

theorem additions_native (n : Nat) {adds : List Addition}
    (h : ∀ a ∈ adds, a.WellFormed ∧ ∀ l ∈ a.leaves, l.Writable t) :
    (t.writer o).additions n (adds.filterMap (·.native? t o)) = (t.writer o).additions n adds := by
  have hform : ∀ adds : List Addition, (t.writer o).additions n adds = (do
      let texts ← (adds.mapM ((t.writer o).addition 0)).map (List.filter (· ≠ ""))
      return ",".intercalate (((texts.map Text.trimStart).filter (· ≠ "")).map fun text =>
        newLine (n + tab) ++ "ADD " ++ text) : Written) := by
    intro adds
    rw [Writer.additions]
    cases adds.mapM ((t.writer o).addition 0) with
    | error e => rfl
    | ok texts =>
      refine congrArg Except.ok ?_
      rw [filter_map_trimStart]
  rw [hform, hform, mapM_filterMap]
  · exact fun a ha => (addition_native 0 (h a ha).1 (h a ha).2).1
  · exact fun a ha => (addition_native 0 (h a ha).1 (h a ha).2).2

/-- What is written of a change, behind the name of the table. -/
def alterBody (t : Target) (o : WriteOptions) (n : Nat) (a : AlterTable) : Written := do
  let adds ← (t.writer o).additions n a.adds
  let mods ← (a.mods.mapM ((t.writer o).modification (n + tab))).map String.join
  let drops ← a.drops.mapM (t.writer o).drop
  return adds ++ mods ++ String.join (drops.map (newLine (n + tab) ++ ·))

theorem alterTable_eq (n : Nat) {a : AlterTable} (hne : a.isEmpty = false) :
    (t.writer o).alterTable n a = (do
      let body ← alterBody t o n a
      return if body = "" then "" else "ALTER TABLE " ++ a.table ++ body ++ ";" :
        Written).map Text.collapse := by
  have hform : (t.writer o).alterTable n a = (do
      let adds ← (t.writer o).additions n a.adds
      let mods ← a.mods.mapM ((t.writer o).modification (n + tab))
      let drops ← a.drops.mapM (t.writer o).drop
      let body := adds ++ String.join mods ++ String.join (drops.map (newLine (n + tab) ++ ·))
      if body = "" ∧ !a.isEmpty then
        return ""
      else
        return "ALTER TABLE " ++ a.table ++ body ++ ";" : Written).map Text.collapse := by
    cases t <;> rfl
  rw [hform, alterBody]
  cases (t.writer o).additions n a.adds with
  | error e => rfl
  | ok adds =>
    cases a.mods.mapM ((t.writer o).modification (n + tab)) with
    | error e => rfl
    | ok mods =>
      cases a.drops.mapM (t.writer o).drop with
      | error e => rfl
      | ok drops =>
        simp only [hne, Bool.not_false, and_true, bind, Except.bind, pure, Except.pure, Except.map]
        generalize adds ++ String.join mods ++ String.join (drops.map (newLine (n + tab) ++ ·)) = body
        by_cases hbody : body = "" <;> simp [hbody]

theorem alterBody_native (n : Nat) {a : AlterTable} (hwf : a.WellFormed)
    (h : ∀ l ∈ a.leaves, l.Writable t) :
    alterBody t o n (a.native t o) = alterBody t o n a := by
  obtain ⟨table, adds, mods, drops⟩ := a
  simp only [AlterTable.leaves, List.forall_mem_append, List.mem_flatMap, forall_exists_index,
    and_imp] at h
  have hactions := hwf.actions
  have hadds : ∀ a ∈ adds, a.WellFormed := by
    cases hactions with
    | adds _ hadds => exact hadds
    | _ => nofun
  have hmods : ∀ m ∈ mods, ∀ columns, m = .modify columns →
      ∀ c ∈ columns, c.WellFormed ∧ ∀ l ∈ c.leaves, l.Writable t := by
    rintro m hm columns rfl c hc
    refine ⟨?_, fun l hl => h.1.2 l _ hm (List.mem_flatMap.mpr ⟨c, hc, hl⟩)⟩
    cases hactions with
    | modify _ hshape =>
      rw [List.mem_singleton] at hm
      cases hm
      exact (hshape c hc).1
    | storage =>
      obtain ⟨s, -, heq⟩ := List.mem_map.mp hm
      cases heq
    | rename =>
      rw [List.mem_singleton] at hm
      cases hm
    | _ => cases hm
  have hjoin := join_mapM_filterMap (f := (t.writer o).modification (n + tab))
    (g := fun m => m.native? t o) (fun m hm => (modification_native (n + tab) (hmods m hm)).1)
    fun m hm => (modification_native (n + tab) (hmods m hm)).2
  simp only [alterBody, AlterTable.native, hjoin,
    additions_native n fun a ha => ⟨hadds a ha, fun l hl => h.1.1 l a ha hl⟩]

/-- A change that has been read does something. -/
theorem isEmpty_eq_false {a : AlterTable} (h : a.WellFormed) : a.isEmpty = false := by
  obtain ⟨table, adds, mods, drops⟩ := a
  have hactions := h.actions
  cases hactions with
  | adds hne => simpa [AlterTable.isEmpty, AlterTable.size] using hne
  | storage hne => simpa [AlterTable.isEmpty, AlterTable.size] using hne
  | _ => rfl

theorem alterTable_native (n : Nat) {a : AlterTable} (hwf : a.WellFormed)
    (h : ∀ l ∈ a.leaves, l.Writable t) :
    ((a.native t o).isEmpty = true → (t.writer o).alterTable n a = .ok "") ∧
      ((a.native t o).isEmpty = false →
        (t.writer o).alterTable n (a.native t o) = (t.writer o).alterTable n a) := by
  have hbody := alterBody_native (o := o) n hwf h
  have hne := isEmpty_eq_false hwf
  constructor
  · intro hempty
    -- a change of which nothing is native has no drops either
    have hnil : (a.native t o).adds = [] ∧ (a.native t o).mods = [] ∧ (a.native t o).drops = [] := by
      simpa [AlterTable.isEmpty, AlterTable.size, and_assoc] using hempty
    rw [alterTable_eq n hne, ← hbody, alterBody, hnil.1, hnil.2.1, hnil.2.2]
    rfl
  · intro hnative
    rw [alterTable_eq n hne, alterTable_eq n hnative, hbody]
    rfl

theorem alterIndex_eq (n : Nat) {a : AlterIndex} (hne : a.storage ≠ []) :
    (t.writer o).alterIndex n a = (do
      let body ← (t.writer o).storages (n + tab) a.storage
      return if body = "" then "" else "ALTER INDEX " ++ a.index ++ body ++ ";" :
        Written).map Text.collapse := by
  have hform : (t.writer o).alterIndex n a = (do
      let body ← (t.writer o).storages (n + tab) a.storage
      if body = "" ∧ !a.storage.isEmpty then
        return ""
      else
        return "ALTER INDEX " ++ a.index ++ body ++ ";" : Written).map Text.collapse := by
    cases t <;> rfl
  have hempty : a.storage.isEmpty = false := by simpa using hne
  rw [hform]
  cases (t.writer o).storages (n + tab) a.storage with
  | error e => rfl
  | ok body =>
    simp only [hempty, Bool.not_false, and_true, bind, Except.bind, pure, Except.pure, Except.map]
    by_cases hbody : body = "" <;> simp [hbody]

theorem alterIndex_native (n : Nat) {a : AlterIndex} (hne : a.storage ≠ []) :
    ((a.native t).storage = [] → (t.writer o).alterIndex n a = .ok "") ∧
      ((a.native t).storage ≠ [] →
        (t.writer o).alterIndex n (a.native t) = (t.writer o).alterIndex n a) := by
  have hbody : (t.writer o).storages (n + tab) (a.native t).storage =
      (t.writer o).storages (n + tab) a.storage := storages_native (n + tab) a.storage
  constructor
  · intro hnil
    rw [alterIndex_eq n hne, ← hbody, hnil]
    rfl
  · intro hnative
    rw [alterIndex_eq n hne, alterIndex_eq n hnative, hbody]
    rfl

theorem drop_native {d : Drop} (hobject : d.object = .synonym) (hw : t.writes .synonym = false) :
    (t.writer o).drop d = .ok "" := by
  cases t with
  | oracle => cases hw
  | postgres =>
    have hform : (postgres.writer o).drop d =
        .ok (Text.collapse (if d.object = .synonym then "" else Writer.dropLine d)) := rfl
    rw [hform, if_pos hobject]
    rfl

/-! ### Comments and rows -/

/-- The last touch to a quoted text between others goes to its content. -/
theorem collapse_quoted_between {a b : String} (ha : Tidy a) (hb : Tidy b) (text : String) :
    Text.collapse (a ++ Text.quoted (Text.collapse text) ++ b) =
      Text.collapse (a ++ Text.quoted text ++ b) := by
  have hpieces : ∀ text : String, Text.collapse (a ++ Text.quoted text ++ b) =
      a ++ Text.quoted (Text.collapse text) ++ b := by
    intro text
    have hlast : (a ++ Text.quoted text).toList.getLast? ≠ some '\n' := by
      rw [String.toList_append, Text.toList_quoted]
      simp [List.getLast?_append, List.getLast?_cons]
    have hcollapsed : ∀ s : String, Text.collapse s = s → Text.collapseLines s.toList = s.toList :=
      fun s hs => by simpa [Text.collapse] using congrArg String.toList hs
    have hquoted : Text.collapseLines (Text.quoted text).toList =
        (Text.quoted (Text.collapse text)).toList := by
      rw [← Text.collapse_quoted, Text.collapse, String.toList_ofList]
    rw [← String.toList_inj, Text.collapse, String.toList_ofList, String.toList_append,
      Text.collapseLines_append fun h => absurd h hlast, String.toList_append,
      Text.collapseLines_append fun h => absurd h ha.last_ne, hcollapsed a ha.collapsed,
      hcollapsed b hb.collapsed, hquoted, String.toList_append, String.toList_append]
  rw [hpieces, hpieces, Text.collapse_collapse]

theorem comment_eq (c : Comment) : (t.writer o).comment c = .ok (Text.collapse (match c with
    | .table table text => "COMMENT ON TABLE " ++ table ++ " IS " ++ Text.quoted text ++ ";"
    | .column table column text =>
      "COMMENT ON COLUMN " ++ table ++ "." ++ column ++ " IS " ++ Text.quoted text ++ ";")) := by
  cases c <;> cases t <;> rfl

theorem comment_native {c : Comment} (hwf : c.WellFormed) :
    (t.writer o).comment c.native = (t.writer o).comment c := by
  have htidy : ∀ s : String, '\n' ∉ s.toList → Tidy s := fun s hs => Text.tidy_of_no_newline hs
  cases c with
  | table name text =>
    rw [comment_eq, comment_eq, Comment.native]
    have hfront : Tidy ("COMMENT ON TABLE " ++ name ++ " IS ") :=
      ((htidy _ (by decide)).append hwf.1.spells.tidy).append (htidy _ (by decide))
    dsimp only
    rw [collapse_quoted_between hfront (htidy _ (by decide))]
  | column owner part text =>
    rw [comment_eq, comment_eq, Comment.native]
    have hfront : Tidy ("COMMENT ON COLUMN " ++ owner ++ "." ++ part ++ " IS ") := by
      have hname := ((htidy "COMMENT ON COLUMN " (by decide)).append hwf.1.spells.tidy).append
        (htidy " IS " (by decide))
      simpa only [String.append_assoc] using hname
    dsimp only
    rw [collapse_quoted_between hfront (htidy _ (by decide))]

theorem insert_native (n : Nat) {i : Insert} (h : ∀ x ∈ i.values, (Leaf.value x).Writable t) :
    (t.writer o).insert n (i.native t) = (t.writer o).insert n i := by
  have hterms : (t.writer o).terms (t.nativeTerms i.values) = (t.writer o).terms i.values := by
    rw [terms_eq_mapM, terms_eq_mapM, nativeTerms_eq]
    refine mapM_map_congr fun x hx => t.term_nativeTerm o x ?_ (h x hx).2
    have htext := (h x hx).1.isText
    rwa [show Term.rowLiterals [x] = x.literals from List.append_nil x.literals] at htext
  simp only [Writer.insert, Insert.native, hterms]
  rfl

/-- **A statement and its native form are written alike, and nothing is written for a statement
without one.** -/
theorem statement_native (n : Nat) {s : Statement} (hwf : s.WellFormed)
    (h : ∀ l ∈ s.leaves, l.Writable t) :
    (s.native? t o = none → (t.writer o).statement n s = .ok "") ∧
      ∀ s', s.native? t o = some s' → (t.writer o).statement n s' = (t.writer o).statement n s := by
  cases s with
  | table table =>
    refine ⟨(fun h => by cases h), fun s' hs => ?_⟩
    cases hs
    exact table_native n hwf h
  | index i =>
    refine ⟨(fun h => by cases h), fun s' hs => ?_⟩
    cases hs
    exact index_native n i
  | sequence s =>
    refine ⟨(fun h => by cases h), fun s' hs => ?_⟩
    cases hs
    exact sequence_native s
  | synonym s =>
    rw [Statement.native?]
    split
    · refine ⟨(fun h => by cases h), fun s' hs => ?_⟩
      cases hs
      rfl
    · rename_i hw
      exact ⟨fun _ => write_leaveOut (by simpa using hw) _, fun _ h => by cases h⟩
  | alterTable a =>
    have hboth := alterTable_native (o := o) n hwf h
    rw [Statement.native?]
    split
    · rename_i hempty
      exact ⟨fun _ => hboth.1 hempty, fun _ h => by cases h⟩
    · rename_i hne
      refine ⟨(fun h => by cases h), fun s' hs => ?_⟩
      cases hs
      exact hboth.2 (by simpa using hne)
  | alterIndex a =>
    have hboth := alterIndex_native (t := t) (o := o) n hwf.ne_nil
    rw [Statement.native?]
    split
    · rename_i hempty
      exact ⟨fun _ => hboth.1 hempty, fun _ h => by cases h⟩
    · rename_i hne
      refine ⟨(fun h => by cases h), fun s' hs => ?_⟩
      cases hs
      exact hboth.2 hne
  | drop d =>
    rw [Statement.native?]
    split
    · rename_i hnone
      exact ⟨fun _ => drop_native hnone.1 hnone.2, fun _ h => by cases h⟩
    · refine ⟨(fun h => by cases h), fun s' hs => ?_⟩
      cases hs
      rfl
  | comment c =>
    refine ⟨(fun h => by cases h), fun s' hs => ?_⟩
    cases hs
    exact comment_native hwf
  | insert i =>
    refine ⟨(fun h => by cases h), fun s' hs => ?_⟩
    cases hs
    exact insert_native n fun x hx => h (.value x) (List.mem_map_of_mem hx)
  | commit =>
    refine ⟨(fun h => by cases h), fun s' hs => ?_⟩
    cases hs
    rfl
  | inclusion path =>
    refine ⟨(fun h => by cases h), fun s' hs => ?_⟩
    cases hs
    rfl

end Target

/-! ## Native statements spell their words -/

/-- A text that stands on lines of its own: before a newline or nothing, it scans as some words. -/
def Stands (s : String) (ws : List Word) : Prop :=
  ∀ rest : List Char, (∀ c ∈ rest.head?, c = '\n') →
    Scan.words (s.toList ++ rest) = ws ++ Scan.words rest

theorem Opens.stands {s : String} {ws : List Word} (h : Opens s ws) : Stands s ws :=
  fun rest _ => h.scan rest

namespace Target

variable {t : Target} {o : WriteOptions}

/-! ### Creations -/

theorem spells_index (n : Nat) {i : Index} (h : i.WellFormed)
    (hnative : ∀ l ∈ (Statement.index i).leaves, l.Native t o) :
    ∃ text, (t.writer o).index n i = .ok text ∧
      Opens text (Statement.index i).words ∧ Solid text := by
  obtain ⟨options, hoptions, hstorage, hdetached⟩ := spells_storages (o := o)
    (fun s hs => ⟨.inl (.index (h.storage s hs)), hnative (.storage s) (List.mem_map_of_mem hs)⟩)
    (n + tab)
  have hunique : Opens (if i.unique then "UNIQUE " else "")
      (if i.unique then [Keyword.unique.word] else []) := by
    split
    · exact opens_phrase [.unique] rfl
    · exact opens_empty
  have hcreate : Opens "CREATE " [Keyword.create.word] := opens_phrase [.create] rfl
  have hindex : Opens "INDEX " [Keyword.index.word] := opens_phrase [.index] rfl
  have hon : Opens "ON " [Keyword.on.word] := opens_phrase [.on] rfl
  have hname := ((hcreate.append hunique).append hindex).append_spells h.name.spells
  have htable := ((hname.append_opens (opens_newLine n) (parted_newLine _)).append hon).append_spells
    h.table.spells
  have hcolumns := (htable.append_opens opens_space (by decide)).append h.columns.opens
  have hall := (hcolumns.append_spells hstorage).append_opens opens_semicolon (by decide)
  refine ⟨_, write_eq .index (by cases t <;> rfl) ?_ hall.tidy, ?_, ?_⟩
  · simp only [hoptions]
    rfl
  · simpa [Statement.words, Index.words] using hall
  · simp only [String.append_assoc]
    exact Solid.append (by decide) _

/-- What is written for an option of a sequence. -/
def sequenceOptionText : SequenceOption → String
  | .startWith value => " START WITH " ++ value
  | .order => " ORDER"

theorem spells_sequenceOption {option : SequenceOption} (h : option.WellFormed)
    (hw : t.writes option.kind) :
    (t.writer o).sequenceOption option = .ok (sequenceOptionText option) ∧
      Spells (sequenceOptionText option) option.words ∧ Parted (sequenceOptionText option) := by
  cases option with
  | startWith value =>
    have hspells : Spells (" START WITH " ++ value) (SequenceOption.startWith value).words :=
      (opens_space.append (opens_phrase [.start, .with_] rfl)).append_spells (spells_numeral h)
    refine ⟨?_, hspells, Parted.append (by decide) _⟩
    exact write_eq .startWith (by cases t <;> rfl) rfl hspells.tidy
  | order =>
    have hspells : Spells " ORDER" SequenceOption.order.words :=
      opens_space.append_spells (spells_phrase [] .order rfl)
    refine ⟨?_, hspells, by decide⟩
    cases t with
    | oracle => exact write_eq .order rfl rfl hspells.tidy
    | postgres => cases hw

theorem spells_sequence {s : Sequence} (h : s.WellFormed)
    (hnative : ∀ l ∈ (Statement.sequence s).leaves, l.Native t o) :
    ∃ text, (t.writer o).sequence s = .ok text ∧
      Opens text (Statement.sequence s).words ∧ Solid text := by
  have hoption : ∀ option ∈ s.options,
      (t.writer o).sequenceOption option = .ok (sequenceOptionText option) ∧
        Spells (sequenceOptionText option) option.words ∧ Parted (sequenceOptionText option) :=
    fun option hmem => spells_sequenceOption (h.options option hmem)
      (hnative (.sequenceOption option) (List.mem_map_of_mem hmem))
  have hoptions := mapM_ok fun option hmem => (hoption option hmem).1
  obtain ⟨hjoin, hdetached⟩ := spells_join (fun option hmem => (hoption option hmem).2.1)
    fun option hmem => (hoption option hmem).2.2
  have hcreate : Opens "CREATE SEQUENCE " [Keyword.create.word, Keyword.sequence.word] :=
    opens_phrase [.create, .sequence] rfl
  have hall := ((hcreate.append_spells h.name.spells).append hjoin hdetached).append_opens
    opens_semicolon (by decide)
  refine ⟨_, write_eq .sequence (by cases t <;> rfl) ?_ hall.tidy, ?_, ?_⟩
  · simp only [hoptions]
    rfl
  · simpa [Statement.words, Sequence.words] using hall
  · simp only [String.append_assoc]
    exact Solid.append (by decide) _

theorem spells_synonym {s : Synonym} (h : s.WellFormed) (hw : t.writes .synonym) :
    ∃ text, (t.writer o).synonym s = .ok text ∧
      Opens text (Statement.synonym s).words ∧ Solid text := by
  obtain ⟨name, target⟩ := s
  have hcreate : Opens "CREATE SYNONYM " [Keyword.create.word, Keyword.synonym.word] :=
    opens_phrase [.create, .synonym] rfl
  have hname := hcreate.append_spells h.name.spells
  have hkind : t.dialect.treatment? .synonym = some (.write .synonym) := by
    cases t with
    | oracle => rfl
    | postgres => cases hw
  cases target with
  | none =>
    have hall := hname.append_opens opens_semicolon (by decide)
    refine ⟨_, write_eq .synonym hkind rfl hall.tidy, hall, ?_⟩
    exact (Solid.append (by decide) _).append _
  | some target =>
    have hfor : Opens " FOR " [Keyword.for_.word] := opens_space.append (opens_phrase [.for_] rfl)
    have hall := ((hname.append_opens hfor (by decide)).append_spells
      (h.target target rfl).spells).append_opens opens_semicolon (by decide)
    refine ⟨_, write_eq .synonym hkind rfl hall.tidy, hall, ?_⟩
    exact (((Solid.append (by decide) _).append _).append _).append _

/-! ### Changes -/

theorem trimStart_append {a b : String} (ha : ∀ c ∈ a.toList, Text.isBlank c) (hb : Solid b) :
    Text.trimStart (a ++ b) = b := by
  unfold Solid at hb
  have hfirst : b.toList.dropWhile Text.isBlank = b.toList := by
    refine Text.dropWhile_eq_self fun c hc => ?_
    rw [Option.mem_def.mp hc] at hb
    simpa using hb
  rw [Text.trimStart, String.toList_append, List.dropWhile_append_of_pos ha, hfirst,
    String.ofList_toList]

/-- What is added to a table, without the blanks in front of it. -/
theorem spells_addition {a : Addition} (h : a.WellFormed)
    (hnative : ∀ l ∈ a.leaves, l.Native t o) :
    ∃ text, (t.writer o).addition 0 a = .ok text ∧
      Spells (Text.trimStart text) a.words ∧ Solid (Text.trimStart text) := by
  cases a with
  | column c =>
    obtain ⟨text, htext, hspells, hsolid⟩ :=
      spells_column (o := o) 0 0 h.1.toWellFormed hnative
    have htrim := trimStart_append (a := indent 0) (by simp [indent]) hsolid
    exact ⟨_, htext, by rwa [htrim], by rwa [htrim]⟩
  | constraint c =>
    obtain ⟨text, htext, hspells, hsolid⟩ := spells_tableConstraint (o := o) 0 h hnative
    have htrim := trimStart_append (a := indent 0) (by simp [indent]) hsolid
    exact ⟨_, htext, by rwa [htrim], by rwa [htrim]⟩
  | storage s =>
    have hw : t.writes s.kind := hnative (.storage s) (by simp [Addition.leaves])
    have hspells := Storage.spells_text (.inl h)
    have htrim := trimStart_append (a := newLine 0) (by simp [newLine, indent]; decide) s.solid_text
    refine ⟨newLine 0 ++ s.text, ?_, by rwa [htrim], by rw [htrim]; exact s.solid_text⟩
    rw [Writer.addition, storage_eq 0 hw, (hspells.newLine s.solid_text.onLine 0).tidy.collapsed]

theorem spells_additions (n : Nat) {adds : List Addition} (hne : adds ≠ [])
    (h : ∀ a ∈ adds, a.WellFormed ∧ ∀ l ∈ a.leaves, l.Native t o) :
    ∃ text, (t.writer o).additions n adds = .ok text ∧
      Spells text ([Word.comma].intercalate (adds.map fun x => Keyword.add.word :: x.words)) ∧
      Parted text := by
  obtain ⟨g, htexts, hg⟩ := mapM_eq_ok fun a ha => spells_addition (o := o) (h a ha).1 (h a ha).2
  have hadd : ∀ a ∈ adds, Spells (newLine (n + tab) ++ "ADD " ++ Text.trimStart (g a))
      (Keyword.add.word :: a.words) := fun a ha =>
    ((opens_newLine n).append (opens_phrase [.add] rfl : Opens "ADD " _)).append_spells (hg a ha).1
  have hlist := spells_intercalate "," hadd
    (fun a ha => opens_comma.append_spells (hadd a ha)) (by decide)
  refine ⟨_, ?_, hlist, ?_⟩
  · have hkept : ((adds.map g).map Text.trimStart).filter (· ≠ "") =
        adds.map fun a => Text.trimStart (g a) := by
      rw [List.map_map]
      refine List.filter_eq_self.mpr fun text htext => ?_
      obtain ⟨a, ha, rfl⟩ := List.mem_map.mp htext
      refine decide_eq_true fun hnil => ?_
      have hsolid : Solid ((Text.trimStart ∘ g) a) := (hg a ha).2
      rw [hnil] at hsolid
      cases hsolid
    rw [Writer.additions, htexts]
    refine congrArg Except.ok ?_
    rw [hkept, List.map_map]
    rfl
  · obtain ⟨a, as, rfl⟩ := List.exists_cons_of_ne_nil hne
    rw [List.map_cons, intercalate_cons]
    exact (((parted_newLine _).append _).append _).append _

theorem spells_dropLine {d : Drop} (h : IsName d.name) :
    ∃ text, Writer.dropLine d = text ++ (if d.object.isTablePart then "" else ";") ∧
      Spells text (Keyword.drop.word :: d.words) ∧ Solid text := by
  refine ⟨"DROP " ++ d.object.word ++ " " ++ d.name, rfl, ?_, ?_⟩
  · have hword : d.object.word = d.object.keyword.name := by cases d.object <;> rfl
    have hobject : Spells d.object.word [d.object.keyword.word] := by
      rw [hword]
      exact spells_keyword _
    exact (((opens_phrase [.drop] rfl : Opens "DROP " _).append_spells hobject).append_opens
      opens_space (by decide)).append_spells h.spells
  · exact ((Solid.append (by decide) _).append _).append _

/-- A drop that the dialect has words for. -/
theorem drop_eq {d : Drop} (hnative : ∀ l ∈ d.leaves, l.Native t o) :
    (t.writer o).drop d = .ok (Text.collapse (Writer.dropLine d)) := by
  cases t with
  | oracle => rfl
  | postgres =>
    have hform : (postgres.writer o).drop d =
        .ok (Text.collapse (if d.object = .synonym then "" else Writer.dropLine d)) := rfl
    rw [hform, if_neg]
    intro heq
    have hsynonym := hnative .synonym (by simp [Drop.leaves, heq])
    cases hsynonym

theorem spells_rename {r : Rename} (h : r.WellFormed) :
    ∃ text, (t.writer o).rename r = .ok text ∧
      Spells text (Keyword.rename.word :: r.words) ∧ Parted text := by
  cases r with
  | table newName =>
    have hspells : Spells (" RENAME TO " ++ newName)
        (Keyword.rename.word :: (Rename.table newName).words) :=
      (opens_space.append (opens_phrase [.rename, .to] rfl)).append_spells (IsName.spells h)
    exact ⟨_, write_eq .rename (by cases t <;> rfl) rfl hspells.tidy, hspells,
      Parted.append (by decide) _⟩
  | column name newName =>
    have hto : Opens " TO " [Keyword.to.word] := opens_space.append (opens_phrase [.to] rfl)
    have hspells : Spells (" RENAME COLUMN " ++ name ++ " TO " ++ newName)
        (Keyword.rename.word :: (Rename.column name newName).words) :=
      (((opens_space.append (opens_phrase [.rename, .column] rfl)).append_spells
        h.1.spells).append_opens hto (by decide)).append_spells h.2.spells
    exact ⟨_, write_eq .rename (by cases t <;> rfl) rfl hspells.tidy, hspells,
      ((Parted.append (by decide) _).append _).append _⟩

theorem spells_modify (n : Nat) {columns : List Column} (hne : columns ≠ [])
    (h : ∀ c ∈ columns, c.WellFormed ∧ ∀ l ∈ c.leaves, l.Native t o) :
    ∃ text, (t.writer o).modify n columns = .ok text ∧
      Spells text (Modification.modify columns).words ∧ Parted text := by
  have hcolumn : ∀ c ∈ columns, ∃ text,
      (t.writer o).column n (Writer.margin n columns) c = .ok text ∧ Entry (text, c.words) := by
    intro c hc
    obtain ⟨text, htext, hspells, hsolid⟩ :=
      spells_column (o := o) n (Writer.margin n columns) (h c hc).1 (h c hc).2
    exact ⟨_, htext, entry_indent _ hspells hsolid⟩
  obtain ⟨f, hcolumns, hf⟩ := mapM_eq_ok (P := fun c text => Entry (text, Column.words c)) hcolumn
  have hentries : ∀ e ∈ columns.map fun c => (f c, c.words), Entry e := by
    intro e he
    obtain ⟨c, hc, rfl⟩ := List.mem_map.mp he
    exact hf c hc
  have hbody := spells_body (by simpa using hne) hentries
  rw [List.map_map, List.map_map] at hbody
  have hopen : Opens ("\n" ++ "MODIFY" ++ ("\n" ++ "(")) [Keyword.modify.word, Word.lparen] := by
    have hmodify : Spells ("\n" ++ "MODIFY") [Keyword.modify.word] :=
      (spells_keyword .modify).newline (by decide)
    exact hmodify.append_opens (opens_lparen.newline (by decide)) (by decide)
  have hall := (hopen.append_spells hbody).append_opens (opens_rparen.newline (by decide)) (by decide)
  refine ⟨_, write_eq .modify (by cases t <;> rfl) ?_ hall.tidy, ?_, ?_⟩
  · simp only [hcolumns]
    refine congrArg Except.ok ?_
    rw [show ("\nMODIFY\n(\n" : String) = "\n" ++ "MODIFY" ++ ("\n" ++ "(") ++ "\n" from rfl,
      show ("\n)" : String) = "\n" ++ ")" from rfl]
    simp only [String.append_assoc]
    rfl
  · exact hall.spells
  · simp only [String.append_assoc]
    exact Parted.append (by decide) _

theorem alterBody_mods (n : Nat) (table : String) {mods : List Modification} {texts : List String}
    (h : mods.mapM ((t.writer o).modification (n + tab)) = .ok texts) :
    alterBody t o n ⟨table, [], mods, []⟩ = .ok (String.join texts) := by
  have hnil : "" ++ String.join texts ++ String.join [] = String.join texts := by
    rw [String.empty_append]
    exact String.append_empty
  rw [alterBody, h]
  exact congrArg Except.ok hnil

/-- What is written of a native change, behind the name of the table. -/
theorem spells_alterBody (n : Nat) {a : AlterTable} (h : a.WellFormed)
    (hdrops : ∀ d ∈ a.drops, d.object.isTablePart) (hnative : ∀ l ∈ a.leaves, l.Native t o) :
    ∃ body, alterBody t o n a = .ok body ∧ Opens (body ++ ";") a.words.tail ∧ Parted body := by
  obtain ⟨table, adds, mods, drops⟩ := a
  simp only [AlterTable.leaves, List.forall_mem_append, List.mem_flatMap, forall_exists_index,
    and_imp] at hnative
  have hactions := h.actions
  cases hactions with
  | adds hne hadds =>
    obtain ⟨text, htext, hspells, hparted⟩ := spells_additions (o := o) n hne fun a ha =>
      ⟨hadds a ha, fun l hl => hnative.1.1 l a ha hl⟩
    refine ⟨text, ?_, ?_, hparted⟩
    · simp only [alterBody, htext]
      exact congrArg Except.ok (by simp)
    · have hall := hspells.append_opens opens_semicolon (by decide)
      simpa [AlterTable.words] using hall
  | @drop d hd =>
    have hleaves : ∀ l ∈ d.leaves, l.Native t o := fun l hl => hnative.2 l d (by simp) hl
    obtain ⟨text, htext, hspells, hsolid⟩ := spells_dropLine hd
    rw [hdrops d (by simp), if_pos rfl, String.append_empty] at htext
    have hline := hspells.newLine hsolid.onLine (n + tab)
    refine ⟨newLine (n + tab) ++ text, ?_, ?_, (parted_newLine _).append _⟩
    · have hdrop : [d].mapM (t.writer o).drop = .ok [text] := by
        rw [List.mapM_cons, drop_eq hleaves, htext, hspells.tidy.collapsed]
        rfl
      simp only [alterBody, hdrop]
      exact congrArg Except.ok (by simp)
    · have hall := hline.append_opens opens_semicolon (by decide)
      simpa [AlterTable.words] using hall
  | @rename r hr =>
    obtain ⟨text, htext, hspells, hparted⟩ := spells_rename (t := t) (o := o) hr
    have hmods : [Modification.rename r].mapM ((t.writer o).modification (n + tab)) = .ok [text] := by
      rw [List.mapM_cons, Writer.modification, htext]
      rfl
    refine ⟨text, ?_, ?_, hparted⟩
    · rw [alterBody_mods n table hmods, String.join_cons]
      exact congrArg Except.ok String.append_empty
    · have hall := hspells.append_opens opens_semicolon (by decide)
      simpa [AlterTable.words, Modification.words] using hall
  | @modify columns hne hshape =>
    obtain ⟨text, htext, hspells, hparted⟩ := spells_modify (o := o) (n + tab) hne fun c hc =>
      ⟨(hshape c hc).1, fun l hl => hnative.1.2 l (.modify columns) (by simp)
        (List.mem_flatMap.mpr ⟨c, hc, hl⟩)⟩
    have hmods : [Modification.modify columns].mapM ((t.writer o).modification (n + tab)) =
        .ok [text] := by
      rw [List.mapM_cons, Writer.modification, htext]
      rfl
    refine ⟨text, ?_, ?_, hparted⟩
    · rw [alterBody_mods n table hmods, String.join_cons]
      exact congrArg Except.ok String.append_empty
    · have hall := hspells.append_opens opens_semicolon (by decide)
      simpa [AlterTable.words, Modification.words] using hall
  | @storage options hne hoptions =>
    have hwrites : ∀ s ∈ options, (s.OfTable ∨ s.OfKey) ∧ t.writes s.kind := fun s hs =>
      ⟨.inl (hoptions s hs), hnative.1.2 (.storage s) (.storage s) (List.mem_map_of_mem hs)
        (by simp [Modification.leaves])⟩
    obtain ⟨hmapM, hspells⟩ := mapM_storage (o := o) hwrites (n + tab)
    obtain ⟨hjoin, -⟩ := spells_join hspells fun s _ => (parted_newLine (n + tab)).append s.text
    have hmods : (options.map Modification.storage).mapM ((t.writer o).modification (n + tab)) =
        .ok (options.map fun s => newLine (n + tab) ++ s.text) := by
      rw [List.mapM_map]
      exact hmapM
    refine ⟨_, alterBody_mods n table hmods, ?_, ?_⟩
    · have hall := hjoin.append_opens opens_semicolon (by decide)
      simpa [AlterTable.words, Modification.words, List.flatMap_map] using hall
    · obtain ⟨s, options, rfl⟩ := List.exists_cons_of_ne_nil hne
      rw [List.map_cons, String.join_cons]
      exact ((parted_newLine _).append _).append _

theorem spells_alterTable (n : Nat) {a : AlterTable} (h : a.WellFormed)
    (hdrops : ∀ d ∈ a.drops, d.object.isTablePart) (hnative : ∀ l ∈ a.leaves, l.Native t o) :
    ∃ text, (t.writer o).alterTable n a = .ok text ∧
      Opens text (Statement.alterTable a).words ∧ Solid text := by
  obtain ⟨body, hbody, hopens, hparted⟩ := spells_alterBody (o := o) n h hdrops hnative
  have halter : Opens "ALTER TABLE " [Keyword.alter.word, Keyword.table.word] :=
    opens_phrase [.alter, .table] rfl
  have hname := halter.append_spells h.table.spells
  have hne : body ≠ "" := by
    rintro rfl
    cases hparted
  have hall := hname.append_opens hopens (hparted.append ";")
  rw [← String.append_assoc] at hall
  refine ⟨_, ?_, hall, ?_⟩
  · rw [alterTable_eq n (isEmpty_eq_false h), hbody, ← hall.tidy.collapsed]
    simp [Except.map, bind, Except.bind, pure, Except.pure, hne]
  · exact ((Solid.append (by decide) _).append _).append _

theorem spells_alterIndex (n : Nat) {a : AlterIndex} (h : a.WellFormed)
    (hnative : ∀ l ∈ (Statement.alterIndex a).leaves, l.Native t o) :
    ∃ text, (t.writer o).alterIndex n a = .ok text ∧
      Opens text (Statement.alterIndex a).words ∧ Solid text := by
  have hwrites : ∀ s ∈ a.storage, (s.OfTable ∨ s.OfKey) ∧ t.writes s.kind := fun s hs =>
    ⟨.inl (.index (h.storage s hs)), hnative (.storage s) (List.mem_map_of_mem hs)⟩
  obtain ⟨hmapM, hspells⟩ := mapM_storage (o := o) hwrites (n + tab)
  obtain ⟨hjoin, hdetached⟩ := spells_join hspells fun s _ => (parted_newLine (n + tab)).append s.text
  have hbody : (t.writer o).storages (n + tab) a.storage =
      .ok (String.join (a.storage.map fun s => newLine (n + tab) ++ s.text)) := by
    rw [Writer.storages, hmapM]
    rfl
  have hne : String.join (a.storage.map fun s => newLine (n + tab) ++ s.text) ≠ "" := by
    obtain ⟨s, options, heq⟩ := List.exists_cons_of_ne_nil h.ne_nil
    rw [heq, List.map_cons, String.join_cons, newLine]
    simp
  have halter : Opens "ALTER INDEX " [Keyword.alter.word, Keyword.index.word] :=
    opens_phrase [.alter, .index] rfl
  have hall := ((halter.append_spells h.index.spells).append hjoin hdetached).append_opens
    opens_semicolon (by decide)
  refine ⟨_, ?_, by simpa [Statement.words, AlterIndex.words] using hall, ?_⟩
  · rw [alterIndex_eq n h.ne_nil, hbody, ← hall.tidy.collapsed]
    simp [Except.map, bind, Except.bind, pure, Except.pure, hne]
  · exact ((Solid.append (by decide) _).append _).append _

theorem spells_drop {d : Drop} (h : IsName d.name) (hpart : d.object.isTablePart = false)
    (hnative : ∀ l ∈ d.leaves, l.Native t o) :
    ∃ text, (t.writer o).drop d = .ok text ∧ Opens text (Statement.drop d).words ∧ Solid text := by
  obtain ⟨text, htext, hspells, hsolid⟩ := spells_dropLine h
  rw [hpart, if_neg (by decide)] at htext
  have hall := hspells.append_opens opens_semicolon (by decide)
  refine ⟨_, ?_, hall, hsolid.append _⟩
  rw [drop_eq hnative, htext, hall.tidy.collapsed]

/-! ### Comments, rows and inclusions -/

theorem spells_quoted {text : String} (h : Text.collapse text = text) :
    Spells (Text.quoted text) [Word.quoted text] := by
  have hinline : (Word.quoted text).Inline := ⟨.singleQuoted text rfl rfl, nofun⟩
  exact hinline.spells (Text.tidy_quoted h)

theorem spells_comment {c : Comment} (h : c.WellFormed) (hnative : ∀ l ∈ c.leaves, l.Native t o) :
    ∃ text, (t.writer o).comment c = .ok text ∧
      Opens text (Statement.comment c).words ∧ Solid text := by
  have his : Opens " IS " [Keyword.is.word] := opens_space.append (opens_phrase [.is] rfl)
  have hrest : ∀ {front name text : String} {ws : List Word}, Opens front ws → IsName name →
      Text.collapse text = text → Opens (front ++ name ++ " IS " ++ Text.quoted text ++ ";")
        (ws ++ [Word.ofText name, Keyword.is.word, Word.quoted text, Word.semicolon]) := by
    intro front name text ws hfront hname htext
    have hall := (((hfront.append_spells hname.spells).append_opens his (by decide)).append_spells
      (spells_quoted htext)).append_opens opens_semicolon (by decide)
    simpa using hall
  cases c with
  | table name text =>
    have hall := hrest (opens_phrase [.comment, .on, .table] rfl : Opens "COMMENT ON TABLE " _) h.1
      (hnative (.text text) (by simp [Comment.leaves]))
    refine ⟨_, ?_, hall, ?_⟩
    · rw [comment_eq, hall.tidy.collapsed]
    · simp only [String.append_assoc]
      exact Solid.append (by decide) _
  | column owner part text =>
    have hall := hrest (opens_phrase [.comment, .on, .column] rfl : Opens "COMMENT ON COLUMN " _) h.1
      (hnative (.text text) (by simp [Comment.leaves]))
    refine ⟨_, ?_, hall, ?_⟩
    · rw [comment_eq, ← hall.tidy.collapsed]
      simp only [String.append_assoc]
    · simp only [String.append_assoc]
      exact Solid.append (by decide) _

theorem spells_insert (n : Nat) {i : Insert} (h : i.WellFormed)
    (hnative : ∀ l ∈ (Statement.insert i).leaves, l.Native t o) :
    ∃ text, (t.writer o).insert n i = .ok text ∧
      Opens text (Statement.insert i).words ∧ Solid text := by
  have hvalue : ∀ x ∈ i.values, ∃ text, (t.writer o).term x = .ok text ∧ Spells text x.words :=
    fun x hx => t.spells_term o x (hnative (.value x) (List.mem_map_of_mem hx)).2
  obtain ⟨g, hterms, hg⟩ := mapM_eq_ok hvalue
  have hvalues := opens_names hg
  have hcolumns : Opens (if i.columns.isEmpty then "" else newLine (n + tab) ++ Writer.names i.columns)
      (if i.columns.isEmpty then [] else nameWords i.columns) ∧
      Detached (if i.columns.isEmpty then "" else newLine (n + tab) ++ Writer.names i.columns) := by
    rcases h.columns with hnil | hcolumns
    · rw [hnil]
      exact ⟨opens_empty, rfl⟩
    · have hne : ¬ i.columns.isEmpty := by simpa using hcolumns.ne_nil
      rw [if_neg hne, if_neg hne]
      exact ⟨(opens_newLine n).append hcolumns.opens, ((parted_newLine _).append _).detached⟩
  have hinto : Opens "INSERT INTO " [Keyword.insert.word, Keyword.into.word] :=
    opens_phrase [.insert, .into] rfl
  have hkeyword : Spells ("\n" ++ "VALUES") [Keyword.values.word] :=
    (spells_keyword .values).newline (by decide)
  have hfront := ((hinto.append_spells h.table.spells).append hcolumns.1.spells hcolumns.2).append
    hkeyword (by decide)
  have hall := ((hfront.append_opens (opens_newLine n) (parted_newLine _)).append hvalues).append
    opens_semicolon
  refine ⟨_, write_eq .insert (by cases t <;> rfl) ?_ hall.tidy, ?_, ?_⟩
  · simp only [terms_eq_mapM, hterms]
    rfl
  · simpa [Statement.words, Insert.words] using hall
  · simp only [String.append_assoc]
    exact Solid.append (by decide) _

theorem stands_inclusion {path : String} (h : Word.Lexical ⟨.inclusion, path⟩) (hne : path ≠ "") :
    ∃ text, (t.writer o).inclusion path = .ok text ∧ Stands text [⟨.inclusion, path⟩] ∧
      Solid text := by
  have hshape := h.path rfl
  have hnil : path.toList ≠ [] := by
    rw [ne_eq, String.toList_eq_nil_iff]
    exact hne
  have htidy : ∀ front : String, '\n' ∉ front.toList → Tidy (front ++ path) := fun front hfront =>
    (Text.tidy_of_no_newline hfront).append (Text.tidy_of_no_newline hshape.2)
  cases t with
  | oracle =>
    refine ⟨"@" ++ path, write_eq .atInclusion rfl rfl (htidy _ (by decide)), ?_,
      Solid.append (by decide) _⟩
    intro rest hrest
    have hscan := (Scan.words_inclusion hnil hshape.1 hshape.2 hrest).1
    rw [String.ofList_toList] at hscan
    rw [String.toList_append]
    exact hscan
  | postgres =>
    refine ⟨"\\i " ++ path, write_eq .backslashInclusion rfl rfl (htidy _ (by decide)), ?_,
      Solid.append (by decide) _⟩
    intro rest hrest
    have hscan := (Scan.words_inclusion hnil hshape.1 hshape.2 hrest).2
    rw [String.ofList_toList] at hscan
    rw [String.toList_append]
    exact hscan

/-! ### Statements -/

/-- **A native statement spells its own words, on lines of its own.** -/
theorem spells_statement (n : Nat) {s : Statement} (h : s.WellFormed) (hs : s.Restorable)
    (hnative : ∀ l ∈ s.leaves, l.Native t o) :
    ∃ text, (t.writer o).statement n s = .ok text ∧ Stands text s.words ∧ Solid text := by
  have hopens : (∃ text, (t.writer o).statement n s = .ok text ∧ Opens text s.words ∧ Solid text) →
      ∃ text, (t.writer o).statement n s = .ok text ∧ Stands text s.words ∧ Solid text := by
    rintro ⟨text, htext, hwords, hsolid⟩
    exact ⟨text, htext, hwords.stands, hsolid⟩
  cases s with
  | table table => exact hopens (spells_table n h hnative)
  | index i => exact hopens (spells_index n h hnative)
  | sequence s => exact hopens (spells_sequence h hnative)
  | synonym s => exact hopens (spells_synonym h (hnative .synonym (by simp [Statement.leaves])))
  | alterTable a => exact hopens (spells_alterTable n h hs.1 hnative)
  | alterIndex a => exact hopens (spells_alterIndex n h hnative)
  | drop d => exact hopens (spells_drop h hs hnative)
  | comment c => exact hopens (spells_comment h hnative)
  | insert i => exact hopens (spells_insert n h hnative)
  | commit =>
    have hcommit : Opens "COMMIT;" [Keyword.commit.word, Word.semicolon] :=
      (spells_keyword .commit).append_opens opens_semicolon (by decide)
    exact hopens ⟨_, write_eq .commit (by cases t <;> rfl) rfl hcommit.tidy, hcommit, by decide⟩
  | inclusion path => exact stands_inclusion h hs

end Target

end SchemaScript
