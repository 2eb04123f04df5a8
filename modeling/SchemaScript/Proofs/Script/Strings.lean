import Mathlib.Data.List.Perm.Subperm
import SchemaScript.Proofs.Script.RoundTrip
import SchemaScript.Proofs.Statement.Scanning

/-!
# Strings that are written

What stands in quotes goes through the text of a dialect in single quotes, with every run of
newlines cut to one. So a string that is read survives if it has no empty line in it, and it does
not otherwise.

* `Word.string?`, `contents` — the content of a word in quotes, and those of a list of words.
* `Script.strings` — the strings of a script, but for the arguments of calls for the next value of a
  sequence.
* `Carries` — words that hold given strings in their order, with their lines collapsed.
* `Statement.carries` — the words that a statement is written as carry its strings.
* `Script.mem_contents_writeFor_iff` — the strings that survive.
-/

set_option autoImplicit false

namespace SchemaScript

/-! ## Strings -/

/-- The content of a word in quotes. -/
def Word.string? (w : Word) : Option String :=
  match w.kind with
  | .singleQuoted => some (String.ofList (Text.undouble (Text.unwrapped w.value)))
  | .doubleQuoted => some (String.ofList (Text.unwrapped w.value))
  | _ => none

/-- The contents of the words in quotes. -/
def contents (ws : List Word) : List String := ws.filterMap Word.string?

namespace Term

/-- Whether a term is a literal. -/
def isLiteral : Term → Bool
  | .literal _ => true
  | _ => false

mutual

/-- The strings of a term. The name of a sequence that is asked for its next value is none. -/
def strings : Term → List String
  | .literal text => (Word.ofText text).string?.toList
  | .call function args => rowStrings (Writer.isNextValue function) args
  | .expression terms => rowStrings false terms

/-- The strings of several terms, which may be the arguments of a call for the next value of a
sequence. -/
def rowStrings (asks : Bool) : List Term → List String
  | [] => []
  | t :: ts => (if asks && t.isLiteral then [] else t.strings) ++ rowStrings asks ts

end

end Term

/-- The strings of a leaf. -/
def Leaf.strings : Leaf → List String
  | .value x => x.strings
  | .condition ts => Term.rowStrings false ts
  | .text s => [s]
  | _ => []

/-- The strings of a script. -/
def Script.strings (s : Script) : List String := s.leaves.flatMap Leaf.strings

theorem contents_intercalate (ls : List (List Word)) :
    contents ([Word.comma].intercalate ls) = contents ls.flatten := by
  induction ls with
  | nil => rfl
  | cons x xs ih =>
    cases xs with
    | nil => simp
    | cons y ys =>
      rw [List.intercalate_cons_cons, List.flatten_cons]
      simp only [contents, List.filterMap_append] at ih ⊢
      rw [ih]
      simp [Word.comma, Word.string?]

/-! ## Words that carry strings -/

/-- Words that hold given strings in their order, each with its lines collapsed. -/
def Carries (ws : List Word) (ss : List String) : Prop := (ss.map Text.collapse).Sublist (contents ws)

namespace Carries

variable {α β : Type} {us vs ws : List Word} {rs ss : List String}

theorem nil (ws : List Word) : Carries ws [] := List.nil_sublist _

theorem eq_nil (h : Carries [] ss) : ss = [] := by
  rw [← List.map_eq_nil_iff (f := Text.collapse)]
  exact List.sublist_nil.mp h

theorem append (hu : Carries us rs) (hv : Carries vs ss) : Carries (us ++ vs) (rs ++ ss) := by
  rw [Carries, contents, List.filterMap_append, List.map_append]
  exact List.Sublist.append hu hv

theorem behind (us : List Word) (h : Carries vs ss) : Carries (us ++ vs) ss := (nil us).append h

theorem before (vs : List Word) (h : Carries us ss) : Carries (us ++ vs) ss := by
  simpa using h.append (nil vs)

theorem cons (w : Word) (h : Carries ws ss) : Carries (w :: ws) ss := h.behind [w]

theorem flatMap {xs : List α} {f : α → List Word} {g : α → List String}
    (h : ∀ x ∈ xs, Carries (f x) (g x)) : Carries (xs.flatMap f) (xs.flatMap g) := by
  induction xs with
  | nil => exact nil []
  | cons x xs ih =>
    rw [List.flatMap_cons, List.flatMap_cons]
    exact (h x (by simp)).append (ih fun y hy => h y (by simp [hy]))

/-- Some items may be left out, if they have no strings. -/
theorem filterMap {xs : List α} {native? : α → Option β} {f : β → List Word} {g : α → List String}
    (hnone : ∀ x ∈ xs, native? x = none → g x = [])
    (hsome : ∀ x ∈ xs, ∀ y, native? x = some y → Carries (f y) (g x)) :
    Carries ((xs.filterMap native?).flatMap f) (xs.flatMap g) := by
  induction xs with
  | nil => exact nil []
  | cons x xs ih =>
    have hrest := ih (fun y hy => hnone y (by simp [hy])) fun y hy => hsome y (by simp [hy])
    rw [List.flatMap_cons]
    cases hx : native? x with
    | none =>
      rw [List.filterMap_cons_none hx, hnone x (by simp) hx]
      exact hrest
    | some y =>
      rw [List.filterMap_cons_some hx, List.flatMap_cons]
      exact (hsome x (by simp) y hx).append hrest

/-- Commas between words are no strings. -/
theorem intercalate {ls : List (List Word)} (h : Carries ls.flatten ss) :
    Carries ([Word.comma].intercalate ls) ss := by
  rwa [Carries, contents_intercalate]

end Carries

/-! ## Values and conditions -/

theorem Word.string?_quoted (text : String) : (Word.quoted text).string? = some text := by
  simp [string?, quoted, Text.unwrapped, Text.toList_quoted, Text.undouble_double]

/-- The words in quotes, by the kind of the quotes. -/
theorem Word.Lexical.string?_cases {w : Word} (hw : w.Lexical) : w.string? = none ∨
    (∃ content, w = Word.quoted content) ∨
      ∃ content, w.string? = some (String.ofList content) ∧ w.value.toList = '"' :: content ++ ['"'] := by
  cases hw with
  | singleQuoted content hv hkind =>
    obtain ⟨kind, value⟩ := w
    exact .inr (.inl ⟨content, by simp_all [quoted]⟩)
  | doubleQuoted content _ hv hkind =>
    exact .inr (.inr ⟨content, by simp [string?, hkind, Text.unwrapped, hv], hv⟩)
  | word _ hkind =>
    rcases Target.wordKind_cases w.value.toList with h | ⟨k, h⟩ <;> simp [string?, hkind, h]
  | digits _ hkind | placeholder _ hkind | inclusion _ _ hkind => simp [string?, hkind]
  | sign hv =>
    left
    unfold TokenKind.sign? at hv
    split at hv <;> simp_all [string?]

/-- The content of a literal in quotes is that of its single-quoted form. -/
theorem IsText.string?_cases {v : String} (h : IsText v) : (Word.ofText v).string? = none ∨
    ∃ content, (Word.ofText v).string? = some content ∧
      Text.singleQuoted? v = some (Text.quoted content) := by
  obtain ⟨w, hw, hi, -, rfl⟩ := h
  rw [hw.ofText_eq hi]
  rcases hw.string?_cases with hnone | ⟨content, rfl⟩ | ⟨content, hsome, hv⟩
  · exact .inl hnone
  · exact .inr ⟨content, Word.string?_quoted content, Text.singleQuoted?_quoted content⟩
  · exact .inr ⟨_, hsome, Text.singleQuoted?_doubleQuoted hv⟩

/-- What is needed of a call so that no string in it is lost: for the next value of a sequence,
Oracle writes the name of the sequence and no argument besides. -/
def Target.TakesLiterals (t : Target) (call : String × List Term) : Prop :=
  t = .oracle → Writer.isNextValue call.1 → ∀ x ∈ call.2, x.isLiteral

theorem Term.rowStrings_of_literals {ts : List Term} (h : ∀ x ∈ ts, x.isLiteral) :
    rowStrings true ts = [] := by
  induction ts with
  | nil => rfl
  | cons x xs ih =>
    rw [rowStrings, h x (by simp), ih fun y hy => h y (by simp [hy])]
    rfl

namespace Target

variable (t : Target)

theorem carries_literal {v : String} (h : IsText v) :
    Carries (t.literalTerm v).words (Word.ofText v).string?.toList := by
  rcases h.string?_cases with hnone | ⟨content, hsome, hquoted⟩
  · rw [hnone]
    exact .nil _
  · have hword : Word.ofText (Text.quoted (Text.collapse content)) =
        Word.quoted (Text.collapse content) :=
      (show Word.Lexical (Word.quoted (Text.collapse content)) from
        .singleQuoted (Text.collapse content) rfl rfl).ofText_eq (by simp [Word.quoted])
    rw [hsome, literalTerm_of_quoted t hquoted, Text.collapse_quoted, Term.words, hword]
    simp [Carries, contents, Word.string?_quoted]

mutual

/-- **The words of the native term carry the strings of a term.** -/
theorem carries_term : ∀ x : Term, (∀ v ∈ x.literals, IsText v) →
    (∀ call ∈ x.calls, t.TakesLiterals call) → Carries (t.nativeTerm x).words x.strings
  | .literal v, htexts, _ => t.carries_literal (htexts v (by simp [Term.literals]))
  | .call f [], _, _ => Carries.nil _
  | .call f (x :: xs), htexts, hcalls => by
    rw [nativeTerm, Term.strings]
    rcases t.callTerm_cases f x xs (t.nativeTerms (x :: xs)) with heq | ⟨sequence, -, ht, hnext, -⟩
    · rw [heq, Term.words, Term.wordLists_eq]
      refine (Carries.before _ (.intercalate ?_)).cons _ |>.cons _
      exact carries_terms _ (x :: xs) htexts fun call hcall => hcalls call (by simp [Term.calls, hcall])
    · rw [hnext, Term.rowStrings_of_literals (hcalls (f, x :: xs) (by simp [Term.calls]) ht hnext)]
      exact .nil _
  | .expression terms, htexts, hcalls => by
    rw [nativeTerm, Term.strings, Term.words, Term.wordLists_eq]
    exact carries_terms _ terms htexts hcalls

theorem carries_terms (asks : Bool) : ∀ xs : List Term, (∀ v ∈ Term.rowLiterals xs, IsText v) →
    (∀ call ∈ Term.rowCalls xs, t.TakesLiterals call) →
    Carries ((t.nativeTerms xs).map Term.words).flatten (Term.rowStrings asks xs)
  | [], _, _ => Carries.nil _
  | x :: xs, htexts, hcalls => by
    simp only [Term.rowLiterals, Term.rowCalls, List.forall_mem_append] at htexts hcalls
    rw [nativeTerms, Term.rowStrings, List.map_cons, List.flatten_cons]
    refine Carries.append ?_ (carries_terms asks xs htexts.2 hcalls.2)
    split
    · exact .nil _
    · exact carries_term x htexts.1 hcalls.1

end

end Target

/-! ## Tables -/

/-- A leaf whose native form carries its strings. -/
def Leaf.Carried (t : Target) : Leaf → Prop
  | .value x => Carries (t.nativeTerm x).words x.strings
  | .condition ts => Carries (Term.rowWords (t.nativeTerms ts)) (Term.rowStrings false ts)
  | _ => True

theorem Leaf.Readable.carried {t : Target} {l : Leaf} (h : l.Readable)
    (hcalls : ∀ call ∈ l.calls, t.TakesLiterals call) : l.Carried t := by
  cases l with
  | value x =>
    have htexts := SchemaScript.Readable.isText h
    rw [show Term.rowLiterals [x] = x.literals from List.append_nil x.literals] at htexts
    exact t.carries_term x htexts hcalls
  | condition ts =>
    rw [Carried, Term.rowWords, List.flatMap_def]
    exact t.carries_terms false ts (SchemaScript.Readable.isText h) hcalls
  | _ => trivial

/-- Storage options have no strings. -/
theorem flatMap_strings_storage (options : List Storage) :
    (options.map Leaf.storage).flatMap Leaf.strings = [] := by
  simp [Leaf.strings]

section Nodes

variable {t : Target} {o : WriteOptions}

theorem Check.carries {c : Check} (h : (Leaf.condition c.condition).Carried t) :
    Carries (c.native t).words (Term.rowStrings false c.condition) :=
  (Carries.before [Word.rparen] h).cons Word.lparen

theorem ColumnClause.carries {clause : ColumnClause} (h : ∀ l ∈ clause.leaves, l.Carried t) :
    Carries (clause.native t o).words (clause.leaves.flatMap Leaf.strings) := by
  cases clause with
  | defaultValue x =>
    have hx : (Leaf.value x).Carried t := h _ (by simp [leaves])
    rw [leaves, List.flatMap_singleton]
    exact ((Carries.before [Word.rparen] hx).cons Word.lparen).cons Keyword.default.word
  | check c =>
    have hc := Check.carries (h (.condition c.condition) (by simp [leaves]))
    rw [leaves, List.flatMap_singleton]
    exact (hc.cons Keyword.check.word).behind (constraintWords c.name)
  | primaryKey key | unique key =>
    rw [leaves, Key.leaves, flatMap_strings_storage]
    exact .nil _
  | _ => exact .nil _

theorem Column.carries {c : Column} (h : ∀ l ∈ c.leaves, l.Carried t) :
    Carries (c.native t o).words (c.leaves.flatMap Leaf.strings) := by
  rw [words, native, leaves, List.flatMap_map, List.flatMap_assoc]
  refine (Carries.flatMap fun clause hclause => ?_).cons _
  exact clause.carries fun l hl => h l (List.mem_flatMap.mpr ⟨clause, hclause, hl⟩)

theorem TableConstraint.carries {c : TableConstraint} (h : ∀ l ∈ c.leaves, l.Carried t) :
    Carries (c.native t o).words (c.leaves.flatMap Leaf.strings) := by
  cases c with
  | check c =>
    have hc := Check.carries (h (.condition c.condition) (by simp [leaves]))
    rw [leaves, List.flatMap_singleton]
    exact (hc.cons Keyword.check.word).behind (constraintWords c.name)
  | primaryKey key columns | unique key columns =>
    rw [leaves, Key.leaves, flatMap_strings_storage]
    exact .nil _
  | foreignKey key columns => exact .nil _

theorem Table.carries {x : Table} (h : ∀ l ∈ x.leaves, l.Carried t) :
    Carries (x.native t o).words (x.leaves.flatMap Leaf.strings) := by
  simp only [leaves, List.forall_mem_append, List.mem_flatMap, forall_exists_index, and_imp] at h
  have hcolumns : Carries (x.columns.flatMap fun c => (c.native t o).words)
      (x.columns.flatMap fun c => c.leaves.flatMap Leaf.strings) :=
    .flatMap fun c hc => c.carries fun l hl => h.1.1 l c hc hl
  have hconstraints : Carries (x.constraints.flatMap fun c => (c.native t o).words)
      (x.constraints.flatMap fun c => c.leaves.flatMap Leaf.strings) :=
    .flatMap fun c hc => c.carries fun l hl => h.1.2 l c hc hl
  have helements : ((x.native t o).elements.map TableElement.words).flatten =
      (x.columns.flatMap fun c => (c.native t o).words) ++
        x.constraints.flatMap fun c => (c.native t o).words := by
    simp only [elements, native, List.map_append, List.map_map, List.flatten_append, List.flatMap_def]
    rfl
  rw [words, leaves, List.flatMap_append, List.flatMap_append, flatMap_strings_storage,
    List.append_nil, List.flatMap_assoc, List.flatMap_assoc]
  refine ((Carries.before _ (.intercalate ?_)).cons _).cons _
  rw [helements]
  exact hcolumns.append hconstraints

/-! ## Statements -/

theorem Addition.carries {a : Addition} (h : ∀ l ∈ a.leaves, l.Carried t) :
    (a.native? t o = none → a.leaves.flatMap Leaf.strings = []) ∧
      ∀ b, a.native? t o = some b → Carries b.words (a.leaves.flatMap Leaf.strings) := by
  cases a with
  | column c =>
    refine ⟨(fun h => by cases h), fun b hb => ?_⟩
    cases hb
    exact c.carries h
  | constraint c =>
    refine ⟨(fun h => by cases h), fun b hb => ?_⟩
    cases hb
    exact c.carries h
  | storage s => exact ⟨fun _ => rfl, fun _ _ => .nil _⟩

theorem Modification.carries {m : Modification} (h : ∀ l ∈ m.leaves, l.Carried t) :
    (m.native? t o = none → m.leaves.flatMap Leaf.strings = []) ∧
      ∀ m', m.native? t o = some m' → Carries m'.words (m.leaves.flatMap Leaf.strings) := by
  cases m with
  | modify columns =>
    refine ⟨(fun h => by cases h), fun m' hm => ?_⟩
    cases hm
    have hcolumns : Carries (columns.flatMap fun c => (c.native t o).words)
        (columns.flatMap fun c => c.leaves.flatMap Leaf.strings) :=
      .flatMap fun c hc => c.carries fun l hl => h l (List.mem_flatMap.mpr ⟨c, hc, hl⟩)
    rw [words, leaves, List.map_map, List.flatMap_assoc]
    exact ((Carries.before _ (.intercalate hcolumns)).cons _).cons _
  | rename r => exact ⟨fun _ => rfl, fun _ _ => .nil _⟩
  | storage s => exact ⟨fun _ => rfl, fun _ _ => .nil _⟩

theorem Drop.flatMap_strings (d : Drop) : d.leaves.flatMap Leaf.strings = [] := by
  rw [leaves]
  split <;> rfl

theorem AlterTable.carries {a : AlterTable} (h : ∀ l ∈ a.leaves, l.Carried t) :
    Carries ([Word.comma].intercalate ((a.native t o).adds.map fun x => Keyword.add.word :: x.words) ++
      (a.native t o).mods.flatMap Modification.words) (a.leaves.flatMap Leaf.strings) := by
  simp only [leaves, List.forall_mem_append, List.mem_flatMap, forall_exists_index, and_imp] at h
  have hadds : Carries ((a.adds.filterMap (·.native? t o)).flatMap fun x => Keyword.add.word :: x.words)
      (a.adds.flatMap fun x => x.leaves.flatMap Leaf.strings) := by
    refine .filterMap (fun x hx => (x.carries fun l hl => h.1.1 l x hx hl).1) fun x hx y hy => ?_
    exact ((x.carries fun l hl => h.1.1 l x hx hl).2 y hy).cons _
  have hmods : Carries ((a.mods.filterMap (·.native? t o)).flatMap Modification.words)
      (a.mods.flatMap fun m => m.leaves.flatMap Leaf.strings) :=
    .filterMap (fun m hm => (m.carries fun l hl => h.1.2 l m hm hl).1)
      fun m hm => (m.carries fun l hl => h.1.2 l m hm hl).2
  have hdrops : (a.drops.flatMap Drop.leaves).flatMap Leaf.strings = [] := by
    rw [List.flatMap_assoc, List.flatMap_eq_nil_iff]
    exact fun d _ => d.flatMap_strings
  rw [leaves, List.flatMap_append, List.flatMap_append, hdrops, List.append_nil, List.flatMap_assoc,
    List.flatMap_assoc]
  exact (Carries.intercalate hadds).append hmods

/-- **The words that a statement is written as carry its strings**, and a statement for which
nothing is written has none. -/
theorem Statement.carries {s : Statement} (h : ∀ l ∈ s.leaves, l.Carried t) :
    (s.native? t o = none → s.leaves.flatMap Leaf.strings = []) ∧
      ∀ s', s.native? t o = some s' → Carries (s'.lineWords t) (s.leaves.flatMap Leaf.strings) := by
  cases s with
  | table x =>
    refine ⟨(fun h => by cases h), fun s' hs => ?_⟩
    cases hs
    exact ((Carries.cons _ (Table.carries h)).behind _).cons _
  | alterTable a =>
    have hcarries := AlterTable.carries (o := o) h
    rw [native?]
    split
    · rename_i hempty
      refine ⟨fun _ => ?_, fun _ h => by cases h⟩
      have hnil : (a.native t o).adds = [] ∧ (a.native t o).mods = [] := by
        simp [AlterTable.isEmpty, AlterTable.size] at hempty
        exact ⟨hempty.1.1, hempty.1.2⟩
      rw [hnil.1, hnil.2] at hcarries
      exact hcarries.eq_nil
    · refine ⟨(fun h => by cases h), fun s' hs => ?_⟩
      cases hs
      rw [lineWords, AlterTable.lineWords, ← List.append_assoc]
      exact (((hcarries.before _).cons _).cons _).cons _
  | comment c =>
    refine ⟨(fun h => by cases h), fun s' hs => ?_⟩
    cases hs
    have htext : ∀ text, Carries [Word.quoted (Text.collapse text), Word.semicolon] [text] := by
      intro text
      simp [Carries, contents, Word.string?_quoted]
    cases c with
    | table name text =>
      exact (htext text).behind [Keyword.comment.word, Keyword.on.word, Keyword.table.word,
        Word.ofText name, Keyword.is.word]
    | column owner part text =>
      exact (htext text).behind [Keyword.comment.word, Keyword.on.word, Keyword.column.word,
        Word.ofText (owner ++ "." ++ part), Keyword.is.word]
  | insert i =>
    refine ⟨(fun h => by cases h), fun s' hs => ?_⟩
    cases hs
    have hvalues : Carries (i.values.flatMap fun x => (t.nativeTerm x).words)
        (i.values.flatMap Term.strings) :=
      .flatMap fun x hx => h (.value x) (List.mem_map_of_mem hx)
    have hwords : ((t.nativeTerms i.values).map Term.words).flatten =
        i.values.flatMap fun x => (t.nativeTerm x).words := by
      rw [Target.nativeTerms_eq, List.map_map, List.flatMap_def]
      rfl
    rw [← hwords] at hvalues
    rw [leaves, List.flatMap_map]
    have hrow := ((Carries.intercalate hvalues).before [Word.rparen, Word.semicolon]).cons Word.lparen
    have hfront := (hrow.cons Keyword.values.word).behind
      (if i.columns.isEmpty then [] else nameWords i.columns)
    exact ((hfront.cons (Word.ofText i.table)).cons Keyword.into.word).cons Keyword.insert.word
  | index i =>
    rw [leaves, flatMap_strings_storage]
    exact ⟨fun _ => rfl, fun _ _ => .nil _⟩
  | alterIndex a =>
    rw [leaves, flatMap_strings_storage]
    exact ⟨fun _ => rfl, fun _ _ => .nil _⟩
  | sequence s =>
    have hnil : (s.options.map Leaf.sequenceOption).flatMap Leaf.strings = [] := by
      simp [Leaf.strings]
    rw [leaves, hnil]
    exact ⟨fun _ => rfl, fun _ _ => .nil _⟩
  | drop d =>
    rw [leaves, d.flatMap_strings]
    exact ⟨fun _ => rfl, fun _ _ => .nil _⟩
  | _ => exact ⟨fun _ => rfl, fun _ _ => .nil _⟩

end Nodes

/-! ## Lines -/

/-- A word is a piece of its text. -/
theorem Scan.infix_of_mem_words {cs : List Char} {w : Word} (hw : w ∈ words cs)
    (hk : w.kind ≠ .inclusion) : w.value.toList <:+: cs := by
  rw [words_eq] at hw
  have hsuffix : (gap cs).2 <:+ cs := by
    rw [gap, List.splitAt_eq]
    exact List.drop_suffix _ _
  cases hgap : (gap cs).2 with
  | nil => simp [hgap, wordsHere] at hw
  | cons c rest =>
    have hlt := length_rest_lt hgap
    rw [hgap] at hsuffix
    rw [hgap, wordsHere] at hw
    split at hw
    · rename_i kind n hlex
      have hpos := lexeme?_pos hlex
      rcases List.mem_cons.mp hw with rfl | hmem
      · rw [tokenValue, if_neg hk, String.toList_ofList]
        exact (List.take_prefix n _).isInfix.trans hsuffix.isInfix
      · exact (infix_of_mem_words hmem hk).trans ((List.drop_suffix n _).isInfix.trans hsuffix.isInfix)
    · exact (infix_of_mem_words hw hk).trans ((List.suffix_cons c rest).isInfix.trans hsuffix.isInfix)
termination_by cs.length
decreasing_by
  · simp only [List.length_drop, List.length_cons]
    omega
  · exact hlt

theorem Text.infix_double {cs : List Char} (h : ['\n', '\n'] <:+: cs) :
    ['\n', '\n'] <:+: Text.double cs := by
  induction cs with
  | nil => exact h
  | cons c cs ih =>
    rw [List.infix_cons_iff] at h
    rcases h with hfront | hinfix
    · obtain ⟨rest, hrest⟩ := hfront
      rw [← hrest]
      exact (List.prefix_append ['\n', '\n'] (Text.double rest)).isInfix
    · rw [Text.double]
      split
      · exact List.infix_cons (List.infix_cons (ih hinfix))
      · exact List.infix_cons (ih hinfix)

/-- An empty line in a string is one in the text of its word. -/
theorem Word.Lexical.infix_value {w : Word} (hw : w.Lexical) {v : String} (hv : w.string? = some v)
    (h : ['\n', '\n'] <:+: v.toList) : ['\n', '\n'] <:+: w.value.toList := by
  rcases hw.string?_cases with hnone | ⟨content, rfl⟩ | ⟨content, hsome, hvalue⟩
  · rw [hnone] at hv
    cases hv
  · obtain rfl : content = v := Option.some.inj ((string?_quoted content).symm.trans hv)
    rw [quoted, Text.toList_quoted]
    exact List.infix_cons ((Text.infix_double h).trans (List.prefix_append _ _).isInfix)
  · obtain rfl : String.ofList content = v := Option.some.inj (hsome.symm.trans hv)
    rw [String.toList_ofList] at h
    rw [hvalue]
    exact List.infix_cons (h.trans (List.prefix_append _ _).isInfix)

/-- No string of a text has an empty line, if the text has none. -/
theorem not_infix_of_mem_contents {s : String} (hs : Text.collapse s = s) {v : String}
    (hv : v ∈ contents (Scan.words s.toList)) : ¬ ['\n', '\n'] <:+: v.toList := by
  intro hinfix
  obtain ⟨w, hw, hstring⟩ := List.mem_filterMap.mp hv
  have hkind : w.kind ≠ .inclusion := by
    intro hk
    simp [Word.string?, hk] at hstring
  have hvalue := (Scan.lexical_of_mem_words hw).infix_value hstring hinfix
  have hlines : Text.collapseLines s.toList = s.toList := by
    simpa [Text.collapse] using congrArg String.toList hs
  refine Text.no_gap_collapseLines s.toList ?_
  rw [hlines]
  exact hvalue.trans (Scan.infix_of_mem_words hw hkind)

/-! ## Scripts -/

namespace Target

variable {t : Target} {o : WriteOptions}

theorem collapse_write {kind : Kind} {form : Layout → Written} {text : String}
    (h : (t.writer o).write kind form = .ok text) : Text.collapse text = text := by
  rw [Writer.write] at h
  split at h
  · cases h
  · cases h
    rfl
  · rename_i layout _
    cases hform : form layout with
    | error e =>
      rw [hform] at h
      cases h
    | ok body =>
      rw [hform] at h
      cases h
      exact Text.collapse_collapse body

theorem collapse_statement {n : Nat} {s : Statement} {text : String}
    (h : (t.writer o).statement n s = .ok text) : Text.collapse text = text := by
  cases s <;> exact collapse_write h

/-- What is written for a script scans as the words of the native forms of its statements, and no
string of it has an empty line. -/
theorem words_script {s : Script}
    (h : ∀ st ∈ s.statements, st.WellFormed ∧ ∀ l ∈ st.leaves, l.Writable t) :
    ∃ out, (t.writer o).script s = .ok out ∧
      Scan.words out.toList = (s.native t o).statements.flatMap (Statement.lineWords t) ∧
      ∀ v ∈ contents (Scan.words out.toList), ¬ ['\n', '\n'] <:+: v.toList := by
  have hstatement : ∀ st' ∈ (s.native t o).statements, ∃ text,
      (t.writer o).statement 0 st' = .ok text ∧
        Text.collapse text = text ∧ Stands text (st'.lineWords t) ∧ Solid text := by
    intro st' hst'
    obtain ⟨st, hst, hnative⟩ := List.mem_filterMap.mp hst'
    obtain ⟨hwf, hw⟩ := h st (Script.mem_arranged.mp hst)
    obtain ⟨text, htext, hstands, hsolid⟩ := stands_statement 0 hwf hw hnative
    rw [← (statement_native 0 hwf hw).2 st' hnative] at htext
    exact ⟨text, htext, collapse_statement htext, hstands, hsolid⟩
  obtain ⟨g, htexts, hg⟩ := mapM_eq_ok hstatement
  have hkept : ((s.native t o).statements.map g).filter (· ≠ "") = (s.native t o).statements.map g := by
    refine List.filter_eq_self.mpr fun text htext => decide_eq_true fun hnil => ?_
    obtain ⟨st, hst, rfl⟩ := List.mem_map.mp htext
    have hsolid := (hg st hst).2.2
    rw [hnil] at hsolid
    cases hsolid
  have hwords := words_layBlocks fun st hst => (hg st hst).2.1
  refine ⟨layBlocks ((s.native t o).statements.map g), ?_, hwords, ?_⟩
  · rw [← script_native h, script_eq, Script.arranged_native, htexts]
    exact congrArg (fun texts => Except.ok (layBlocks texts)) hkept
  · intro v hv
    rw [hwords, contents, List.filterMap_flatMap] at hv
    obtain ⟨st, hst, hv⟩ := List.mem_flatMap.mp hv
    have hline : Scan.words (g st).toList = st.lineWords t := by
      simpa using (hg st hst).2.1 [] (by simp)
    refine not_infix_of_mem_contents (hg st hst).1 ?_
    rw [hline]
    exact hv

end Target

theorem Script.arranged_perm (t : Target) (o : WriteOptions) (s : Script) :
    (s.arranged t o).Perm s.statements := by
  rw [arranged]
  split
  · exact List.mergeSort_perm _ _
  · exact .refl _

/-- **A string that is read survives in what is written if and only if it has no empty line.** Every
string of a script is found in what is written for it, in quotes and with its lines collapsed, in
either dialect and with any options. Oracle writes no call for the next value of a sequence, so that
such a call has to name the sequence and have no other strings in it. -/
theorem Script.mem_contents_writeFor_iff {text : String} {s : Script} (t : Target) (o : WriteOptions)
    (hparse : Script.parse text = .ok s) (hcalls : ∀ call ∈ s.calls, t.NamesSequence call)
    (hliterals : ∀ call ∈ s.calls, t.TakesLiterals call) :
    ∃ out, s.writeFor t o = .ok out ∧
      (s.strings.map Text.collapse).Subperm (contents ((tokenize out).1.map Token.word)) ∧
      ∀ v ∈ s.strings, (v ∈ contents ((tokenize out).1.map Token.word) ↔
        ¬ ['\n', '\n'] <:+: v.toList) := by
  have hwritable := writable_of_parse hparse hcalls
  obtain ⟨out, hout, hwords, hlines⟩ := Target.words_script (o := o) hwritable
  have hcarried : ∀ st ∈ s.arranged t o, ∀ l ∈ st.leaves, l.Carried t := by
    intro st hst l hl
    have hst := mem_arranged.mp hst
    refine ((hwritable st hst).2 l hl).1.carried fun call hcall => hliterals call ?_
    exact List.mem_flatMap.mpr ⟨l, List.mem_flatMap.mpr ⟨st, hst, hl⟩, hcall⟩
  have hcarries : Carries (Scan.words out.toList)
      ((s.arranged t o).flatMap fun st => st.leaves.flatMap Leaf.strings) := by
    rw [hwords]
    exact .filterMap (fun st hst => (st.carries (hcarried st hst)).1)
      fun st hst => (st.carries (hcarried st hst)).2
  have hperm : ((s.arranged t o).flatMap fun st => st.leaves.flatMap Leaf.strings).Perm s.strings := by
    rw [strings, leaves, List.flatMap_assoc]
    exact (s.arranged_perm t o).flatMap_right _
  have hsubperm : (s.strings.map Text.collapse).Subperm (contents (Scan.words out.toList)) :=
    ⟨_, hperm.map _, hcarries⟩
  refine ⟨out, by rw [writeFor_eq, hout], hsubperm, fun v hv => ⟨hlines v, fun hline => ?_⟩⟩
  have hmem := hsubperm.subset (List.mem_map_of_mem hv)
  rwa [Text.collapse_of_not_infix hline] at hmem

theorem Script.mem_contents_writeFor_comment :
    ∃ s out, Script.parse
      "COMMENT ON TABLE t IS 'it''s'; INSERT INTO t VALUES (f(\"--;\"), NEXTVAL('q'));" =
        .ok s ∧ s.strings = ["it's", "--;"] ∧
      (∀ call ∈ s.calls, Target.oracle.NamesSequence call ∧ Target.oracle.TakesLiterals call) ∧
      s.writeFor .oracle {} = .ok out ∧
      "it's" ∈ contents ((tokenize out).1.map Token.word) ∧
      "--;" ∈ contents ((tokenize out).1.map Token.word) := by
  have hparse : Script.parse
      "COMMENT ON TABLE t IS 'it''s'; INSERT INTO t VALUES (f(\"--;\"), NEXTVAL('q'));" =
      .ok ⟨[.comment (.table "t" "it's"), .insert ⟨"t", [],
        [.call "f" [.literal "\"--;\""], .call "NEXTVAL" [.literal "'q'"]]⟩]⟩ := by decide +kernel
  have hstrings : Script.strings ⟨[.comment (.table "t" "it's"), .insert ⟨"t", [],
      [.call "f" [.literal "\"--;\""], .call "NEXTVAL" [.literal "'q'"]]⟩]⟩ = ["it's", "--;"] := by
    decide +kernel
  have hcalls : ∀ call ∈ Script.calls ⟨[.comment (.table "t" "it's"), .insert ⟨"t", [],
      [.call "f" [.literal "\"--;\""], .call "NEXTVAL" [.literal "'q'"]]⟩]⟩,
      Target.oracle.NamesSequence call ∧ Target.oracle.TakesLiterals call := by
    have hplain : ¬ Writer.isNextValue "f" := by decide
    have hname : Scan.isWord (Writer.unquoted "'q'").toList := by decide
    intro call hcall
    obtain rfl | rfl : call = ("f", [.literal "\"--;\""]) ∨ call = ("NEXTVAL", [.literal "'q'"]) := by
      simpa [Script.calls, Script.leaves, Statement.leaves, Comment.leaves, Leaf.calls, Term.calls,
        Term.rowCalls] using hcall
    · exact ⟨fun _ h => absurd h hplain, fun _ h => absurd h hplain⟩
    · simp [Target.NamesSequence, Target.TakesLiterals, Term.isLiteral, hname]
  obtain ⟨out, hout, -, hmem⟩ := Script.mem_contents_writeFor_iff .oracle {} hparse
    (fun call hcall => (hcalls call hcall).1) fun call hcall => (hcalls call hcall).2
  rw [hstrings] at hmem
  exact ⟨_, out, hparse, hstrings, hcalls, hout, (hmem "it's" (by simp)).mpr (by decide),
    (hmem "--;" (by simp)).mpr (by decide)⟩

/-- A string with an empty line is written without it. -/
theorem Script.not_mem_contents_writeFor_empty_line :
    Script.parse "INSERT INTO t VALUES ('a\n\nb');" =
        .ok ⟨[.insert ⟨"t", [], [.literal "'a\n\nb'"]⟩]⟩ ∧
      Script.strings ⟨[.insert ⟨"t", [], [.literal "'a\n\nb'"]⟩]⟩ = ["a\n\nb"] ∧
      Script.writeFor .oracle {} ⟨[.insert ⟨"t", [], [.literal "'a\n\nb'"]⟩]⟩ =
        .ok "INSERT INTO t\nVALUES\n    ('a\nb');\n" ∧
      "a\n\nb" ∉ contents ((tokenize "INSERT INTO t\nVALUES\n    ('a\nb');\n").1.map Token.word) := by
  refine ⟨?_, ?_, ?_, ?_⟩ <;> decide +kernel

end SchemaScript
