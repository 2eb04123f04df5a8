import SchemaScript.Dialect.Target
import SchemaScript.Dialect.Writer
import SchemaScript.Proofs.Token.Word
import SchemaScript.Table.Write

/-!
# Spelling words

How written texts and their words fit together.

* `Spells s ws` — the text `s` is tidy, and in front of a delimiter it scans as the words `ws`.
* `Opens s ws` — the same in front of any text.
* `Spells.append`, `Spells.intercalate`, `Spells.join` — texts put together.
* `Writer.sorted_eq`, `StablySorted` — items in the order of their kinds.
* `Target.writer` — the writer for a target, and how it treats the kinds.
-/

set_option autoImplicit false

namespace SchemaScript

open Scan (Delimited)
open Text (Tidy indent)

/-- A tidy text that scans as some words in front of a delimiter. -/
structure Spells (s : String) (ws : List Word) : Prop where
  tidy : Tidy s
  scan : ∀ rest, Delimited rest → Scan.words (s.toList ++ rest) = ws ++ Scan.words rest

/-- A tidy text that scans as some words in front of any text. -/
structure Opens (s : String) (ws : List Word) : Prop where
  tidy : Tidy s
  scan : ∀ rest, Scan.words (s.toList ++ rest) = ws ++ Scan.words rest

variable {a b s : String} {us vs ws : List Word}

theorem Opens.spells (h : Opens s ws) : Spells s ws := ⟨h.tidy, fun rest _ => h.scan rest⟩

theorem Opens.append (ha : Opens a us) (hb : Opens b vs) : Opens (a ++ b) (us ++ vs) := by
  refine ⟨ha.tidy.append hb.tidy, fun rest => ?_⟩
  rw [String.toList_append, List.append_assoc, ha.scan, hb.scan, List.append_assoc]

theorem Opens.append_spells (ha : Opens a us) (hb : Spells b vs) : Spells (a ++ b) (us ++ vs) := by
  refine ⟨ha.tidy.append hb.tidy, fun rest hrest => ?_⟩
  rw [String.toList_append, List.append_assoc, ha.scan, hb.scan rest hrest, List.append_assoc]

/-- A text that is not empty and opens with a delimiter. -/
def Parted (s : String) : Prop := s.toList.head?.any Scan.isDelimiter = true

instance (s : String) : Decidable (Parted s) := inferInstanceAs (Decidable (_ = true))

theorem head?_any_append {p : Char → Bool} (h : a.toList.head?.any p) (b : String) :
    (a ++ b).toList.head?.any p := by
  rw [String.toList_append, List.head?_append]
  cases hc : a.toList.head? with
  | none => simp [hc] at h
  | some c => simpa [hc] using h

theorem Parted.append (h : Parted a) (b : String) : Parted (a ++ b) := head?_any_append h b

theorem Parted.delimited (h : Parted s) (rest : List Char) : Delimited (s.toList ++ rest) := by
  unfold Parted at h
  cases hs : s.toList with
  | nil => simp [hs] at h
  | cons c cs => simpa [hs, Scan.Delimited] using h

/-- A text that is empty or opens with a delimiter. -/
def Detached (s : String) : Prop := s.toList.head?.all Scan.isDelimiter = true

instance (s : String) : Decidable (Detached s) := inferInstanceAs (Decidable (_ = true))

theorem Parted.detached (h : Parted s) : Detached s := by
  unfold Parted at h
  unfold Detached
  cases hc : s.toList.head? with
  | none => simp [hc] at h
  | some c => simpa [hc] using h

theorem Detached.delimited (h : Detached s) {rest : List Char} (hrest : Delimited rest) :
    Delimited (s.toList ++ rest) := by
  unfold Detached at h
  cases hs : s.toList with
  | nil => exact hrest
  | cons c cs => simpa [hs, Scan.Delimited] using h

theorem Spells.append (ha : Spells a us) (hb : Spells b vs) (hd : Detached b) :
    Spells (a ++ b) (us ++ vs) := by
  refine ⟨ha.tidy.append hb.tidy, fun rest hrest => ?_⟩
  rw [String.toList_append, List.append_assoc, ha.scan _ (hd.delimited hrest), hb.scan rest hrest,
    List.append_assoc]

theorem Spells.append_opens (ha : Spells a us) (hb : Opens b vs) (hd : Parted b) :
    Opens (a ++ b) (us ++ vs) := by
  refine ⟨ha.tidy.append hb.tidy, fun rest => ?_⟩
  rw [String.toList_append, List.append_assoc, ha.scan _ (hd.delimited rest), hb.scan,
    List.append_assoc]

theorem spells_empty : Spells "" [] := ⟨Text.tidy_empty, fun _ _ => rfl⟩

theorem opens_empty : Opens "" [] := ⟨Text.tidy_empty, fun _ => rfl⟩

/-! ## Words and blanks -/

theorem Word.Inline.spells {w : Word} (hw : w.Inline) (ht : Tidy w.value) : Spells w.value [w] :=
  ⟨ht, fun _ hrest => Scan.words_append hw.lexical hw.ne_inclusion hrest⟩

theorem opens_mark (kind : TokenKind) {c : Char} (hkind : kind.mark? = some c)
    (hs : s = String.ofList [c]) : Opens s [⟨kind, s⟩] := by
  subst hs
  refine ⟨Text.tidy_of_no_newline ?_, fun rest => ?_⟩
  · unfold TokenKind.mark? at hkind
    split at hkind <;> cases hkind <;> decide
  · rw [String.toList_ofList]
    exact Scan.words_mark hkind rest

theorem opens_lparen : Opens "(" [Word.lparen] := opens_mark .lparen rfl rfl

theorem opens_rparen : Opens ")" [Word.rparen] := opens_mark .rparen rfl rfl

theorem opens_comma : Opens "," [Word.comma] := opens_mark .comma rfl rfl

theorem opens_semicolon : Opens ";" [Word.semicolon] := opens_mark .semicolon rfl rfl

theorem words_replicate (n : Nat) (rest : List Char) :
    Scan.words (List.replicate n ' ' ++ rest) = Scan.words rest := by
  induction n with
  | zero => rfl
  | succ n ih => rw [List.replicate_succ, List.cons_append, Scan.words_blank (by decide), ih]

theorem opens_indent (n : Nat) : Opens (indent n) [] := by
  refine ⟨Text.tidy_of_no_newline ?_, fun rest => ?_⟩
  · simp [indent]
  · rw [indent, String.toList_ofList, words_replicate]
    rfl

theorem opens_space : Opens " " [] := opens_indent 1

/-! ## Keywords -/

theorem spells_keyword (k : Keyword) : Spells k.name [k.word] := by
  have hline : ∀ k ∈ Keyword.all, '\n' ∉ k.name.toList := by decide +kernel
  exact (Keyword.inline_word k).spells (Text.tidy_of_no_newline (hline k (Keyword.mem_all k)))

/-- Keywords, each with a space behind it. -/
def phrase (ks : List Keyword) : String := String.join (ks.map fun k => k.name ++ " ")

theorem String.join_cons (a : String) (as : List String) :
    String.join (a :: as) = a ++ String.join as := by
  rw [← String.toList_inj]
  simp

theorem opens_phrase (ks : List Keyword) (hs : s = phrase ks) : Opens s (ks.map Keyword.word) := by
  subst hs
  induction ks with
  | nil => exact opens_empty
  | cons k ks ih =>
    rw [phrase, List.map_cons, String.join_cons]
    exact ((spells_keyword k).append_opens opens_space (by decide)).append ih

/-- Keywords with spaces between them. -/
theorem spells_phrase (ks : List Keyword) (k : Keyword) (hs : s = phrase ks ++ k.name) :
    Spells s (ks.map Keyword.word ++ [k.word]) := by
  subst hs
  exact (opens_phrase ks rfl).append_spells (spells_keyword k)

/-! ## Lines -/

/-- A text that is not empty and opens with no newline. -/
def OnLine (s : String) : Prop := s.toList.head?.any (· ≠ '\n') = true

instance (s : String) : Decidable (OnLine s) := inferInstanceAs (Decidable (_ = true))

theorem OnLine.append (h : OnLine a) (b : String) : OnLine (a ++ b) := head?_any_append h b

theorem OnLine.tidy (h : OnLine s) (ht : Tidy s) : Tidy ("\n" ++ s) := by
  unfold OnLine at h
  cases hs : s.toList with
  | nil => simp [hs] at h
  | cons c cs => exact ht.newline (by simp [hs]) (by simpa [hs] using h)

theorem Spells.newline (h : Spells s ws) (hs : OnLine s) : Spells ("\n" ++ s) ws := by
  refine ⟨hs.tidy h.tidy, fun rest hrest => ?_⟩
  rw [String.toList_append]
  exact (Scan.words_blank (by decide)).trans (h.scan rest hrest)

theorem Opens.newline (h : Opens s ws) (hs : OnLine s) : Opens ("\n" ++ s) ws := by
  refine ⟨hs.tidy h.tidy, fun rest => ?_⟩
  rw [String.toList_append]
  exact (Scan.words_blank (by decide)).trans (h.scan rest)

theorem OnLine.indent (h : OnLine s) (n : Nat) : OnLine (indent n ++ s) := by
  cases n with
  | zero => simpa [Text.indent] using h
  | succ n => exact OnLine.append (by simp [OnLine, Text.indent, List.replicate_succ]) s

/-- A text that is not empty and opens with no blank. -/
def Solid (s : String) : Prop := s.toList.head?.any (fun c => !Text.isBlank c) = true

instance (s : String) : Decidable (Solid s) := inferInstanceAs (Decidable (_ = true))

theorem Solid.append (h : Solid a) (b : String) : Solid (a ++ b) := head?_any_append h b

theorem Solid.onLine (h : Solid s) : OnLine s := by
  unfold Solid at h
  unfold OnLine
  cases hc : s.toList.head? with
  | none => simp [hc] at h
  | some c =>
    rw [hc, Option.any_some] at h
    refine decide_eq_true ?_
    rintro rfl
    exact absurd h (by decide)

theorem Spells.newLine (h : Spells s ws) (hs : OnLine s) (n : Nat) :
    Spells (Writer.newLine n ++ s) ws := by
  rw [Writer.newLine, String.append_assoc]
  exact ((opens_indent n).append_spells h).newline (hs.indent n)

theorem parted_newLine (n : Nat) : Parted (Writer.newLine n) := Parted.append (by decide) _

theorem opens_newLine (n : Nat) : Opens (Writer.newLine (n + Writer.tab)) [] := by
  refine (opens_indent _).newline ?_
  simp [OnLine, Text.indent, Writer.tab, List.replicate_succ]

/-! ## Lists -/

section Lists

variable {α : Type} {xs : List α} {g : α → String} {f : α → List Word}

/-- Texts one after the other. -/
theorem spells_join (hx : ∀ x ∈ xs, Spells (g x) (f x)) (hd : ∀ x ∈ xs, Parted (g x)) :
    Spells (String.join (xs.map g)) (xs.flatMap f) ∧ Detached (String.join (xs.map g)) := by
  induction xs with
  | nil => exact ⟨spells_empty, rfl⟩
  | cons x xs ih =>
    obtain ⟨hjoin, hdetached⟩ := ih (fun y hy => hx y (by simp [hy])) fun y hy => hd y (by simp [hy])
    rw [List.map_cons, String.join_cons, List.flatMap_cons]
    exact ⟨(hx x (by simp)).append hjoin hdetached, ((hd x (by simp)).append _).detached⟩

theorem intercalate_cons (sep a : String) (as : List String) :
    sep.intercalate (a :: as) = a ++ String.join (as.map (sep ++ ·)) := by
  rw [← String.toList_inj, String.toList_append, String.toList_intercalate, String.toList_join]
  induction as generalizing a with
  | nil => simp
  | cons b bs ih => simpa using ih b

theorem List.intercalate_nil_map (xs : List α) : [].intercalate (xs.map f) = xs.flatMap f := by
  cases xs with
  | nil => rfl
  | cons x xs => rw [List.intercalate_cons_map, List.flatMap_cons]; rfl

/-- Texts with a separator between them, which may end a line. -/
theorem spells_intercalate (sep : String) {seps : List Word}
    (hx : ∀ x ∈ xs, Spells (g x) (f x)) (hsep : ∀ x ∈ xs, Spells (sep ++ g x) (seps ++ f x))
    (hd : Parted sep) :
    Spells (sep.intercalate (xs.map g)) (seps.intercalate (xs.map f)) := by
  cases xs with
  | nil => exact spells_empty
  | cons x xs =>
    rw [List.map_cons, intercalate_cons, List.intercalate_cons_map, List.map_map]
    obtain ⟨hjoin, hdetached⟩ := spells_join (fun y hy => hsep y (List.mem_cons_of_mem x hy))
      fun y _ => hd.append (g y)
    exact (hx x (by simp)).append hjoin hdetached

/-- Texts with commas between them, in parentheses. -/
theorem opens_names (hx : ∀ x ∈ xs, Spells (g x) (f x)) :
    Opens (Writer.names (xs.map g))
      (Word.lparen :: ([Word.comma].intercalate (xs.map f) ++ [Word.rparen])) := by
  have hcomma : Opens ", " [Word.comma] := opens_comma.append opens_space
  have hlist := spells_intercalate ", " hx (fun x hmem => hcomma.append_spells (hx x hmem))
    (by decide)
  exact (opens_lparen.append_spells hlist).append_opens opens_rparen (by decide)

theorem parted_names (columns : List String) : Parted (Writer.names columns) := by
  rw [Writer.names, String.append_assoc]
  exact Parted.append (by decide) _

end Lists

/-! ## Writers -/

/-- Nodes that come out empty make no difference to what is written of a list, and neither does
anything that is written alike. -/
theorem mapM_filterMap {α : Type} {f : α → Written} {g : α → Option α} {xs : List α}
    (hnone : ∀ x ∈ xs, g x = none → f x = .ok "")
    (hsome : ∀ x ∈ xs, ∀ y, g x = some y → f y = f x) :
    ((xs.filterMap g).mapM f).map (List.filter (· ≠ "")) =
      (xs.mapM f).map (List.filter (· ≠ "")) := by
  induction xs with
  | nil => rfl
  | cons x xs ih =>
    have ih := ih (fun y hy => hnone y (by simp [hy])) fun y hy => hsome y (by simp [hy])
    have hmap : ∀ (a : Written) (bs : Except WriteError (List String)),
        Except.map (List.filter (· ≠ "")) (do return (← a) :: (← bs)) =
          (do
            let text ← a
            return (if text ≠ "" then [text] else []) ++
              (← Except.map (List.filter (· ≠ "")) bs)) := by
      intro a bs
      cases a with
      | error e => rfl
      | ok text =>
        cases bs with
        | error e => rfl
        | ok texts =>
          by_cases h : text = "" <;> simp [Except.map, bind, Except.bind, pure, Except.pure, h]
    rw [List.mapM_cons, hmap, ← ih, List.filterMap_cons]
    cases hg : g x with
    | none =>
      rw [hnone x (by simp) hg]
      cases (xs.filterMap g).mapM f <;> rfl
    | some y => rw [List.mapM_cons, hmap, hsome x (by simp) y hg]

theorem mapM_ok {α β ε : Type} {f : α → Except ε β} {g : α → β} {xs : List α}
    (h : ∀ x ∈ xs, f x = .ok (g x)) : xs.mapM f = .ok (xs.map g) := by
  induction xs with
  | nil => rfl
  | cons x xs ih =>
    rw [List.mapM_cons, h x (by simp), ih fun y hy => h y (by simp [hy])]
    rfl

/-- A list written item by item, given what is known of each. -/
theorem mapM_eq_ok {α β ε : Type} [Inhabited β] {f : α → Except ε β} {xs : List α}
    {P : α → β → Prop} (h : ∀ x ∈ xs, ∃ b, f x = .ok b ∧ P x b) :
    ∃ g : α → β, xs.mapM f = .ok (xs.map g) ∧ ∀ x ∈ xs, P x (g x) := by
  refine ⟨fun x => (f x).toOption.getD default, mapM_ok ?_, ?_⟩
  · intro x hx
    obtain ⟨b, hb, -⟩ := h x hx
    rw [hb]
    rfl
  · intro x hx
    obtain ⟨b, hb, hP⟩ := h x hx
    simpa [hb, Except.toOption] using hP

/-- The place of a kind in the order of a dialect. -/
def Dialect.place (d : Dialect) (kind : Kind) : Nat := (d.rank? kind).getD 0

/-- Items whose kinds have a place in the order are sorted by it. -/
theorem Writer.sorted_eq {α : Type} (w : Writer) (kind : α → Kind) {items : List α}
    (h : ∀ a ∈ items, (w.dialect.rank? (kind a)).isSome) :
    w.sorted kind items = .ok (items.mergeSort fun a b =>
      decide (w.dialect.place (kind a) ≤ w.dialect.place (kind b))) := by
  have hranked : items.mapM (fun a => do return (← w.rank (kind a), a) : α → Except WriteError _) =
      .ok (items.map fun a => (w.dialect.place (kind a), a)) := by
    refine mapM_ok fun a ha => ?_
    obtain ⟨r, hr⟩ := Option.isSome_iff_exists.mp (h a ha)
    rw [rank, Dialect.place, hr]
    rfl
  rw [sorted, hranked]
  refine congrArg Except.ok ?_
  rw [← List.map_mergeSort (r := fun a b => decide (w.dialect.place (kind a) ≤
    w.dialect.place (kind b))) fun a _ b _ => rfl, List.map_map]
  exact List.map_id _

/-- A list sorted by rank: the items of the first, none before one of a lower rank, and those of one
rank as they came. -/
structure StablySorted {α : Type} (rank : α → Nat) (xs ys : List α) : Prop where
  perm : ys.Perm xs
  sorted : ys.Pairwise fun a b => rank a ≤ rank b
  stable : ∀ r, ys.filter (rank · = r) = xs.filter (rank · = r)

theorem stablySorted_mergeSort {α : Type} (rank : α → Nat) (xs : List α) :
    StablySorted rank xs (xs.mergeSort fun a b => decide (rank a ≤ rank b)) := by
  have htrans : ∀ a b c : α, decide (rank a ≤ rank b) → decide (rank b ≤ rank c) →
      decide (rank a ≤ rank c) := by
    intro a b c hab hbc
    rw [decide_eq_true_eq] at *
    omega
  have htotal : ∀ a b : α, decide (rank a ≤ rank b) || decide (rank b ≤ rank a) := by
    intro a b
    rw [Bool.or_eq_true, decide_eq_true_eq, decide_eq_true_eq]
    omega
  have hperm := List.mergeSort_perm xs fun a b => decide (rank a ≤ rank b)
  refine ⟨hperm, (List.pairwise_mergeSort htrans htotal xs).imp of_decide_eq_true, fun r => ?_⟩
  -- The items of one rank are sorted as they stand, so sorting keeps them as a sublist.
  have hrank : (xs.filter (rank · = r)).Pairwise fun a b => decide (rank a ≤ rank b) := by
    refine List.pairwise_filter.mpr (List.pairwise_of_forall fun a b ha hb => decide_eq_true ?_)
    have ha : rank a = r := of_decide_eq_true ha
    have hb : rank b = r := of_decide_eq_true hb
    omega
  have hsub := (List.sublist_mergeSort htrans htotal hrank List.filter_sublist).filter (rank · = r)
  simp only [List.filter_filter, Bool.and_self] at hsub
  exact (hsub.eq_of_length (hperm.filter _).length_eq.symm).symm

namespace Target

/-- The writer for a target. -/
def writer (t : Target) (o : WriteOptions) : Writer := { dialect := t.dialect, options := o }

variable {t : Target} {o : WriteOptions}

theorem ofDialect_eq (t : Target) (o : WriteOptions) :
    Writer.ofDialect t.dialect o = .ok (t.writer o) := by
  cases t <;> rfl

/-- A node of a kind that is written, and needs no last touch. -/
theorem write_eq {kind : Kind} {form : Layout → Written} (layout : Layout)
    (hkind : t.dialect.treatment? kind = some (.write layout)) (hform : form layout = .ok s)
    (hs : Tidy s) : (t.writer o).write kind form = .ok s := by
  have hwrite : (t.writer o).write kind form = (form layout).map Text.collapse := by
    rw [Writer.write, show (t.writer o).dialect = t.dialect from rfl, hkind]
    rfl
  rw [hwrite, hform]
  exact congrArg Except.ok hs.collapsed

end Target

end SchemaScript
