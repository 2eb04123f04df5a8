import Mathlib.Data.List.Basic
import SchemaScript.Proofs.Value.Acceptance

/-!
# The words in a value

A value or an expression read from some tokens holds the texts of these tokens, each once and in
their order. Digits behind an operand are the one exception: they are held as a sign and a number.

* `Term.flatten`, `Expression.flatten` — the texts that a term or an expression holds.
* `Trail`, `Trail.entries` — what words tell of the next one, and the texts that words stand for.
* `Derives.held` — what the grammar derives from words holds the texts that they stand for.
* `flatten_read` — so does what the readers give.
-/

set_option autoImplicit false

namespace SchemaScript

open Reader

/-! ## The texts that a term holds -/

namespace Term

mutual

/-- The texts that a term holds, in a row. -/
def flatten : Term → List String
  | .literal text => [text]
  | .call function args => function :: "(" :: (flattenArgs args ++ [")"])
  | .expression terms => flattenAll terms

/-- The texts of arguments, with commas between them. -/
def flattenArgs : List Term → List String
  | [] => []
  | [t] => t.flatten
  | t :: ts => t.flatten ++ "," :: flattenArgs ts

/-- The texts of the terms of an expression. -/
def flattenAll : List Term → List String
  | [] => []
  | t :: ts => t.flatten ++ flattenAll ts

end

/-- The texts of terms that each stand behind a comma. -/
def flattenMore (ts : List Term) : List String := ts.flatMap fun t => "," :: t.flatten

theorem flattenAll_append (ts us : List Term) :
    flattenAll (ts ++ us) = flattenAll ts ++ flattenAll us := by
  induction ts with
  | nil => simp [flattenAll]
  | cons t ts ih => rw [List.cons_append, flattenAll, flattenAll, ih, List.append_assoc]

theorem flattenAll_literal (text : String) (ts : List Term) :
    flattenAll (.literal text :: ts) = text :: flattenAll ts := by
  rw [flattenAll, flatten, List.singleton_append]

theorem flattenAll_singleton (t : Term) : flattenAll [t] = t.flatten := by
  rw [flattenAll, flattenAll, List.append_nil]

theorem flattenMore_cons (t : Term) (ts : List Term) :
    flattenMore (t :: ts) = "," :: (t.flatten ++ flattenMore ts) := by
  rw [flattenMore, List.flatMap_cons, List.cons_append]
  rfl

theorem flattenArgs_cons (t : Term) (ts : List Term) :
    flattenArgs (t :: ts) = t.flatten ++ flattenMore ts := by
  induction ts generalizing t with
  | nil => simp [flattenArgs, flattenMore]
  | cons u ts ih => rw [flattenArgs, ih u, flattenMore_cons]; simp

theorem flattenAll_intersperse (t : Term) (ts : List Term) :
    flattenAll ((t :: ts).intersperse (.literal ",")) = t.flatten ++ flattenMore ts := by
  induction ts generalizing t with
  | nil => simp [flattenAll, flattenMore]
  | cons u ts ih =>
    rw [List.intersperse_cons_cons, flattenAll, flattenAll_literal, ih u, flattenMore_cons]

end Term

/-- The texts that an expression holds. -/
def Expression.flatten (terms : Expression) : List String := Term.flattenAll terms

/-! ## The texts that words stand for -/

/-- The sign and the digits of a number behind an operand: without a minus sign it is added. -/
def signAndDigits (digits : String) : List String :=
  match digits.toList with
  | '-' :: rest => ["-", String.ofList rest]
  | _ => ["+", digits]

theorem flattenAll_signed (digits : String) :
    Term.flattenAll (Rules.signed digits) = signAndDigits digits := by
  by_cases hminus : ∃ rest, digits.toList = '-' :: rest
  · obtain ⟨rest, hrest⟩ := hminus
    have hterms : Rules.signed digits = [.literal "-", .literal (String.ofList rest)] := by
      rw [Rules.signed, hrest]
      rfl
    have hwords : signAndDigits digits = ["-", String.ofList rest] := by
      rw [signAndDigits, hrest]
      rfl
    rw [hterms, hwords]
    rfl
  · have hterms : Rules.signed digits = [.literal "+", .literal digits] := by
      unfold Rules.signed
      split
      · exact absurd ⟨_, ‹_›⟩ hminus
      · rfl
    have hwords : signAndDigits digits = ["+", digits] := by
      unfold signAndDigits
      split
      · exact absurd ⟨_, ‹_›⟩ hminus
      · rfl
    rw [hterms, hwords]
    rfl

/-- Neither a parenthesis nor a part of an operand. -/
def TokenKind.joins (kind : TokenKind) : Bool :=
  kind ≠ .lparen && kind ≠ .rparen && !kind.isName && !kind.isConstant

theorem TokenKind.joins_of_isOperator {kind : TokenKind} (h : kind.isOperator) : kind.joins := by
  cases kind <;> first | rfl | cases h

theorem TokenKind.joins_of_isConjunction {kind : TokenKind} (h : kind.isConjunction) :
    kind.joins := by
  rcases TokenKind.isConjunction_iff.mp h with rfl | rfl <;> rfl

/-- What the words before tell of the next one. -/
structure Trail where
  /-- The last word is a name, so that a parenthesis opens a call. -/
  name : Bool
  /-- The last word ends an operand. -/
  operand : Bool
  /-- The parentheses that are open, the innermost first: whether each is that of a call. -/
  calls : List Bool
  deriving DecidableEq, Repr

namespace Trail

/-- Before the first word. -/
def start : Trail := ⟨false, false, []⟩

/-- Behind one more word. A name, a constant, and the parenthesis that closes a call end an
operand. -/
def after (s : Trail) (w : Word) : Trail :=
  match w.kind with
  | .lparen => ⟨false, false, s.name :: s.calls⟩
  | .rparen => ⟨false, s.calls.headD false, s.calls.tail⟩
  | kind => ⟨kind.isName, kind.isName || kind.isConstant, s.calls⟩

/-- Behind more words. -/
def run (s : Trail) (ws : List Word) : Trail := ws.foldl after s

/-- The texts that a word stands for: its own, or a sign and digits if digits stand behind an
operand. -/
def entry (s : Trail) (w : Word) : List String :=
  if w.kind = .digits ∧ s.operand then signAndDigits w.value else [w.value]

/-- The texts that words stand for. -/
def entries (s : Trail) : List Word → List String
  | [] => []
  | w :: ws => s.entry w ++ (s.after w).entries ws

variable {s : Trail} {w l r : Word} {us vs ws : List Word} {a b : List String}

theorem entries_append : s.entries (us ++ vs) = s.entries us ++ (s.run us).entries vs := by
  induction us generalizing s with
  | nil => rfl
  | cons u us ih => rw [List.cons_append, entries, entries, ih, List.append_assoc]; rfl

theorem run_append : s.run (us ++ vs) = (s.run us).run vs := List.foldl_append

theorem run_cons : s.run (w :: ws) = (s.after w).run ws := rfl

theorem after_lparen (h : w.kind = .lparen) : s.after w = ⟨false, false, s.name :: s.calls⟩ := by
  simp only [after, h]

theorem after_rparen (h : w.kind = .rparen) :
    s.after w = ⟨false, s.calls.headD false, s.calls.tail⟩ := by
  simp only [after, h]

theorem after_other (hl : w.kind ≠ .lparen) (hr : w.kind ≠ .rparen) :
    s.after w = ⟨w.kind.isName, w.kind.isName || w.kind.isConstant, s.calls⟩ := by
  unfold after
  split
  · exact absurd ‹_› hl
  · exact absurd ‹_› hr
  · rfl

theorem entry_of_ne (h : w.kind ≠ .digits) : s.entry w = [w.value] := if_neg fun hw => h hw.1

theorem entry_first (h : s.operand = false) : s.entry w = [w.value] :=
  if_neg fun hw => by simp [h] at hw

theorem after_joins (h : w.kind.joins) : s.after w = ⟨false, false, s.calls⟩ := by
  simp only [TokenKind.joins, Bool.and_eq_true, decide_eq_true_eq, Bool.not_eq_eq_eq_not,
    Bool.not_true] at h
  obtain ⟨⟨⟨hl, hr⟩, hname⟩, hconstant⟩ := h
  rw [after_other hl hr, hname, hconstant]
  rfl

theorem entry_joins (h : w.kind.joins) : s.entry w = [w.value] :=
  entry_of_ne fun hw => by rw [hw] at h; cases h

/-- A word that is an operand on its own, or the name of a call. -/
theorem after_operand (h : w.kind.isConstant ∨ w.kind.isName) :
    s.after w = ⟨w.kind.isName, true, s.calls⟩ := by
  have hl : w.kind ≠ .lparen := by
    intro hw
    rw [hw] at h
    simp [TokenKind.isConstant, TokenKind.isName] at h
  have hr : w.kind ≠ .rparen := by
    intro hw
    rw [hw] at h
    simp [TokenKind.isConstant, TokenKind.isName] at h
  rw [after_other hl hr]
  rcases h with h | h <;> simp [h]

/-- Behind parentheses an operand ends if a name stands before them. -/
theorem run_parenthesized (hl : l.kind = .lparen) (hr : r.kind = .rparen)
    (h : ((s.after l).run ws).calls = (s.after l).calls) :
    s.run (l :: (ws ++ [r])) = ⟨false, s.name, s.calls⟩ := by
  have hrun : s.run (l :: (ws ++ [r])) = ((s.after l).run ws).after r := by
    rw [run_cons, run_append]
    rfl
  rw [hrun, after_rparen hr, h, after_lparen hl]
  rfl

/-- Words stand for some texts, and close every parenthesis that they open. -/
structure Reads (s : Trail) (ws : List Word) (texts : List String) : Prop where
  entries : s.entries ws = texts
  calls : (s.run ws).calls = s.calls

namespace Reads

theorem nil : s.Reads [] [] := ⟨rfl, rfl⟩

theorem append (hu : s.Reads us a) (hv : (s.run us).Reads vs b) : s.Reads (us ++ vs) (a ++ b) where
  entries := by rw [entries_append, hu.entries, hv.entries]
  calls := by rw [run_append, hv.calls, hu.calls]

/-- A word that is no part of an operand, in front of others. -/
theorem cons (hw : w.kind.joins) (h : (s.after w).Reads ws a) :
    s.Reads (w :: ws) (w.value :: a) where
  entries := by rw [Trail.entries, entry_joins hw, h.entries, List.singleton_append]
  calls := by rw [run_cons, h.calls, after_joins hw]

/-- An operand of one word, or the name of a call. -/
theorem operand (hs : s.operand = false) (hw : w.kind.isConstant ∨ w.kind.isName) :
    s.Reads [w] [w.value] where
  entries := by rw [Trail.entries, entry_first hs]; rfl
  calls := by rw [run_cons, after_operand hw]; rfl

/-- Parentheses around words. -/
theorem parenthesized (hl : l.kind = .lparen) (hr : r.kind = .rparen)
    (h : (s.after l).Reads ws a) : s.Reads (l :: (ws ++ [r])) (l.value :: (a ++ [r.value])) where
  entries := by
    rw [Trail.entries, entry_of_ne (by simp [hl]), entries_append, h.entries, Trail.entries,
      entry_of_ne (by simp [hr])]
    rfl
  calls := by rw [run_parenthesized hl hr h.calls]

end Reads

end Trail

/-! ## What is derived holds what its words stand for -/

/-- A sign has its own text. -/
def Word.Spelled (w : Word) : Prop := ∀ sign, w.kind.sign? = some sign → w.value = sign

theorem Word.Lexical.spelled {w : Word} (hw : w.Lexical) : w.Spelled := by
  intro sign hsign
  cases hw with
  | sign hv => rw [hv] at hsign; exact Option.some.inj hsign
  | word _ hk =>
    rw [hk] at hsign
    unfold Scan.wordKind at hsign
    split at hsign <;> cases hsign
  | digits _ hk | singleQuoted _ _ hk | doubleQuoted _ _ _ hk | placeholder _ hk
    | inclusion _ _ hk => rw [hk] at hsign; cases hsign

/-- A name is no sign. -/
theorem Word.spelled_of_isName {w : Word} (hw : w.kind.isName) : w.Spelled := by
  intro sign hsign
  unfold TokenKind.isName at hw
  split at hw
  · rename_i hk; rw [hk] at hsign; cases hsign
  · rename_i hk; rw [hk] at hsign; cases hsign
  · cases hw

namespace Word.Spelled

variable {w : Word} (hw : w.Spelled)
include hw

theorem lparen (hk : w.kind = .lparen) : w.value = "(" := hw _ (by rw [hk]; rfl)

theorem rparen (hk : w.kind = .rparen) : w.value = ")" := hw _ (by rw [hk]; rfl)

theorem comma (hk : w.kind = .comma) : w.value = "," := hw _ (by rw [hk]; rfl)

end Word.Spelled

namespace Phrase

/-- The texts that the terms of a phrase hold. -/
def texts : Phrase → List Term → List String
  | .moreValues, ts | .moreTerms, ts => Term.flattenMore ts
  | .term, ts | .value, ts | .tail, ts | .primary, ts | .conjunctions, ts | .condition, ts =>
    Term.flattenAll ts

/-- Where a phrase stands: a tail behind an operand, and what opens with an operand not. -/
def Stands : Phrase → Trail → Prop
  | .tail, s => s.operand = true
  | .moreValues, _ | .moreTerms, _ | .conjunctions, _ => True
  | _, s => s.operand = false

/-- Where a phrase ends: a term ends an operand. -/
def Leaves : Phrase → Trail → Prop
  | .term, s => s.operand = true
  | _, _ => True

/-- The words of a phrase stand for the texts that its terms hold. -/
def Held (p : Phrase) (ws : List Word) (ts : List Term) : Prop :=
  ∀ s, p.Stands s → s.Reads ws (p.texts ts) ∧ p.Leaves (s.run ws)

variable {ws : List Word} {t : Term}

theorem Held.term (h : Phrase.term.Held ws [t]) (s : Trail) (hs : s.operand = false) :
    s.Reads ws t.flatten :=
  Term.flattenAll_singleton t ▸ (h s hs).1

theorem Held.value (h : Phrase.value.Held ws [t]) (s : Trail) (hs : s.operand = false) :
    s.Reads ws t.flatten :=
  Term.flattenAll_singleton t ▸ (h s hs).1

end Phrase

namespace Derives

open Trail

variable {w l r : Word} {us vs ws : List Word} {ts rs : List Term} {t : Term}

theorem held_operand (hw : w.kind.isConstant ∨ w.kind.isName) :
    Phrase.term.Held [w] [.literal w.value] := by
  intro s hs
  refine ⟨?_, ?_⟩
  · have htexts : Phrase.term.texts [.literal w.value] = [w.value] := Term.flattenAll_literal _ _
    rw [htexts]
    exact .operand hs hw
  · have hrun : s.run [w] = s.after w := rfl
    rw [hrun, after_operand hw]
    rfl

/-- A call, given the words between its parentheses. -/
theorem held_call (hw : w.kind.isName) (hl : l.kind = .lparen) (hr : r.kind = .rparen)
    (hlv : l.Spelled) (hrv : r.Spelled)
    (hargs : ∀ s : Trail, s.operand = false → s.Reads ws (Term.flattenArgs ts)) :
    Phrase.term.Held (w :: l :: (ws ++ [r])) [.call w.value ts] := by
  intro s hs
  have hinner := hargs ((s.after w).after l) (by rw [after_lparen hl])
  have hrun := run_parenthesized hl hr hinner.calls
  refine ⟨?_, ?_⟩
  · have htexts : Phrase.term.texts [.call w.value ts] =
        [w.value] ++ l.value :: (Term.flattenArgs ts ++ [r.value]) := by
      rw [hlv.lparen hl, hrv.rparen hr]
      simp [Phrase.texts, Term.flattenAll, Term.flatten]
    rw [htexts]
    exact (Reads.operand hs (.inr hw)).append (hinner.parenthesized hl hr)
  · have hname : (s.after w).name = true := by rw [after_operand (.inr hw)]; exact hw
    rw [run_cons, hrun, hname]
    rfl

/-- What opens with an operand, in parentheses. -/
theorem reads_parenthesized {texts : List String} (hl : l.kind = .lparen) (hr : r.kind = .rparen)
    (hlv : l.Spelled) (hrv : r.Spelled)
    (hinner : ∀ s : Trail, s.operand = false → s.Reads ws texts) (s : Trail) :
    s.Reads (l :: (ws ++ [r])) ("(" :: (texts ++ [")"])) := by
  have hread := (hinner (s.after l) (by rw [after_lparen hl])).parenthesized hl hr
  rwa [hlv.lparen hl, hrv.rparen hr] at hread

theorem reads_group (hl : l.kind = .lparen) (hr : r.kind = .rparen) (hlv : l.Spelled)
    (hrv : r.Spelled) (h : Phrase.condition.Held ws ts) (s : Trail) :
    s.Reads (l :: (ws ++ [r])) ("(" :: (Term.flattenAll ts ++ [")"])) :=
  reads_parenthesized hl hr hlv hrv (fun s hs => (h s hs).1) s

/-- Items that each stand behind a comma. -/
theorem reads_more {c : Word} (hc : c.kind = .comma) (hcv : c.Spelled)
    (hfirst : ∀ s : Trail, s.operand = false → s.Reads us t.flatten)
    (hothers : ∀ s : Trail, s.Reads vs (Term.flattenMore ts)) (s : Trail) :
    s.Reads (c :: (us ++ vs)) (Term.flattenMore (t :: ts)) := by
  have hjoins : c.kind.joins := by rw [hc]; rfl
  have hus := hfirst (s.after c) (by rw [after_joins hjoins])
  have hread := Reads.cons hjoins (hus.append (hothers _))
  rwa [hcv.comma hc, ← Term.flattenMore_cons] at hread

/-- An operand behind a word that is none. -/
theorem reads_operand (hw : w.kind.joins) (h : Phrase.term.Held ws ts) (s : Trail) :
    s.Reads (w :: ws) (w.value :: Term.flattenAll ts) :=
  .cons hw (h (s.after w) (by rw [after_joins hw]; rfl)).1

/-- Words that are no parts of an operand. -/
theorem reads_words (hws : ∀ w ∈ ws, w.kind.joins) (s : Trail) :
    s.Reads ws (Term.flattenAll (ws.map fun w => .literal w.value)) := by
  induction ws generalizing s with
  | nil => exact .nil
  | cons w ws ih =>
    rw [List.map_cons, Term.flattenAll_literal]
    exact .cons (hws w (by simp)) (ih (fun x hx => hws x (by simp [hx])) _)

/-- **What the grammar derives from words holds the texts that they stand for.** -/
theorem held {p : Phrase} (h : Derives p ws ts) (hws : ∀ w ∈ ws, w.Spelled) : p.Held ws ts := by
  induction h with
  | constant hw => exact held_operand (.inl hw)
  | name hw => exact held_operand (.inr hw)
  | callEmpty hw hl hr =>
    change Phrase.term.Held (_ :: _ :: ([] ++ [_])) _
    exact held_call hw hl hr (hws _ (by simp)) (hws _ (by simp)) fun s _ => .nil
  | call hw hl hr _ _ ihfirst ihothers =>
    simp only [List.forall_mem_cons, List.forall_mem_append] at hws
    obtain ⟨-, hlv, hus, hvs, hrv, -⟩ := hws
    rw [← List.append_assoc]
    refine held_call hw hl hr hlv hrv fun s hs => ?_
    rw [Term.flattenArgs_cons]
    exact ((ihfirst hus).value s hs).append (ihothers hvs _ trivial).1
  | null hw =>
    intro s _
    exact ⟨reads_words (List.forall_mem_singleton.mpr (by rw [hw]; rfl)) s, trivial⟩
  | single _ ih =>
    intro s hs
    exact ⟨(ih hws s hs).1, trivial⟩
  | expression _ ih =>
    intro s hs
    refine ⟨?_, trivial⟩
    rw [Phrase.texts, Term.flattenAll_singleton, Term.flatten]
    exact (ih hws s hs).1
  | noValue | noTerm | done =>
    intro s _
    exact ⟨.nil, trivial⟩
  | nextValue hc _ _ ihfirst ihothers =>
    simp only [List.forall_mem_cons, List.forall_mem_append] at hws
    obtain ⟨hcv, hus, hvs⟩ := hws
    intro s _
    exact ⟨reads_more hc hcv (ihfirst hus).value (fun s => (ihothers hvs s trivial).1) s, trivial⟩
  | nextTerm hc _ _ ihfirst ihothers =>
    simp only [List.forall_mem_cons, List.forall_mem_append] at hws
    obtain ⟨hcv, hus, hvs⟩ := hws
    intro s _
    exact ⟨reads_more hc hcv (ihfirst hus).term (fun s => (ihothers hvs s trivial).1) s, trivial⟩
  | operator hw _ ih =>
    rw [List.forall_mem_cons] at hws
    intro s _
    refine ⟨?_, trivial⟩
    rw [Phrase.texts, Term.flattenAll_literal]
    exact reads_operand (TokenKind.joins_of_isOperator hw) (ih hws.2) s
  | operatorGroup hw hl hr _ ih =>
    simp only [List.forall_mem_cons, List.forall_mem_append] at hws
    obtain ⟨-, hlv, hcondition, hrv, -⟩ := hws
    intro s _
    refine ⟨?_, trivial⟩
    simp only [Phrase.texts, Term.flattenAll_literal, Term.flattenAll_append]
    exact .cons (TokenKind.joins_of_isOperator hw) (reads_group hl hr hlv hrv (ih hcondition) _)
  | signed hw =>
    intro s hs
    refine ⟨⟨?_, ?_⟩, trivial⟩
    · rw [Phrase.texts, flattenAll_signed, entries, entry, if_pos ⟨hw, hs⟩, entries, List.append_nil]
    · rw [run_cons, after_operand (.inl (by rw [hw]; rfl))]
      rfl
  | between hw ha _ _ ihlow ihhigh =>
    simp only [List.forall_mem_cons, List.forall_mem_append] at hws
    obtain ⟨-, hus, -, hvs⟩ := hws
    intro s _
    refine ⟨?_, trivial⟩
    have hlow := reads_operand (by rw [hw]; rfl) (ihlow hus) s
    have hboth := hlow.append (reads_operand (by rw [ha]; rfl) (ihhigh hvs) _)
    rw [Phrase.texts, Term.flattenAll_literal, Term.flattenAll, Term.flattenAll_literal]
    rwa [Term.flattenAll_singleton, List.cons_append] at hboth
  | among hw hl hr _ _ ihfirst ihothers =>
    simp only [List.forall_mem_cons, List.forall_mem_append] at hws
    obtain ⟨-, hlv, hus, hvs, hrv, -⟩ := hws
    intro s _
    refine ⟨?_, trivial⟩
    simp only [Phrase.texts, Term.flattenAll_literal, Term.flattenAll_append,
      Term.flattenAll_intersperse]
    rw [← List.append_assoc]
    refine .cons (by rw [hw]; rfl) (reads_parenthesized hl hr hlv hrv (fun s hs => ?_) _)
    exact ((ihfirst hus).term s hs).append (ihothers hvs _ trivial).1
  | isNull hw hn =>
    intro s _
    exact ⟨reads_words (by simp [hw, hn]; decide) s, trivial⟩
  | isNotNull hw hm hn =>
    intro s _
    exact ⟨reads_words (by simp [hw, hm, hn]; decide) s, trivial⟩
  | group hl hr _ ih =>
    simp only [List.forall_mem_cons, List.forall_mem_append] at hws
    obtain ⟨hlv, hcondition, hrv, -⟩ := hws
    intro s _
    refine ⟨?_, trivial⟩
    simp only [Phrase.texts, Term.flattenAll_literal, Term.flattenAll_append]
    exact reads_group hl hr hlv hrv (ih hcondition) s
  | groupOperator hl hr hw _ _ ih ihoperand =>
    simp only [List.forall_mem_cons, List.forall_mem_append] at hws
    obtain ⟨hlv, hcondition, hrv, -, hoperand⟩ := hws
    intro s _
    refine ⟨?_, trivial⟩
    have hgroup := reads_group hl hr hlv hrv (ih hcondition) s
    have hboth := hgroup.append
      (reads_operand (TokenKind.joins_of_isOperator hw) (ihoperand hoperand) _)
    simp only [Phrase.texts, Term.flattenAll_literal, Term.flattenAll_append]
    simpa using hboth
  | comparison _ _ ihfirst ihrest =>
    rw [List.forall_mem_append] at hws
    intro s hs
    obtain ⟨hfirst, hend⟩ := ihfirst hws.1 s hs
    refine ⟨?_, trivial⟩
    rw [Phrase.texts, Term.flattenAll_append]
    exact hfirst.append (ihrest hws.2 _ hend).1
  | joined hw _ _ ihfirst ihothers =>
    simp only [List.forall_mem_cons, List.forall_mem_append] at hws
    obtain ⟨-, hus, hvs⟩ := hws
    have hjoins := TokenKind.joins_of_isConjunction hw
    intro s _
    refine ⟨?_, trivial⟩
    have hfirst := (ihfirst hus (s.after _) (by rw [after_joins hjoins]; rfl)).1
    rw [Phrase.texts, Term.flattenAll_literal, Term.flattenAll_append]
    exact .cons hjoins (hfirst.append (ihothers hvs _ trivial).1)
  | condition _ _ ihfirst ihothers =>
    rw [List.forall_mem_append] at hws
    intro s hs
    refine ⟨?_, trivial⟩
    rw [Phrase.texts, Term.flattenAll_append]
    exact (ihfirst hws.1 s hs).1.append (ihothers hws.2 _ trivial).1

end Derives

/-! ## What is read holds what its tokens stand for -/

/-- The texts that tokens stand for, from the first one on. -/
def textsOf (ts : List Token) : List String := Trail.start.entries (ts.map Token.word)

/-- The tokens of a text have the texts of their signs. -/
theorem spelled_of_mem_tokenize {text : String} {t : Token} (h : t ∈ (tokenize text).1) :
    t.word.Spelled :=
  (Scan.lexical_of_mem_words (List.mem_map_of_mem h)).spelled

/-- What a rule gives holds the texts of the words it takes, if it derives them from the grammar. -/
theorem Reader.Consumes.flatten {α : Type} {r : Reader α} {p : Phrase} {f : α → List Term}
    (hr : Consumes Word.Spelled r fun ws a => Derives p ws (f a)) (hp : p.Stands .start)
    {ts rest : List Token} {a : α} (hts : ∀ t ∈ ts, t.word.Spelled) (hrun : r ts = .ok (a, rest)) :
    ∃ taken, ts = taken ++ rest ∧ p.texts (f a) = textsOf taken := by
  obtain ⟨taken, rfl, hderives, hspelled⟩ := hr.taken ts a rest hts trivial hrun
  exact ⟨taken, rfl, (hderives.held hspelled _ hp).1.entries.symm⟩

/-- **Reading loses and invents nothing.** An expression, a value, a term or a call holds the texts
of the tokens that it was read from, in their order, where digits behind an operand count as a sign
and a number. The tokens are spelled as those of a text are: a sign has its own text. -/
theorem flatten_read :
    (∀ text, ∀ t ∈ (tokenize text).1, t.word.Spelled) ∧
    ∀ ts rest : List Token, (∀ t ∈ ts, t.word.Spelled) →
      (∀ terms, readExpression ts = .ok (terms, rest) →
        ∃ taken, ts = taken ++ rest ∧ Expression.flatten terms = textsOf taken) ∧
      (∀ value, readValue ts = .ok (value, rest) →
        ∃ taken, ts = taken ++ rest ∧ value.flatten = textsOf taken) ∧
      (∀ depth term, Rules.term (.ofDepth depth) ts = .ok (term, rest) →
        ∃ taken, ts = taken ++ rest ∧ term.flatten = textsOf taken) ∧
      (∀ depth name call, name.kind.isName →
        Rules.call (.ofDepth depth) name.value ts = .ok (call, rest) →
        ∃ taken, ts = taken ++ rest ∧ call.flatten = textsOf (name :: taken)) := by
  refine ⟨fun text t ht => spelled_of_mem_tokenize ht, fun ts rest hts => ⟨?_, ?_, ?_, ?_⟩⟩
  · intro terms hrun
    exact Consumes.flatten (f := id) Derives.of_readExpression rfl hts hrun
  · intro value hrun
    obtain ⟨taken, htaken, hflat⟩ :=
      Consumes.flatten (f := fun t => [t]) Derives.of_readValue rfl hts hrun
    exact ⟨taken, htaken, (Term.flattenAll_singleton value).symm.trans hflat⟩
  · intro depth term hrun
    obtain ⟨taken, htaken, hflat⟩ := Consumes.flatten (f := fun t => [t])
      (Derives.of_term (Derives.sound_ofDepth depth)) rfl hts hrun
    exact ⟨taken, htaken, (Term.flattenAll_singleton term).symm.trans hflat⟩
  · intro depth name call hname hrun
    obtain ⟨taken, rfl, hderives, hspelled⟩ :=
      (Derives.of_call (Derives.sound_ofDepth depth) name.value).taken ts call rest hts trivial hrun
    refine ⟨taken, rfl, ?_⟩
    have hwords : ∀ w ∈ name.word :: taken.map Token.word, w.Spelled :=
      List.forall_mem_cons.mpr ⟨Word.spelled_of_isName hname, hspelled⟩
    have hheld := (hderives name.word hname rfl).held hwords .start rfl
    exact (Term.flattenAll_singleton call).symm.trans hheld.1.entries.symm

/-- Digits behind a name, behind a call and behind `BETWEEN`, in parentheses and out of them. -/
theorem flatten_read_digits :
    let ts := (tokenize "(f(a 1) -2 OR b BETWEEN 3 AND -4) = g ( ) , 5").1
    let value : Term := .expression
      [.literal "(", .call "f" [.expression [.literal "a", .literal "+", .literal "1"]],
        .literal "-", .literal "2", .literal "OR", .literal "b", .literal "BETWEEN", .literal "3",
        .literal "AND", .literal "-4", .literal ")", .literal "=", .call "g" []]
    (∀ t ∈ ts, t.word.Spelled) ∧ readValue ts = .ok (value, ts.drop 18) ∧
      ∃ taken, ts = taken ++ ts.drop 18 ∧ value.flatten = textsOf taken := by
  intro ts value
  have hspelled := flatten_read.1 "(f(a 1) -2 OR b BETWEEN 3 AND -4) = g ( ) , 5"
  have hread : readValue ts = .ok (value, ts.drop 18) := by decide +kernel
  exact ⟨hspelled, hread, (flatten_read.2 ts (ts.drop 18) hspelled).2.1 value hread⟩

end SchemaScript
