import SchemaScript.Proofs.Token.Reading
import SchemaScript.Value.Read

/-!
# The grammar of values and expressions

The rules of `Value/Read` as a relation between words and terms, and the proof that the readers
follow it in both directions.

* `Phrase`, `Derives` — the phrases of the grammar, and the words and terms that each derives.
* `Derives.of_condition`, `Derives.of_operand` — what the readers take is derived.
* `Derives.runsTo` — what is derived is read, if nothing behind it can extend it and the bound on
  nesting is no smaller than the number of words.
-/

set_option autoImplicit false

namespace SchemaScript

open Reader

/-- The phrases of the grammar. -/
inductive Phrase where
  | term
  | value
  /-- What follows the first value of a call: values, each behind a comma. -/
  | moreValues
  /-- What follows the first item of a list: terms, each behind a comma. -/
  | moreTerms
  | tail
  | primary
  | conjunctions
  | condition
  deriving DecidableEq, Repr

/-- The words and the terms that a phrase derives. A term or a value is a row of one. -/
inductive Derives : Phrase → List Word → List Term → Prop
  | constant {w : Word} (hw : w.kind.isConstant) : Derives .term [w] [.literal w.value]
  | name {w : Word} (hw : w.kind.isName) : Derives .term [w] [.literal w.value]
  | callEmpty {w l r : Word} (hw : w.kind.isName) (hl : l.kind = .lparen) (hr : r.kind = .rparen) :
      Derives .term [w, l, r] [.call w.value []]
  | call {w l r : Word} {us vs : List Word} {t : Term} {ts : List Term} (hw : w.kind.isName)
      (hl : l.kind = .lparen) (hr : r.kind = .rparen) (first : Derives .value us [t])
      (others : Derives .moreValues vs ts) :
      Derives .term (w :: l :: (us ++ (vs ++ [r]))) [.call w.value (t :: ts)]
  | null {w : Word} (hw : w.kind = .keyword .null) : Derives .value [w] [.literal w.value]
  | single {ws : List Word} {ts : List Term} (h : Derives .term ws ts) : Derives .value ws ts
  | expression {ws : List Word} {ts : List Term} (h : Derives .condition ws ts) :
      Derives .value ws [.expression ts]
  | noValue : Derives .moreValues [] []
  | nextValue {c : Word} {us vs : List Word} {t : Term} {ts : List Term} (hc : c.kind = .comma)
      (first : Derives .value us [t]) (others : Derives .moreValues vs ts) :
      Derives .moreValues (c :: (us ++ vs)) (t :: ts)
  | noTerm : Derives .moreTerms [] []
  | nextTerm {c : Word} {us vs : List Word} {t : Term} {ts : List Term} (hc : c.kind = .comma)
      (first : Derives .term us [t]) (others : Derives .moreTerms vs ts) :
      Derives .moreTerms (c :: (us ++ vs)) (t :: ts)
  | operator {w : Word} {ws : List Word} {ts : List Term} (hw : w.kind.isOperator)
      (h : Derives .term ws ts) : Derives .tail (w :: ws) (.literal w.value :: ts)
  | operatorGroup {w l r : Word} {ws : List Word} {ts : List Term} (hw : w.kind.isOperator)
      (hl : l.kind = .lparen) (hr : r.kind = .rparen) (h : Derives .condition ws ts) :
      Derives .tail (w :: l :: (ws ++ [r]))
        (.literal w.value :: .literal "(" :: (ts ++ [.literal ")"]))
  | signed {w : Word} (hw : w.kind = .digits) : Derives .tail [w] (Rules.signed w.value)
  | between {w a : Word} {us vs : List Word} {low high : Term} (hw : w.kind = .keyword .between)
      (ha : a.kind = .keyword .and) (hlow : Derives .term us [low]) (hhigh : Derives .term vs [high]) :
      Derives .tail (w :: (us ++ a :: vs)) [.literal w.value, low, .literal a.value, high]
  | among {w l r : Word} {us vs : List Word} {t : Term} {ts : List Term}
      (hw : w.kind = .keyword .in_) (hl : l.kind = .lparen) (hr : r.kind = .rparen)
      (first : Derives .term us [t]) (others : Derives .moreTerms vs ts) :
      Derives .tail (w :: l :: (us ++ (vs ++ [r])))
        (.literal w.value :: .literal "(" :: ((t :: ts).intersperse (.literal ",") ++ [.literal ")"]))
  | isNull {w n : Word} (hw : w.kind = .keyword .is) (hn : n.kind = .keyword .null) :
      Derives .tail [w, n] [.literal w.value, .literal n.value]
  | isNotNull {w m n : Word} (hw : w.kind = .keyword .is) (hm : m.kind = .keyword .not)
      (hn : n.kind = .keyword .null) :
      Derives .tail [w, m, n] [.literal w.value, .literal m.value, .literal n.value]
  | group {l r : Word} {ws : List Word} {ts : List Term} (hl : l.kind = .lparen)
      (hr : r.kind = .rparen) (h : Derives .condition ws ts) :
      Derives .primary (l :: (ws ++ [r])) (.literal "(" :: (ts ++ [.literal ")"]))
  | groupOperator {l r w : Word} {us vs : List Word} {ts rs : List Term} (hl : l.kind = .lparen)
      (hr : r.kind = .rparen) (hw : w.kind.isOperator) (h : Derives .condition us ts)
      (operand : Derives .term vs rs) :
      Derives .primary (l :: (us ++ r :: w :: vs))
        (.literal "(" :: (ts ++ .literal ")" :: .literal w.value :: rs))
  | comparison {us vs : List Word} {ts rs : List Term} (first : Derives .term us ts)
      (rest : Derives .tail vs rs) : Derives .primary (us ++ vs) (ts ++ rs)
  | done : Derives .conjunctions [] []
  | joined {w : Word} {us vs : List Word} {ts rs : List Term} (hw : w.kind.isConjunction)
      (first : Derives .primary us ts) (others : Derives .conjunctions vs rs) :
      Derives .conjunctions (w :: (us ++ vs)) (.literal w.value :: (ts ++ rs))
  | condition {us vs : List Word} {ts rs : List Term} (first : Derives .primary us ts)
      (others : Derives .conjunctions vs rs) : Derives .condition (us ++ vs) (ts ++ rs)

namespace Derives

theorem eq_singleton {p : Phrase} {ws : List Word} {ts : List Term} (h : Derives p ws ts)
    (hp : p = .term ∨ p = .value) : ∃ t, ts = [t] := by
  induction h with
  | constant | name | callEmpty | call | null | expression => exact ⟨_, rfl⟩
  | single _ ih => exact ih (.inl rfl)
  | _ => simp at hp

/-- The first word of a term is a constant or a name. -/
theorem head_term {ws : List Word} {ts : List Term} (h : Derives .term ws ts) :
    ∃ w us, ws = w :: us ∧ (w.kind.isConstant ∨ w.kind.isName) := by
  cases h with
  | constant hw => exact ⟨_, _, rfl, .inl hw⟩
  | name hw | callEmpty hw | call hw => exact ⟨_, _, rfl, .inr hw⟩

theorem head_tail {ws : List Word} {ts : List Term} (h : Derives .tail ws ts) :
    ∃ w us, ws = w :: us ∧ w.kind.startsTail := by
  cases h with
  | operator hw | operatorGroup hw =>
    refine ⟨_, _, rfl, ?_⟩
    unfold TokenKind.startsTail
    split <;> first | rfl | exact hw
  | signed hw | between hw | among hw | isNull hw | isNotNull hw =>
    exact ⟨_, _, rfl, by rw [hw]; rfl⟩

theorem head_conjunctions {ws : List Word} {ts : List Term} (h : Derives .conjunctions ws ts) :
    ws = [] ∨ ∃ w us, ws = w :: us ∧ w.kind.isConjunction := by
  cases h with
  | done => exact .inl rfl
  | joined hw => exact .inr ⟨_, _, rfl, hw⟩

end Derives

/-! ## What is read is derived -/

/-- The rules inside parentheses give what the grammar derives. -/
structure Rules.Sound (inner : Rules) : Prop where
  expression : ∀ L, Consumes L inner.expression (Derives .condition)
  value : ∀ L, Consumes L inner.value fun ws t => Derives .value ws [t]

namespace Derives

section Sound

variable {L : Word → Prop} {inner : Rules} (hs : inner.Sound)
include hs

theorem of_call (f : String) : Consumes L (Rules.call inner f) fun ws t =>
    ∀ w : Word, w.kind.isName → w.value = f → Derives .term (w :: ws) [t] := by
  refine .bind .discard_expect ?_
  rintro _ _ ⟨l, rfl, -, hl⟩
  refine .accept (fun r _ hr => .pure ?_) ?_
  · rintro w hw rfl
    exact .callEmpty hw hl hr
  · refine .bind (P := fun ws ts => ∃ us vs t rs, ws = us ++ vs ∧ ts = t :: rs ∧
      Derives .value us [t] ∧ Derives .moreValues vs rs) ?_ ?_
    · refine .commaSeparated (hs.value L) ?_ ?_
      · exact fun us t ht => ⟨us, [], t, [], by simp, rfl, ht, .noValue⟩
      · rintro us t c _ _ ht hc - ⟨vs, vs', t', rs, rfl, rfl, hv, hvs⟩
        exact ⟨us, c :: (vs ++ vs'), t, t' :: rs, rfl, rfl, ht, .nextValue hc hv hvs⟩
    · rintro _ _ ⟨us, vs, t, rs, rfl, rfl, hv, hvs⟩
      refine .bind .discard_expect ?_
      rintro _ _ ⟨r, rfl, -, hr⟩
      refine .pure ?_
      rintro w hw rfl
      simpa using Derives.call hw hl hr hv hvs

theorem of_term : Consumes L (Rules.term inner) fun ws t => Derives .term ws [t] := by
  refine .next fun t _ _ => ?_
  split
  · rename_i hk
    exact .pure (.constant hk)
  · split
    · rename_i hk
      refine .nextKind fun k _ => ?_
      split
      · exact .weaken ((of_call hs t.value).imp fun ws a h => h t.word hk rfl)
      · exact .pure (.name hk)
    · exact .reject

theorem of_group : Consumes L (Rules.group inner) fun ws ts => ∃ us r rs,
    ws = us ++ [r] ∧ r.kind = .rparen ∧ ts = .literal "(" :: (rs ++ [.literal ")"]) ∧
      Derives .condition us rs := by
  refine .bind (hs.expression L) fun us rs hrs => .bind .discard_expect ?_
  rintro _ _ ⟨r, rfl, -, hr⟩
  exact .pure ⟨us, r, rs, by simp, hr, rfl, hrs⟩

theorem of_continuation : Consumes L (Rules.continuation inner) (Derives .tail) := by
  refine .next fun t _ _ => ?_
  split
  · rename_i hk
    refine .accept (fun l _ hl => ?_) ?_
    · refine .bind (of_group hs) ?_
      rintro _ _ ⟨us, r, rs, rfl, hr, rfl, hrs⟩
      exact .pure (by simpa using Derives.operatorGroup (w := t.word) hk hl hr hrs)
    · refine .bind (of_term hs) fun us a ha => .pure ?_
      simpa using Derives.operator (w := t.word) hk ha
  · split
    · rename_i hk
      exact .pure (.signed hk)
    · rename_i hk
      refine .bind (of_term hs) fun us low hlow => .expect fun a _ ha => ?_
      refine .bind (of_term hs) fun vs high hhigh => .pure ?_
      simpa using Derives.between (w := t.word) (a := a.word) hk ha hlow hhigh
    · rename_i hk
      refine .bind (P := fun ws ts => ∃ l r us vs a rs, ws = l :: (us ++ (vs ++ [r])) ∧
        l.kind = .lparen ∧ r.kind = .rparen ∧ ts = a :: rs ∧ Derives .term us [a] ∧
        Derives .moreTerms vs rs) ?_ ?_
      · refine .parenthesized (P := fun ws ts => ∃ us vs a rs, ws = us ++ vs ∧ ts = a :: rs ∧
          Derives .term us [a] ∧ Derives .moreTerms vs rs) ?_ ?_
        · refine .commaSeparated (of_term hs) ?_ ?_
          · exact fun us a ha => ⟨us, [], a, [], by simp, rfl, ha, .noTerm⟩
          · rintro us a c _ _ ha hc - ⟨vs, vs', a', rs, rfl, rfl, hv, hvs⟩
            exact ⟨us, c :: (vs ++ vs'), a, a' :: rs, rfl, rfl, ha, .nextTerm hc hv hvs⟩
        · rintro l _ r _ hl hr ⟨us, vs, a, rs, rfl, rfl, ha, hrs⟩
          exact ⟨l, r, us, vs, a, rs, by simp, hl, hr, rfl, ha, hrs⟩
      · rintro _ _ ⟨l, r, us, vs, a, rs, rfl, hl, hr, rfl, ha, hrs⟩
        exact .pure (by simpa using Derives.among (w := t.word) hk hl hr ha hrs)
    · rename_i hk
      refine .nextKind fun k _ => ?_
      split
      · rename_i hnot
        subst hnot
        refine .next fun m _ hm => .expect fun n _ hn => .pure ?_
        exact .isNotNull hk (Option.some.inj hm) hn
      · exact .weaken (.expect fun n _ hn => .pure (.isNull hk hn))
    · exact .reject

theorem of_primary : Consumes L (Rules.primary inner) (Derives .primary) := by
  refine .accept (fun l _ hl => ?_) ?_
  · refine .bind (of_group hs) ?_
    rintro _ _ ⟨us, r, rs, rfl, hr, rfl, hrs⟩
    refine .nextKind fun k _ => ?_
    split
    · rename_i hop
      refine .next fun w _ hw => .bind (of_term hs) fun vs a ha => .pure ?_
      subst hw
      simpa using Derives.groupOperator (w := w.word) hl hr hop hrs ha
    · exact .pure (by simpa using Derives.group hl hr hrs)
  · refine .bind (of_term hs) fun us a ha => .bind (of_continuation hs) fun vs rs hrs => .pure ?_
    simpa using Derives.comparison ha hrs

theorem of_conjunctions : Consumes L (Rules.conjunctions inner) (Derives .conjunctions) := by
  refine .bind (P := fun ws parts => Derives .conjunctions ws parts.flatten) ?_
    fun ws parts h => .pure (by simpa using h)
  refine .repeatWhile (d := fun k => k.any TokenKind.isConjunction) (P := fun ws ts => ∃ w us rs,
    ws = w :: us ∧ ts = .literal w.value :: rs ∧ w.kind.isConjunction ∧ Derives .primary us rs)
    ?_ ?_ .done ?_
  · intro ts hts
    rw [← head?_kind, Option.any_map]
    exact hts
  · refine .next fun w _ hw => .bind (of_primary hs) fun us rs hrs => .pure ?_
    exact ⟨w.word, us, rs, by simp, rfl, by simpa using hw, hrs⟩
  · rintro _ _ vs parts ⟨w, us, rs, rfl, rfl, hw, hrs⟩ hparts
    exact .joined hw hrs hparts

/-- Conditions. -/
theorem of_condition : Consumes L (Rules.condition inner) (Derives .condition) := by
  refine .bind (of_primary hs) fun us ts hts => .bind (of_conjunctions hs) fun vs rs hrs => .pure ?_
  simpa using Derives.condition hts hrs

/-- Values. -/
theorem of_operand : Consumes L (Rules.operand inner) fun ws t => Derives .value ws [t] := by
  refine .nextKind fun k _ => ?_
  split
  · exact .weaken (.bind (of_condition hs) fun us ts hts => .pure (by simpa using hts.expression))
  · exact .next fun t _ ht => .pure (.null (Option.some.inj ht))
  · refine .weaken (.bind (of_term hs) fun us a ha => .nextKind fun k' _ => ?_)
    split
    · refine .weaken (.bind (of_continuation hs) fun vs ts hts => .bind (of_conjunctions hs)
        fun vs' rs hrs => .pure ?_)
      simpa using ((ha.comparison hts).condition hrs).expression
    · exact .pure (by simpa using ha.single)

end Sound

theorem sound_ofDepth (depth : Nat) : (Rules.ofDepth depth).Sound := by
  induction depth with
  | zero => exact ⟨fun _ _ _ _ _ _ h => (by cases h), fun _ _ _ _ _ _ h => (by cases h)⟩
  | succ depth ih => exact ⟨fun _ => of_condition ih, fun _ => of_operand ih⟩

theorem of_readExpression {L : Word → Prop} : Consumes L readExpression (Derives .condition) :=
  fun ts a rest hL _ hrun => (sound_ofDepth ts.length).expression L ts a rest hL trivial hrun

theorem of_readValue {L : Word → Prop} : Consumes L readValue fun ws t => Derives .value ws [t] :=
  fun ts a rest hL _ hrun => (sound_ofDepth ts.length).value L ts a rest hL trivial hrun

end Derives

/-! ## What is derived is read -/

namespace Phrase

/-- The reader of a phrase, given the rules inside parentheses. -/
def read (inner : Rules) : Phrase → Reader (List Term)
  | .term => (fun t => [t]) <$> Rules.term inner
  | .value => (fun t => [t]) <$> Rules.operand inner
  | .moreValues => repeatWhile (startsWith .comma) (do skip; Rules.operand inner)
  | .moreTerms => repeatWhile (startsWith .comma) (do skip; Rules.term inner)
  | .tail => Rules.continuation inner
  | .primary => Rules.primary inner
  | .conjunctions => Rules.conjunctions inner
  | .condition => Rules.condition inner

/-- What may stand behind a phrase: nothing that its reader would take for a part of it. -/
def Follow : Phrase → Option TokenKind → Prop
  | .term, k | .tail, k => k ≠ some .lparen
  | .moreTerms, k => k ≠ some .lparen ∧ k ≠ some .comma
  | .primary, k => k ≠ some .lparen ∧ k.any TokenKind.isOperator = false
  | .conjunctions, k | .condition, k => k ≠ some .lparen ∧ k.any TokenKind.isOperator = false ∧
      k.any TokenKind.isConjunction = false
  | .value, k => k ≠ some .lparen ∧ k.any TokenKind.startsTail = false ∧
      k.any TokenKind.isConjunction = false
  | .moreValues, k => k ≠ some .lparen ∧ k.any TokenKind.startsTail = false ∧
      k.any TokenKind.isConjunction = false ∧ k ≠ some .comma

end Phrase

theorem TokenKind.isConstant_of_isName {k : TokenKind} (h : k.isName) : k.isConstant = false := by
  cases k with
  | keyword word => cases word <;> first | rfl | cases h
  | _ => first | rfl | cases h

theorem TokenKind.startsTail_of_isOperator {k : TokenKind} (h : k.isOperator) : k.startsTail := by
  unfold startsTail
  split <;> first | rfl | exact h

namespace Derives

theorem head_value {ws : List Word} {ts : List Term} (h : Derives .value ws ts) :
    ∃ w us, ws = w :: us ∧ w.kind ≠ .rparen := by
  have hterm : ∀ {ws ts}, Derives .term ws ts → ∃ w us, ws = w :: us ∧ w.kind ≠ .rparen := by
    intro ws ts h
    obtain ⟨w, us, rfl, hw⟩ := h.head_term
    exact ⟨w, us, rfl, by rintro heq; rw [heq] at hw; simp [TokenKind.isConstant, TokenKind.isName] at hw⟩
  cases h with
  | null hw => exact ⟨_, _, rfl, by rw [hw]; nofun⟩
  | single h => exact hterm h
  | expression h =>
    cases h with
    | condition first others =>
      cases first with
      | group hl => exact ⟨_, _, rfl, by rw [hl]; nofun⟩
      | groupOperator hl => exact ⟨_, _, rfl, by rw [hl]; nofun⟩
      | comparison first rest =>
        obtain ⟨w, us, rfl, hw⟩ := hterm first
        exact ⟨w, _, rfl, hw⟩

end Derives

namespace Rules

section

variable {inner : Rules} {w l r : Word} {us vs rest : List Word} {t : Term} {ts : List Term}

theorem runsTo_constant (hw : w.kind.isConstant) :
    RunsTo (term inner) (w :: rest) (.literal w.value) rest := by
  refine .next fun t ht => ?_
  rw [if_pos (by rw [← Token.word_kind, ht]; exact hw), ← Token.word_value, ht]
  exact .pure _ _

theorem runsTo_name (hw : w.kind.isName) (hrest : kindOf rest ≠ some .lparen) :
    RunsTo (term inner) (w :: rest) (.literal w.value) rest := by
  refine .next fun t ht => ?_
  have hname : t.kind.isName := by rw [← Token.word_kind, ht]; exact hw
  rw [TokenKind.isConstant_of_isName hname, if_pos hname, ← Token.word_value, ht]
  refine .nextKind ?_
  rw [if_neg hrest]
  exact .pure _ _

theorem runsTo_call (hw : w.kind.isName) (hl : l.kind = .lparen)
    (h : RunsTo (call inner w.value) (l :: us) t rest) :
    RunsTo (term inner) (w :: l :: us) t rest := by
  refine .next fun t ht => ?_
  have hname : t.kind.isName := by rw [← Token.word_kind, ht]; exact hw
  rw [TokenKind.isConstant_of_isName hname, if_pos hname, ← Token.word_value, ht]
  refine .nextKind ?_
  rw [if_pos (by simp [hl])]
  exact h

theorem runsTo_group (hr : r.kind = .rparen) (h : RunsTo inner.expression us ts (r :: rest)) :
    RunsTo (group inner) us (.literal "(" :: (ts ++ [.literal ")"])) rest :=
  h.bind (.bind (.discard_expect hr) (.pure _ _))

/-- The first word behind a term decides on the rest. -/
theorem runsTo_operator (hw : w.kind.isOperator) (hus : kindOf us ≠ some .lparen)
    (h : RunsTo (term inner) us t rest) :
    RunsTo (continuation inner) (w :: us) [.literal w.value, t] rest := by
  refine .next fun t ht => ?_
  rw [if_pos (by rw [← Token.word_kind, ht]; exact hw), ← Token.word_value, ht]
  exact .pass hus (h.bind (.pure _ _))

theorem runsTo_operatorGroup (hw : w.kind.isOperator) (hl : l.kind = .lparen)
    (h : RunsTo (group inner) us ts rest) :
    RunsTo (continuation inner) (w :: l :: us) (.literal w.value :: ts) rest := by
  refine .next fun t ht => ?_
  rw [if_pos (by rw [← Token.word_kind, ht]; exact hw), ← Token.word_value, ht]
  exact .accept hl (h.bind (.pure _ _))

theorem runsTo_signed (hw : w.kind = .digits) :
    RunsTo (continuation inner) (w :: rest) (signed w.value) rest := by
  refine .next fun t ht => ?_
  have hk : t.kind = .digits := by rw [← Token.word_kind, ht, hw]
  simp only [hk, TokenKind.isOperator, ← Token.word_value, ht]
  exact .pure _ _

theorem runsTo_between {a : Word} {low high : Term} (hw : w.kind = .keyword .between)
    (ha : a.kind = .keyword .and) (hlow : RunsTo (term inner) us low (a :: vs))
    (hhigh : RunsTo (term inner) vs high rest) :
    RunsTo (continuation inner) (w :: us) [.literal w.value, low, .literal a.value, high] rest := by
  refine .next fun t ht => ?_
  have hk : t.kind = .keyword .between := by rw [← Token.word_kind, ht, hw]
  simp only [hk, TokenKind.isOperator, ← Token.word_value, ht]
  refine hlow.bind (.expect ha fun t' ht' => hhigh.bind ?_)
  rw [ht']
  exact .pure _ _

theorem runsTo_among (hw : w.kind = .keyword .in_) (hl : l.kind = .lparen) (hr : r.kind = .rparen)
    (h : RunsTo (commaSeparated (term inner)) us ts (r :: rest)) :
    RunsTo (continuation inner) (w :: l :: us)
      (.literal w.value :: .literal "(" :: (ts.intersperse (.literal ",") ++ [.literal ")"])) rest := by
  refine .next fun t ht => ?_
  have hk : t.kind = .keyword .in_ := by rw [← Token.word_kind, ht, hw]
  simp only [hk, TokenKind.isOperator, ← Token.word_value, ht]
  have hitems : RunsTo (parenthesized (commaSeparated (term inner))) (l :: us) ts rest :=
    .bind (.discard_expect hl) (h.bind (.bind (.discard_expect hr) (.pure _ _)))
  exact hitems.bind (.pure _ _)

theorem runsTo_isNull {n : Word} (hw : w.kind = .keyword .is) (hn : n.kind = .keyword .null) :
    RunsTo (continuation inner) (w :: n :: rest) [.literal w.value, .literal n.value] rest := by
  refine .next fun t ht => ?_
  have hk : t.kind = .keyword .is := by rw [← Token.word_kind, ht, hw]
  simp only [hk, TokenKind.isOperator, ← Token.word_value, ht]
  refine .nextKind ?_
  rw [if_neg (by simp [hn])]
  refine .expect hn fun t' ht' => ?_
  rw [ht']
  exact .pure _ _

theorem runsTo_isNotNull {m n : Word} (hw : w.kind = .keyword .is) (hm : m.kind = .keyword .not)
    (hn : n.kind = .keyword .null) :
    RunsTo (continuation inner) (w :: m :: n :: rest)
      [.literal w.value, .literal m.value, .literal n.value] rest := by
  refine .next fun t ht => ?_
  have hk : t.kind = .keyword .is := by rw [← Token.word_kind, ht, hw]
  simp only [hk, TokenKind.isOperator, ← Token.word_value, ht]
  refine .nextKind ?_
  rw [if_pos (by simp [hm])]
  refine .next fun t' ht' => .expect hn fun t'' ht'' => ?_
  rw [ht', ht'']
  exact .pure _ _

theorem runsTo_conjunction {rs : List Term} (hw : w.kind.isConjunction)
    (hfirst : RunsTo (primary inner) us ts vs) (hlt : vs.length ≤ us.length)
    (hothers : RunsTo (conjunctions inner) vs rs rest) :
    RunsTo (conjunctions inner) (w :: us) (.literal w.value :: (ts ++ rs)) rest := by
  intro tokens htokens
  obtain ⟨t, tokens, rfl⟩ : ∃ t tail, tokens = t :: tail := by
    cases tokens with
    | nil => cases htokens
    | cons t tail => exact ⟨t, tail, rfl⟩
  rw [List.map_cons, List.cons.injEq] at htokens
  obtain ⟨mid, hmid, hrun⟩ := hfirst tokens htokens.2
  obtain ⟨left, hleft, hrun'⟩ := hothers mid hmid
  obtain ⟨parts, left', hparts, hpure⟩ := bind_eq_ok.mp hrun'
  obtain ⟨rfl, rfl⟩ := Prod.mk.inj (Except.ok.inj hpure)
  refine ⟨left', hleft, bind_eq_ok.mpr ⟨(.literal w.value :: ts) :: parts, left', ?_, rfl⟩⟩
  have hitem : (do
      let word ← next "AND or OR"
      return .literal word.value :: (← primary inner) : Reader (List Term)) (t :: tokens) =
      .ok (.literal w.value :: ts, mid) := by
    refine bind_eq_ok.mpr ⟨t, tokens, rfl, bind_eq_ok.mpr ⟨ts, mid, hrun, ?_⟩⟩
    rw [← htokens.1]
    rfl
  have hlength : mid.length < (t :: tokens).length := by
    have h1 := congrArg List.length htokens.2
    have h2 := congrArg List.length hmid
    simp only [List.length_map, List.length_cons] at h1 h2 ⊢
    omega
  have hmore : t.kind.isConjunction := by rw [← Token.word_kind, htokens.1]; exact hw
  rw [repeatWhile, if_pos (by simpa using hmore), hitem]
  simp only [hlength, if_true, hparts]

theorem runsTo_noConjunction (hrest : (kindOf rest).any TokenKind.isConjunction = false) :
    RunsTo (conjunctions inner) rest [] rest := by
  refine .bind (.repeatWhile_nil fun ts hts => ?_) (.pure _ _)
  exact (RunsTo.answers_head ts hts).trans hrest

end

/-- What reads as a condition reads as a value, and that value is the condition. -/
theorem runsTo_operand {inner : Rules} (hs : inner.Sound) {ws vs : List Word} {ts : List Term}
    (h : RunsTo (condition inner) ws ts vs) (hnull : kindOf ws ≠ some (.keyword .null)) :
    RunsTo (operand inner) ws (.expression ts) vs := by
  refine .nextKind ?_
  split
  · exact h.bind (.pure _ _)
  · rename_i hk
    exact absurd hk hnull
  · rename_i hne _
    intro tokens htokens
    obtain ⟨rest, hrest, hrun⟩ := h tokens htokens
    refine ⟨rest, hrest, ?_⟩
    obtain ⟨first, mid, hfirst, hrun⟩ := bind_eq_ok.mp hrun
    obtain ⟨others, rest', hothers, hpure⟩ := bind_eq_ok.mp hrun
    obtain ⟨rfl, rfl⟩ := Prod.mk.inj (Except.ok.inj hpure)
    -- the condition opens with no parenthesis, so its first part is a comparison
    obtain ⟨_, _, haccept, hfirst⟩ := bind_eq_ok.mp hfirst
    rw [accept_of_ne (by rw [htokens]; exact hne)] at haccept
    obtain ⟨rfl, rfl⟩ := Prod.mk.inj (Except.ok.inj haccept)
    obtain ⟨a, mid', ha, hrun⟩ := bind_eq_ok.mp hfirst
    obtain ⟨tail, mid, htail, hpure⟩ := bind_eq_ok.mp hrun
    obtain ⟨rfl, rfl⟩ := Prod.mk.inj (Except.ok.inj hpure)
    have hstarts : (kindOf (mid'.map Token.word)).any TokenKind.startsTail := by
      obtain ⟨taken, rfl, hderives⟩ :=
        Derives.of_continuation hs (L := fun _ => True) mid' tail mid (by simp) trivial htail
      obtain ⟨w, us, hw, hstarts⟩ := hderives.head_tail
      simpa [hw] using hstarts
    refine bind_eq_ok.mpr ⟨a, mid', ha, bind_eq_ok.mpr ⟨_, mid', rfl, ?_⟩⟩
    rw [head?_kind, if_pos hstarts]
    exact bind_eq_ok.mpr ⟨tail, mid, htail, bind_eq_ok.mpr ⟨others, _, hothers, rfl⟩⟩

end Rules

namespace Derives

theorem single_inj (a b : Term) (h : [a] = [b]) : a = b := by cases h; rfl

/-- A closing parenthesis may stand behind any phrase. -/
theorem follow_rparen {p : Phrase} {w : Word} {ws : List Word} (hw : w.kind = .rparen) :
    p.Follow (kindOf (w :: ws)) := by
  cases p <;> simp [Phrase.Follow, hw, TokenKind.isOperator, TokenKind.isConjunction,
    TokenKind.startsTail]

/-- Further items of a list may stand behind an item, if what follows them may. -/
theorem follow_more {p q : Phrase} {ws rest : List Word} {ts : List Term} (h : Derives q ws ts)
    (hq : q = .moreValues ∨ q = .moreTerms) (hp : p = .value ∨ p = .term)
    (hrest : p.Follow (kindOf rest)) : p.Follow (kindOf (ws ++ rest)) := by
  cases h with
  | noValue | noTerm => exact hrest
  | nextValue hc | nextTerm hc =>
    rcases hp with rfl | rfl <;>
      simp [Phrase.Follow, hc, TokenKind.isConjunction, TokenKind.startsTail, TokenKind.isOperator]
  | _ => simp at hq

/-- A condition opens with no `NULL`. -/
theorem head_condition {ws : List Word} {ts : List Term} (h : Derives .condition ws ts)
    (rest : List Word) : kindOf (ws ++ rest) ≠ some (.keyword .null) := by
  cases h with
  | condition first others =>
    cases first with
    | group hl | groupOperator hl => simp [hl]
    | comparison first rest =>
      obtain ⟨w, us, rfl, hw⟩ := first.head_term
      rintro heq
      rw [Option.some.inj heq] at hw
      rcases hw with hw | hw <;> cases hw

theorem length_pos {p : Phrase} {ws : List Word} {ts : List Term} (h : Derives p ws ts)
    (hp : p ≠ .moreValues ∧ p ≠ .moreTerms ∧ p ≠ .conjunctions) : 0 < ws.length := by
  induction h with
  | single _ ih | expression _ ih => exact ih (by decide)
  | comparison _ _ ih | condition _ _ ih =>
    have := ih (by decide)
    rw [List.length_append]
    omega
  | noValue | noTerm | done => simp at hp
  | _ => simp

theorem head_ne_lparen {ws : List Word} {ts : List Term} (h : Derives .term ws ts)
    (rest : List Word) : kindOf (ws ++ rest) ≠ some .lparen := by
  obtain ⟨w, us, rfl, hw⟩ := h.head_term
  rintro heq
  rw [Option.some.inj heq] at hw
  rcases hw with hw | hw <;> cases hw

theorem head_ne_lparen' {ws : List Word} {ts : List Term} (h : Derives .tail ws ts)
    (rest : List Word) : kindOf (ws ++ rest) ≠ some .lparen := by
  obtain ⟨w, us, rfl, hw⟩ := h.head_tail
  rintro heq
  rw [Option.some.inj heq] at hw
  cases hw

/-- Further comparisons may stand behind a comparison, if what follows them may. -/
theorem follow_conjunctions {ws rest : List Word} {ts : List Term} (h : Derives .conjunctions ws ts)
    (hrest : Phrase.Follow .condition (kindOf rest)) :
    Phrase.Follow .primary (kindOf (ws ++ rest)) := by
  rcases h.head_conjunctions with rfl | ⟨w, us, rfl, hw⟩
  · exact ⟨hrest.1, hrest.2.1⟩
  · unfold TokenKind.isConjunction at hw
    split at hw
    · simp_all [Phrase.Follow, TokenKind.isOperator]
    · simp_all [Phrase.Follow, TokenKind.isOperator]
    · cases hw

/-- **What is derived is read.** A phrase is read off the words it derives, whatever follows that
its reader would not take for a part of it. -/
theorem runsTo {p : Phrase} {ws : List Word} {ts : List Term} (h : Derives p ws ts) :
    ∀ depth, ws.length ≤ depth + 1 → ∀ rest, p.Follow (kindOf rest) →
      RunsTo (p.read (Rules.ofDepth depth)) (ws ++ rest) ts rest := by
  -- each pair of parentheses takes two words and one level of nesting
  induction h with
  | constant hw => exact fun depth _ rest _ => .map (Rules.runsTo_constant hw)
  | name hw => exact fun depth _ rest hrest => .map (Rules.runsTo_name hw hrest)
  | callEmpty hw hl hr =>
    intro depth _ rest _
    exact .map (Rules.runsTo_call hw hl (.bind (.discard_expect hl) (.accept hr (.pure _ _))))
  | @call w l r us vs t ts hw hl hr hfirst hothers ihfirst ihothers =>
    intro depth hdepth rest _
    simp only [List.cons_append, List.append_assoc]
    simp only [List.length_cons, List.length_append, List.length_nil] at hdepth
    obtain ⟨depth, rfl⟩ : ∃ d, depth = d + 1 := ⟨depth - 1, by omega⟩
    refine .map (Rules.runsTo_call hw hl (.bind (.discard_expect hl) (.pass ?_ ?_)))
    · obtain ⟨w', us', rfl, hw'⟩ := hfirst.head_value
      simpa using hw'
    · have h1 := (ihfirst depth (by omega) (vs ++ ([r] ++ rest))
        (hothers.follow_more (.inl rfl) (.inl rfl) (follow_rparen hr))).of_map single_inj
      have h2 := ihothers depth (by omega) ([r] ++ rest) (follow_rparen hr)
      exact .bind (.bind h1 (.bind h2 (.pure _ _))) (.bind (.discard_expect hr) (.pure _ _))
  | null hw =>
    intro depth _ rest _
    refine .map (.nextKind ?_)
    simp only [List.cons_append, kindOf_cons, hw]
    refine .next fun t ht => ?_
    rw [← Token.word_value, ht]
    exact .pure _ _
  | single hterm ih =>
    intro depth hdepth rest hrest
    obtain ⟨t, rfl⟩ := hterm.eq_singleton (.inl rfl)
    have h1 := (ih depth hdepth rest hrest.1).of_map single_inj
    refine .map (.nextKind ?_)
    obtain ⟨w, us, rfl, hw⟩ := hterm.head_term
    split
    · rename_i hk
      rw [List.cons_append, kindOf_cons, Option.some.injEq] at hk
      rw [hk] at hw
      rcases hw with hw | hw <;> cases hw
    · rename_i hk
      rw [List.cons_append, kindOf_cons, Option.some.injEq] at hk
      rw [hk] at hw
      rcases hw with hw | hw <;> cases hw
    · refine h1.bind (.nextKind ?_)
      rw [hrest.2.1]
      exact .pure _ _
  | expression hcondition ih =>
    intro depth hdepth rest hrest
    have hfollow : Phrase.Follow .condition (kindOf rest) := by
      refine ⟨hrest.1, ?_, hrest.2.2⟩
      cases hk : kindOf rest with
      | none => rfl
      | some k =>
        have := hrest.2.1
        rw [hk] at this
        cases hop : k.isOperator with
        | false => simpa using hop
        | true => simp [TokenKind.startsTail_of_isOperator hop] at this
    exact .map (Rules.runsTo_operand (sound_ofDepth depth) (ih depth hdepth rest hfollow)
      (hcondition.head_condition rest))
  | noValue | noTerm =>
    intro depth _ rest hrest
    refine .repeatWhile_nil fun ts hts => ?_
    rw [RunsTo.answers_startsWith ts hts]
    simp only [Phrase.Follow] at hrest
    simp [hrest]
  | @nextValue c us vs t ts hc hfirst hothers ihfirst ihothers =>
    intro depth hdepth rest hrest
    simp only [List.cons_append, List.append_assoc]
    simp only [List.length_cons, List.length_append] at hdepth
    have h1 := (ihfirst depth (by omega) (vs ++ rest) (hothers.follow_more (.inl rfl) (.inl rfl)
      ⟨hrest.1, hrest.2.1, hrest.2.2.1⟩)).of_map single_inj
    refine .repeatWhile_cons (fun ts hts => ?_) (.bind .skip h1)
      (by simp only [List.length_cons, List.length_append]; omega) (ihothers depth (by omega) rest hrest)
    rw [RunsTo.answers_startsWith ts hts]
    simp [hc]
  | @nextTerm c us vs t ts hc hfirst hothers ihfirst ihothers =>
    intro depth hdepth rest hrest
    simp only [List.cons_append, List.append_assoc]
    simp only [List.length_cons, List.length_append] at hdepth
    have h1 := (ihfirst depth (by omega) (vs ++ rest) (hothers.follow_more (.inr rfl) (.inr rfl)
      hrest.1)).of_map single_inj
    refine .repeatWhile_cons (fun ts hts => ?_) (.bind .skip h1)
      (by simp only [List.length_cons, List.length_append]; omega) (ihothers depth (by omega) rest hrest)
    rw [RunsTo.answers_startsWith ts hts]
    simp [hc]
  | operator hw hterm ih =>
    intro depth hdepth rest hrest
    obtain ⟨t, rfl⟩ := hterm.eq_singleton (.inl rfl)
    refine Rules.runsTo_operator hw (hterm.head_ne_lparen rest)
      ((ih depth ?_ rest hrest).of_map single_inj)
    rw [List.length_cons] at hdepth
    omega
  | @operatorGroup w l r ws ts hw hl hr _ ih =>
    intro depth hdepth rest _
    simp only [List.cons_append, List.append_assoc]
    simp only [List.length_cons, List.length_append, List.length_nil] at hdepth
    obtain ⟨depth, rfl⟩ : ∃ d, depth = d + 1 := ⟨depth - 1, by omega⟩
    exact Rules.runsTo_operatorGroup hw hl
      (Rules.runsTo_group hr (ih depth (by omega) (r :: rest) (follow_rparen hr)))
  | signed hw => exact fun depth _ rest _ => Rules.runsTo_signed hw
  | @between w a us vs low high hw ha _ _ ihlow ihhigh =>
    intro depth hdepth rest hrest
    simp only [List.cons_append, List.append_assoc]
    simp only [List.length_cons, List.length_append] at hdepth
    exact Rules.runsTo_between hw ha
      ((ihlow depth (by omega) (a :: (vs ++ rest)) (by simp [Phrase.Follow, ha])).of_map single_inj)
      ((ihhigh depth (by omega) rest hrest).of_map single_inj)
  | @among w l r us vs t ts hw hl hr _ hothers ihfirst ihothers =>
    intro depth hdepth rest _
    simp only [List.cons_append, List.append_assoc]
    simp only [List.length_cons, List.length_append, List.length_nil] at hdepth
    have h1 := (ihfirst depth (by omega) (vs ++ (r :: rest))
      (hothers.follow_more (.inr rfl) (.inr rfl) (follow_rparen hr))).of_map single_inj
    have h2 := ihothers depth (by omega) (r :: rest) (follow_rparen hr)
    exact Rules.runsTo_among hw hl hr (.bind h1 (.bind h2 (.pure _ _)))
  | isNull hw hn => exact fun depth _ rest _ => Rules.runsTo_isNull hw hn
  | isNotNull hw hm hn => exact fun depth _ rest _ => Rules.runsTo_isNotNull hw hm hn
  | @group l r ws ts hl hr _ ih =>
    intro depth hdepth rest hrest
    simp only [List.cons_append, List.append_assoc]
    simp only [List.length_cons, List.length_append, List.length_nil] at hdepth
    obtain ⟨depth, rfl⟩ : ∃ d, depth = d + 1 := ⟨depth - 1, by omega⟩
    refine .accept hl (.bind
      (Rules.runsTo_group hr (ih depth (by omega) (r :: rest) (follow_rparen hr))) (.nextKind ?_))
    rw [hrest.2]
    exact .pure _ _
  | @groupOperator l r w us vs ts rs hl hr hw _ hterm ih ihoperand =>
    intro depth hdepth rest hrest
    simp only [List.cons_append, List.append_assoc]
    simp only [List.length_cons, List.length_append] at hdepth
    obtain ⟨depth, rfl⟩ : ∃ d, depth = d + 1 := ⟨depth - 1, by omega⟩
    obtain ⟨t, rfl⟩ := hterm.eq_singleton (.inl rfl)
    have h1 : RunsTo (Rules.group (Rules.ofDepth (depth + 1))) (us ++ r :: w :: (vs ++ rest))
        (.literal "(" :: (ts ++ [.literal ")"])) (w :: (vs ++ rest)) :=
      Rules.runsTo_group hr (ih depth (by omega) (r :: w :: (vs ++ rest)) (follow_rparen hr))
    have h2 := (ihoperand (depth + 1) (by omega) rest hrest.1).of_map single_inj
    refine .accept hl (.bind h1 (.nextKind ?_))
    rw [kindOf_cons, Option.any_some, if_pos hw]
    refine .next fun t ht => .bind h2 ?_
    rw [← Token.word_value, ht]
    simpa using RunsTo.pure _ _
  | @comparison us vs ts rs hterm htail ihfirst ihrest =>
    intro depth hdepth rest hrest
    rw [List.append_assoc]
    rw [List.length_append] at hdepth
    obtain ⟨t, rfl⟩ := hterm.eq_singleton (.inl rfl)
    have h1 := (ihfirst depth (by omega) (vs ++ rest) (htail.head_ne_lparen' rest)).of_map single_inj
    exact .pass (hterm.head_ne_lparen _)
      (.bind h1 (.bind (ihrest depth (by omega) rest hrest.1) (.pure _ _)))
  | done => exact fun depth _ rest hrest => Rules.runsTo_noConjunction hrest.2.2
  | @joined w us vs ts rs hw hfirst hothers ihfirst ihothers =>
    intro depth hdepth rest hrest
    simp only [List.cons_append, List.append_assoc]
    simp only [List.length_cons, List.length_append] at hdepth
    exact Rules.runsTo_conjunction hw
      (ihfirst depth (by omega) (vs ++ rest) (hothers.follow_conjunctions hrest))
      (by simp) (ihothers depth (by omega) rest hrest)
  | @condition us vs ts rs hfirst hothers ihfirst ihothers =>
    intro depth hdepth rest hrest
    rw [List.append_assoc]
    rw [List.length_append] at hdepth
    exact .bind (ihfirst depth (by omega) (vs ++ rest) (hothers.follow_conjunctions hrest))
      (.bind (ihothers depth (by omega) rest hrest) (.pure _ _))

theorem runsTo_readExpression {ws rest : List Word} {ts : List Term} (h : Derives .condition ws ts)
    (hrest : Phrase.Follow .condition (kindOf rest)) :
    RunsTo readExpression (ws ++ rest) ts rest := by
  intro tokens htokens
  have hpos := h.length_pos (by decide)
  have hlength := congrArg List.length htokens
  rw [List.length_map, List.length_append] at hlength
  obtain ⟨depth, hdepth⟩ : ∃ d, tokens.length = d + 1 := ⟨tokens.length - 1, by omega⟩
  obtain ⟨left, hleft, hrun⟩ := h.runsTo depth (by omega) rest hrest tokens htokens
  refine ⟨left, hleft, ?_⟩
  have hread : readExpression tokens = (Rules.ofDepth tokens.length).expression tokens := rfl
  rw [hread, hdepth]
  exact hrun

theorem runsTo_readValue {ws rest : List Word} {t : Term} (h : Derives .value ws [t])
    (hrest : Phrase.Follow .value (kindOf rest)) : RunsTo readValue (ws ++ rest) t rest := by
  intro tokens htokens
  have hpos := h.length_pos (by decide)
  have hlength := congrArg List.length htokens
  rw [List.length_map, List.length_append] at hlength
  obtain ⟨depth, hdepth⟩ : ∃ d, tokens.length = d + 1 := ⟨tokens.length - 1, by omega⟩
  obtain ⟨left, hleft, hrun⟩ :=
    (h.runsTo depth (by omega) rest hrest).of_map single_inj tokens htokens
  refine ⟨left, hleft, ?_⟩
  have hread : readValue tokens = (Rules.ofDepth tokens.length).value tokens := rfl
  rw [hread, hdepth]
  exact hrun

end Derives

end SchemaScript
