import SchemaScript.Proofs.Value.Grammar

/-!
# The sentences of the grammar

The grammar of values and expressions as it is written down, on classes of tokens alone, and the
proof that the readers accept its sentences and nothing else.

* `Symbol`, `operators`, `Generates` — the symbols of the grammar, the signs between operands, and
  the rows of token classes that each symbol stands for.
* `Derives.generated` — what the readers give terms for is a sentence.
* `Generates.derived` — the readers give terms for every sentence.
* `generates_iff_read` — a row of tokens is a sentence if and only if it is read up to the sign
  behind it.
-/

set_option autoImplicit false

namespace SchemaScript

open Reader

/-- The symbols of the grammar. -/
inductive Symbol where
  | expression
  | primary
  | value
  | term
  | function
  /-- One value or more, with commas between them. -/
  | values
  /-- One term or more, with commas between them. -/
  | terms
  deriving DecidableEq, Repr

/-- The signs that the grammar puts between two operands. -/
def operators : List TokenKind := [.eq, .neq, .gt, .gtEq, .lt, .ltEq, .plus, .minus]

/-- The rows of token classes that a symbol stands for. -/
inductive Generates : Symbol → List TokenKind → Prop
  -- expression := primary ((AND | OR) primary)*
  | primary {us : List TokenKind} (h : Generates .primary us) : Generates .expression us
  | conjunction {us vs : List TokenKind} {k : TokenKind} (first : Generates .primary us)
      (hk : k = .keyword .and ∨ k = .keyword .or) (others : Generates .expression vs) :
      Generates .expression (us ++ k :: vs)
  -- primary := ( expression ) [op term]
  | group {us : List TokenKind} (h : Generates .expression us) :
      Generates .primary (.lparen :: (us ++ [.rparen]))
  | groupOperator {us vs : List TokenKind} {op : TokenKind} (h : Generates .expression us)
      (hop : op ∈ operators) (operand : Generates .term vs) :
      Generates .primary (.lparen :: (us ++ .rparen :: op :: vs))
  --   | term op term | term op ( expression ) | term DIGITS
  | comparison {us vs : List TokenKind} {op : TokenKind} (left : Generates .term us)
      (hop : op ∈ operators) (right : Generates .term vs) : Generates .primary (us ++ op :: vs)
  | comparisonGroup {us vs : List TokenKind} {op : TokenKind} (left : Generates .term us)
      (hop : op ∈ operators) (right : Generates .expression vs) :
      Generates .primary (us ++ op :: .lparen :: (vs ++ [.rparen]))
  | signed {us : List TokenKind} (h : Generates .term us) : Generates .primary (us ++ [.digits])
  --   | term BETWEEN term AND term | term IN ( term, ... ) | term IS [NOT] NULL
  | between {us vs ws : List TokenKind} (h : Generates .term us) (low : Generates .term vs)
      (high : Generates .term ws) :
      Generates .primary (us ++ .keyword .between :: (vs ++ .keyword .and :: ws))
  | among {us vs : List TokenKind} (h : Generates .term us) (items : Generates .terms vs) :
      Generates .primary (us ++ .keyword .in_ :: .lparen :: (vs ++ [.rparen]))
  | isNull {us : List TokenKind} (h : Generates .term us) :
      Generates .primary (us ++ [.keyword .is, .keyword .null])
  | isNotNull {us : List TokenKind} (h : Generates .term us) :
      Generates .primary (us ++ [.keyword .is, .keyword .not, .keyword .null])
  -- value := NULL | term | expression
  | null : Generates .value [.keyword .null]
  | single {us : List TokenKind} (h : Generates .term us) : Generates .value us
  | expression {us : List TokenKind} (h : Generates .expression us) : Generates .value us
  -- term := string | DIGITS | date | name | function
  | singleQuoted : Generates .term [.singleQuoted]
  | doubleQuoted : Generates .term [.doubleQuoted]
  | digits : Generates .term [.digits]
  | date {word : Keyword} (hword : word.isDate) : Generates .term [.keyword word]
  | name {k : TokenKind} (hk : k.isName) : Generates .term [k]
  | function {us : List TokenKind} (h : Generates .function us) : Generates .term us
  -- function := name ( [value, ...] )
  | callEmpty {k : TokenKind} (hk : k.isName) : Generates .function [k, .lparen, .rparen]
  | call {us : List TokenKind} {k : TokenKind} (hk : k.isName) (args : Generates .values us) :
      Generates .function (k :: .lparen :: (us ++ [.rparen]))
  -- value, ...
  | oneValue {us : List TokenKind} (h : Generates .value us) : Generates .values us
  | moreValues {us vs : List TokenKind} (first : Generates .value us)
      (others : Generates .values vs) : Generates .values (us ++ .comma :: vs)
  -- term, ...
  | oneTerm {us : List TokenKind} (h : Generates .term us) : Generates .terms us
  | moreTerms {us vs : List TokenKind} (first : Generates .term us) (others : Generates .terms vs) :
      Generates .terms (us ++ .comma :: vs)

theorem TokenKind.isOperator_iff {k : TokenKind} : k.isOperator ↔ k ∈ operators := by
  cases k <;> simp [isOperator, operators]

theorem TokenKind.isConjunction_iff {k : TokenKind} :
    k.isConjunction ↔ k = .keyword .and ∨ k = .keyword .or := by
  constructor
  · intro hk
    unfold isConjunction at hk
    split at hk
    · exact .inl rfl
    · exact .inr rfl
    · cases hk
  · rintro (rfl | rfl) <;> rfl

theorem Generates.constant {k : TokenKind} (hk : k.isConstant) : Generates .term [k] := by
  unfold TokenKind.isConstant at hk
  split at hk
  · exact .singleQuoted
  · exact .doubleQuoted
  · exact .digits
  · exact .date hk
  · cases hk

/-! ## What is derived is a sentence -/

/-- What a phrase of the readers adds to the sentence in front of it, if it needs one. -/
def Phrase.Generated : Phrase → List TokenKind → Prop
  | .term, ks => Generates .term ks
  | .value, ks => Generates .value ks
  | .primary, ks => Generates .primary ks
  | .condition, ks => Generates .expression ks
  | .moreValues, ks => ∀ us, Generates .value us → Generates .values (us ++ ks)
  | .moreTerms, ks => ∀ us, Generates .term us → Generates .terms (us ++ ks)
  | .tail, ks => ∀ us, Generates .term us → Generates .primary (us ++ ks)
  | .conjunctions, ks => ∀ us, Generates .primary us → Generates .expression (us ++ ks)

/-- **What the readers give terms for is a sentence.** -/
theorem Derives.generated {p : Phrase} {ws : List Word} {ts : List Term} (h : Derives p ws ts) :
    p.Generated (ws.map Word.kind) := by
  induction h with
  | constant hw => exact .constant hw
  | name hw => exact .name hw
  | callEmpty hw hl hr =>
    simp only [List.map_cons, List.map_nil, hl, hr]
    exact .function (.callEmpty hw)
  | call hw hl hr _ _ ihfirst ihothers =>
    have hargs := ihothers _ ihfirst
    simp only [List.map_cons, List.map_append, List.map_nil, hl, hr]
    rw [← List.append_assoc]
    exact .function (.call hw hargs)
  | null hw =>
    simp only [List.map_cons, List.map_nil, hw]
    exact .null
  | single _ ih => exact .single ih
  | expression _ ih => exact .expression ih
  | noValue =>
    intro us hus
    rw [List.map_nil, List.append_nil]
    exact .oneValue hus
  | nextValue hc _ _ ihfirst ihothers =>
    intro us hus
    simp only [List.map_cons, List.map_append, hc]
    exact .moreValues hus (ihothers _ ihfirst)
  | noTerm =>
    intro us hus
    rw [List.map_nil, List.append_nil]
    exact .oneTerm hus
  | nextTerm hc _ _ ihfirst ihothers =>
    intro us hus
    simp only [List.map_cons, List.map_append, hc]
    exact .moreTerms hus (ihothers _ ihfirst)
  | operator hw _ ih =>
    intro us hus
    exact .comparison hus (TokenKind.isOperator_iff.mp hw) ih
  | operatorGroup hw hl hr _ ih =>
    intro us hus
    simp only [List.map_cons, List.map_append, List.map_nil, hl, hr]
    exact .comparisonGroup hus (TokenKind.isOperator_iff.mp hw) ih
  | signed hw =>
    intro us hus
    simp only [List.map_cons, List.map_nil, hw]
    exact .signed hus
  | between hw ha _ _ ihlow ihhigh =>
    intro us hus
    simp only [List.map_cons, List.map_append, hw, ha]
    exact .between hus ihlow ihhigh
  | among hw hl hr _ _ ihfirst ihothers =>
    intro us hus
    have hitems := ihothers _ ihfirst
    simp only [List.map_cons, List.map_append, List.map_nil, hw, hl, hr]
    rw [← List.append_assoc (List.map Word.kind _)]
    exact .among hus hitems
  | isNull hw hn =>
    intro us hus
    simp only [List.map_cons, List.map_nil, hw, hn]
    exact .isNull hus
  | isNotNull hw hm hn =>
    intro us hus
    simp only [List.map_cons, List.map_nil, hw, hm, hn]
    exact .isNotNull hus
  | group hl hr _ ih =>
    simp only [List.map_cons, List.map_append, List.map_nil, hl, hr]
    exact .group ih
  | groupOperator hl hr hw _ _ ih ihoperand =>
    simp only [List.map_cons, List.map_append, hl, hr]
    exact .groupOperator ih (TokenKind.isOperator_iff.mp hw) ihoperand
  | comparison _ _ ihfirst ihrest =>
    rw [List.map_append]
    exact ihrest _ ihfirst
  | done =>
    intro us hus
    rw [List.map_nil, List.append_nil]
    exact .primary hus
  | joined hw _ _ ihfirst ihothers =>
    intro us hus
    simp only [List.map_cons, List.map_append]
    exact .conjunction hus (TokenKind.isConjunction_iff.mp hw) (ihothers _ ihfirst)
  | condition _ _ ihfirst ihothers =>
    rw [List.map_append]
    exact ihothers _ ihfirst

/-! ## Every sentence is derived -/

/-- What the readers make of the sentences of a symbol. -/
def Symbol.Derived : Symbol → List Word → Prop
  | .expression, ws => ∃ ts, Derives .condition ws ts
  | .primary, ws => ∃ ts, Derives .primary ws ts
  | .value, ws => ∃ t, Derives .value ws [t]
  | .term, ws | .function, ws => ∃ t, Derives .term ws [t]
  | .values, ws => ∃ us vs t ts, ws = us ++ vs ∧ Derives .value us [t] ∧ Derives .moreValues vs ts
  | .terms, ws => ∃ us vs t ts, ws = us ++ vs ∧ Derives .term us [t] ∧ Derives .moreTerms vs ts

/-- Words whose classes are a row with a class in it are cut at the word of that class. -/
theorem Word.map_kind_eq_append {ws : List Word} {us vs : List TokenKind} {k : TokenKind}
    (h : ws.map Word.kind = us ++ k :: vs) : ∃ (us' : List Word) (w : Word) (vs' : List Word),
      ws = us' ++ w :: vs' ∧ us'.map Word.kind = us ∧ w.kind = k ∧ vs'.map Word.kind = vs := by
  obtain ⟨us', rest, rfl, hus, hrest⟩ := List.map_eq_append_iff.mp h
  obtain ⟨w, vs', rfl, hw, hvs⟩ := List.map_eq_cons_iff.mp hrest
  exact ⟨us', w, vs', rfl, hus, hw, hvs⟩

/-- Words whose classes end with a class are cut before their last word. -/
theorem Word.map_kind_eq_concat {ws : List Word} {us : List TokenKind} {k : TokenKind}
    (h : ws.map Word.kind = us ++ [k]) : ∃ (us' : List Word) (w : Word),
      ws = us' ++ [w] ∧ us'.map Word.kind = us ∧ w.kind = k := by
  obtain ⟨us', w, vs, rfl, hus, hw, hvs⟩ := map_kind_eq_append h
  obtain rfl := List.map_eq_nil_iff.mp hvs
  exact ⟨us', w, rfl, hus, hw⟩

/-- **The readers give terms for every sentence**, whatever the texts of its words. -/
theorem Generates.derived {s : Symbol} {ks : List TokenKind} (h : Generates s ks) :
    ∀ ws : List Word, ws.map Word.kind = ks → s.Derived ws := by
  induction h with
  | primary _ ih =>
    intro ws hws
    obtain ⟨ts, hts⟩ := ih ws hws
    exact ⟨_, by simpa using hts.condition .done⟩
  | conjunction _ hk _ ihfirst ihothers =>
    intro ws hws
    obtain ⟨us, w, vs, rfl, hus, hw, hvs⟩ := Word.map_kind_eq_append hws
    obtain ⟨ts, hts⟩ := ihfirst us hus
    obtain ⟨rs, hrs⟩ := ihothers vs hvs
    cases hrs with
    | condition first others =>
      exact ⟨_, hts.condition (.joined (TokenKind.isConjunction_iff.mpr (hw ▸ hk)) first others)⟩
  | group _ ih =>
    intro ws hws
    obtain ⟨l, ws, rfl, hl, hws⟩ := List.map_eq_cons_iff.mp hws
    obtain ⟨us, r, rfl, hus, hr⟩ := Word.map_kind_eq_concat hws
    obtain ⟨ts, hts⟩ := ih us hus
    exact ⟨_, .group hl hr hts⟩
  | groupOperator _ hop _ ih ihoperand =>
    intro ws hws
    obtain ⟨l, ws, rfl, hl, hws⟩ := List.map_eq_cons_iff.mp hws
    obtain ⟨us, r, vs, rfl, hus, hr, hvs⟩ := Word.map_kind_eq_append hws
    obtain ⟨w, vs, rfl, hw, hvs⟩ := List.map_eq_cons_iff.mp hvs
    obtain ⟨ts, hts⟩ := ih us hus
    obtain ⟨t, ht⟩ := ihoperand vs hvs
    exact ⟨_, .groupOperator hl hr (hw ▸ TokenKind.isOperator_iff.mpr hop) hts ht⟩
  | comparison _ hop _ ihleft ihright =>
    intro ws hws
    obtain ⟨us, w, vs, rfl, hus, hw, hvs⟩ := Word.map_kind_eq_append hws
    obtain ⟨t, ht⟩ := ihleft us hus
    obtain ⟨r, hr⟩ := ihright vs hvs
    exact ⟨_, ht.comparison (.operator (hw ▸ TokenKind.isOperator_iff.mpr hop) hr)⟩
  | comparisonGroup _ hop _ ihleft ihright =>
    intro ws hws
    obtain ⟨us, w, rest, rfl, hus, hw, hrest⟩ := Word.map_kind_eq_append hws
    obtain ⟨l, rest, rfl, hl, hrest⟩ := List.map_eq_cons_iff.mp hrest
    obtain ⟨vs, r, rfl, hvs, hr⟩ := Word.map_kind_eq_concat hrest
    obtain ⟨t, ht⟩ := ihleft us hus
    obtain ⟨ts, hts⟩ := ihright vs hvs
    exact ⟨_, ht.comparison (.operatorGroup (hw ▸ TokenKind.isOperator_iff.mpr hop) hl hr hts)⟩
  | signed _ ih =>
    intro ws hws
    obtain ⟨us, w, rfl, hus, hw⟩ := Word.map_kind_eq_concat hws
    obtain ⟨t, ht⟩ := ih us hus
    exact ⟨_, ht.comparison (.signed hw)⟩
  | between _ _ _ ih ihlow ihhigh =>
    intro ws hws
    obtain ⟨us, w, rest, rfl, hus, hw, hrest⟩ := Word.map_kind_eq_append hws
    obtain ⟨vs, a, rs, rfl, hvs, ha, hrs⟩ := Word.map_kind_eq_append hrest
    obtain ⟨t, ht⟩ := ih us hus
    obtain ⟨low, hlow⟩ := ihlow vs hvs
    obtain ⟨high, hhigh⟩ := ihhigh rs hrs
    exact ⟨_, ht.comparison (.between hw ha hlow hhigh)⟩
  | among _ _ ih ihitems =>
    intro ws hws
    obtain ⟨us, w, rest, rfl, hus, hw, hrest⟩ := Word.map_kind_eq_append hws
    obtain ⟨l, rest, rfl, hl, hrest⟩ := List.map_eq_cons_iff.mp hrest
    obtain ⟨vs, r, rfl, hvs, hr⟩ := Word.map_kind_eq_concat hrest
    obtain ⟨t, ht⟩ := ih us hus
    obtain ⟨first, others, x, xs, rfl, hfirst, hothers⟩ := ihitems vs hvs
    rw [List.append_assoc first]
    exact ⟨_, ht.comparison (.among hw hl hr hfirst hothers)⟩
  | isNull _ ih =>
    intro ws hws
    obtain ⟨us, w, rest, rfl, hus, hw, hrest⟩ := Word.map_kind_eq_append hws
    obtain ⟨n, rfl, hn⟩ := List.map_eq_singleton_iff.mp hrest
    obtain ⟨t, ht⟩ := ih us hus
    exact ⟨_, ht.comparison (.isNull hw hn)⟩
  | isNotNull _ ih =>
    intro ws hws
    obtain ⟨us, w, rest, rfl, hus, hw, hrest⟩ := Word.map_kind_eq_append hws
    obtain ⟨m, rest, rfl, hm, hrest⟩ := List.map_eq_cons_iff.mp hrest
    obtain ⟨n, rfl, hn⟩ := List.map_eq_singleton_iff.mp hrest
    obtain ⟨t, ht⟩ := ih us hus
    exact ⟨_, ht.comparison (.isNotNull hw hm hn)⟩
  | null =>
    intro ws hws
    obtain ⟨w, rfl, hw⟩ := List.map_eq_singleton_iff.mp hws
    exact ⟨_, .null hw⟩
  | single _ ih =>
    intro ws hws
    obtain ⟨t, ht⟩ := ih ws hws
    exact ⟨t, ht.single⟩
  | expression _ ih =>
    intro ws hws
    obtain ⟨ts, hts⟩ := ih ws hws
    exact ⟨_, hts.expression⟩
  | singleQuoted | doubleQuoted | digits =>
    intro ws hws
    obtain ⟨w, rfl, hw⟩ := List.map_eq_singleton_iff.mp hws
    exact ⟨_, .constant (by rw [hw]; rfl)⟩
  | date hword =>
    intro ws hws
    obtain ⟨w, rfl, hw⟩ := List.map_eq_singleton_iff.mp hws
    exact ⟨_, .constant (by rw [hw]; exact hword)⟩
  | name hk =>
    intro ws hws
    obtain ⟨w, rfl, hw⟩ := List.map_eq_singleton_iff.mp hws
    exact ⟨_, .name (hw ▸ hk)⟩
  | function _ ih => exact ih
  | callEmpty hk =>
    intro ws hws
    obtain ⟨w, rest, rfl, hw, hrest⟩ := List.map_eq_cons_iff.mp hws
    obtain ⟨l, rest, rfl, hl, hrest⟩ := List.map_eq_cons_iff.mp hrest
    obtain ⟨r, rfl, hr⟩ := List.map_eq_singleton_iff.mp hrest
    exact ⟨_, .callEmpty (hw ▸ hk) hl hr⟩
  | call hk _ ih =>
    intro ws hws
    obtain ⟨w, rest, rfl, hw, hrest⟩ := List.map_eq_cons_iff.mp hws
    obtain ⟨l, rest, rfl, hl, hrest⟩ := List.map_eq_cons_iff.mp hrest
    obtain ⟨us, r, rfl, hus, hr⟩ := Word.map_kind_eq_concat hrest
    obtain ⟨first, others, x, xs, rfl, hfirst, hothers⟩ := ih us hus
    rw [List.append_assoc]
    exact ⟨_, .call (hw ▸ hk) hl hr hfirst hothers⟩
  | oneValue _ ih =>
    intro ws hws
    obtain ⟨t, ht⟩ := ih ws hws
    exact ⟨ws, [], t, [], (List.append_nil ws).symm, ht, .noValue⟩
  | moreValues _ _ ihfirst ihothers =>
    intro ws hws
    obtain ⟨us, c, vs, rfl, hus, hc, hvs⟩ := Word.map_kind_eq_append hws
    obtain ⟨t, ht⟩ := ihfirst us hus
    obtain ⟨first, others, x, xs, rfl, hfirst, hothers⟩ := ihothers vs hvs
    exact ⟨us, _, t, _, rfl, ht, .nextValue hc hfirst hothers⟩
  | oneTerm _ ih =>
    intro ws hws
    obtain ⟨t, ht⟩ := ih ws hws
    exact ⟨ws, [], t, [], (List.append_nil ws).symm, ht, .noTerm⟩
  | moreTerms _ _ ihfirst ihothers =>
    intro ws hws
    obtain ⟨us, c, vs, rfl, hus, hc, hvs⟩ := Word.map_kind_eq_append hws
    obtain ⟨t, ht⟩ := ihfirst us hus
    obtain ⟨first, others, x, xs, rfl, hfirst, hothers⟩ := ihothers vs hvs
    exact ⟨us, _, t, _, rfl, ht, .nextTerm hc hfirst hothers⟩

/-! ## Sentences and readers -/

/-- Words that a symbol derives are a sentence of it, and the other way round. -/
theorem Generates.iff_derived (ts : List Token) :
    (Generates .expression (ts.map Token.kind) ↔ ∃ a, Derives .condition (ts.map Token.word) a) ∧
    (Generates .value (ts.map Token.kind) ↔ ∃ a, Derives .value (ts.map Token.word) [a]) := by
  have hkinds : (ts.map Token.word).map Word.kind = ts.map Token.kind := by
    rw [List.map_map]
    rfl
  constructor
  · constructor
    · intro h
      exact h.derived _ hkinds
    · rintro ⟨a, ha⟩
      exact hkinds ▸ ha.generated
  · constructor
    · intro h
      exact h.derived _ hkinds
    · rintro ⟨a, ha⟩
      exact hkinds ▸ ha.generated

/-- A rule that takes what is related by `P`, and takes all of that in front of some words, takes
some tokens in front of these words if and only if they are related to something. -/
theorem Reader.reads_iff {α : Type} {r : Reader α} {P : List Word → α → Prop}
    (hsound : Consumes (fun _ => True) r P) {ts rest : List Token}
    (hcomplete : ∀ a, P (ts.map Token.word) a →
      RunsTo r ((ts ++ rest).map Token.word) a (rest.map Token.word)) :
    (∃ a, r (ts ++ rest) = .ok (a, rest)) ↔ ∃ a, P (ts.map Token.word) a := by
  constructor
  · rintro ⟨a, hrun⟩
    obtain ⟨taken, htaken, hP⟩ := hsound _ a rest (fun _ _ => trivial) trivial hrun
    obtain rfl := List.append_cancel_right htaken
    exact ⟨a, hP⟩
  · rintro ⟨a, hP⟩
    obtain ⟨rest', hrest', hrun⟩ := hcomplete a hP _ rfl
    -- the tokens left are a part of all tokens, and as many as `rest`
    obtain ⟨taken, htaken, -⟩ := hsound _ a rest' (fun _ _ => trivial) trivial hrun
    have hlength : rest'.length = rest.length := by
      simpa using congrArg List.length hrest'
    obtain ⟨-, rfl⟩ := List.append_inj' htaken hlength.symm
    exact ⟨a, hrun⟩

/-- **The readers accept exactly the grammar.** In front of a closing parenthesis an expression is
read up to it if and only if the tokens before it are a sentence, and in front of a comma or a
closing parenthesis so is a value. -/
theorem generates_iff_read (ts rest : List Token) (stop : Token) :
    (stop.kind = .rparen →
      (Generates .expression (ts.map Token.kind) ↔
        ∃ terms, readExpression (ts ++ stop :: rest) = .ok (terms, stop :: rest))) ∧
    (stop.kind = .comma ∨ stop.kind = .rparen →
      (Generates .value (ts.map Token.kind) ↔
        ∃ value, readValue (ts ++ stop :: rest) = .ok (value, stop :: rest))) := by
  obtain ⟨hexpression, hvalue⟩ := Generates.iff_derived ts
  constructor
  · intro hstop
    rw [hexpression, Reader.reads_iff Derives.of_readExpression]
    intro terms hterms
    rw [List.map_append]
    exact hterms.runsTo_readExpression (Derives.follow_rparen hstop)
  · intro hstop
    rw [hvalue, Reader.reads_iff Derives.of_readValue]
    intro value hderives
    rw [List.map_append]
    apply hderives.runsTo_readValue
    rcases hstop with hstop | hstop
    · simp [Phrase.Follow, hstop, TokenKind.startsTail, TokenKind.isOperator,
        TokenKind.isConjunction]
    · exact Derives.follow_rparen hstop

/-- In `a BETWEEN 1 AND 2 AND b IS NULL` only the second `AND` joins two comparisons. -/
theorem generates_iff_read_between :
    let kinds : List TokenKind := [.identifier, .keyword .between, .digits, .keyword .and, .digits,
      .keyword .and, .identifier, .keyword .is, .keyword .null]
    let tokens := kinds.map fun k => (⟨k, "", 1, 0⟩ : Token)
    let stop : Token := ⟨.rparen, ")", 1, 0⟩
    stop.kind = .rparen ∧ ∃ terms, readExpression (tokens ++ [stop]) = .ok (terms, [stop]) := by
  intro kinds tokens stop
  have hname : Generates .term [.identifier] := .name rfl
  have hbetween : Generates .primary
      [.identifier, .keyword .between, .digits, .keyword .and, .digits] :=
    .between hname .digits .digits
  have hnull : Generates .primary [.identifier, .keyword .is, .keyword .null] := .isNull hname
  have hboth : Generates .expression kinds := .conjunction hbetween (.inl rfl) (.primary hnull)
  exact ⟨rfl, ((generates_iff_read tokens [] stop).1 rfl).mp hboth⟩

end SchemaScript
