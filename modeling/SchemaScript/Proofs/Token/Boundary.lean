import SchemaScript.Proofs.Token.Tracking

/-!
# Rules and the ends of statements

A semicolon or an inclusion ends a statement. A rule of the grammar takes none of them but at its
very end, and it does not depend on what stands behind the statement it is in.

* `TokenKind.endsStatement`, `Inside` — the classes that end a statement, and tokens without them.
* `Alike` — lists of tokens that a rule cannot tell apart while it stays in front of the place where
  they part. There the second ends a statement, and the first may also close a parenthesis.
* `Stays m n e r r'` — the rule `r`, on up to `m` tokens, takes tokens inside a statement, or up to
  the one that ends it. On alike tokens, up to `n` of them, the rule `r'` does the same. A token
  that is refused is one of the tokens to come. Where they run out, all of them have been taken: an
  inclusion put behind them would be refused. There is one lemma for each way to build a rule.
* `StaysWhen` — the same for a rule that is tried only where a test of the tokens has succeeded.
-/

set_option autoImplicit false

namespace SchemaScript

open Reader
open Context (firstKind)

/-! ## Ends of statements -/

/-- The classes of tokens that end a statement. -/
def TokenKind.endsStatement : TokenKind → Bool
  | .semicolon | .inclusion => true
  | _ => false

theorem TokenKind.endsStatement_of_isName {k : TokenKind} (h : k.isName) :
    k.endsStatement = false := by
  cases k <;> first | rfl | cases h

/-- Tokens none of which ends a statement. -/
def Inside (ts : List Token) : Prop := ∀ t ∈ ts, t.kind.endsStatement = false

@[simp] theorem inside_nil : Inside [] := fun t ht => by cases ht

@[simp] theorem inside_cons {t : Token} {ts : List Token} :
    Inside (t :: ts) ↔ t.kind.endsStatement = false ∧ Inside ts := List.forall_mem_cons

@[simp] theorem inside_append {us vs : List Token} : Inside (us ++ vs) ↔ Inside us ∧ Inside vs :=
  List.forall_mem_append

theorem Context.firstKind_eq_some {ts : List Token} {k : TokenKind} (h : firstKind ts = some k) :
    ∃ t us, ts = t :: us ∧ t.kind = k := by
  cases ts with
  | nil => cases h
  | cons t us => exact ⟨t, us, rfl, Option.some.inj h⟩

theorem Context.startsWith_iff {ts : List Token} {k : TokenKind} :
    startsWith k ts ↔ firstKind ts = some k := by
  cases ts <;> simp [startsWith, firstKind]

/-- Where a test of the class that comes next succeeds, that class is known. -/
theorem Context.firstKind_any {ts : List Token} {test : TokenKind → Bool}
    (htest : ∀ k, test k → k.endsStatement = false) (h : (firstKind ts).any test) :
    ∃ k, firstKind ts = some k ∧ k.endsStatement = false := by
  cases hk : firstKind ts with
  | none =>
    rw [hk] at h
    cases h
  | some k =>
    rw [hk] at h
    exact ⟨k, rfl, htest k h⟩

/-! ## Tokens that rules cannot tell apart -/

/-- Nothing comes next, or a token that ends a statement. -/
def Ends (ts : List Token) : Prop := (firstKind ts).all TokenKind.endsStatement

/-- Nothing comes next, or a token that ends a statement, or a closing parenthesis. -/
def Closes (ts : List Token) : Prop := Ends ts ∨ firstKind ts = some .rparen

/-- Tokens of the same words up to a place where no rule goes on. -/
inductive Alike : List Token → List Token → Prop
  | stop {ts ts' : List Token} (h : Closes ts) (h' : Ends ts') : Alike ts ts'
  | cons {t t' : Token} {ts ts' : List Token} (hword : t'.word = t.word) (h : Alike ts ts') :
      Alike (t :: ts) (t' :: ts')

/-- What is read is the same where nothing comes next and where no rule goes on. -/
structure Blind {δ : Type} (g : Option TokenKind → δ) : Prop where
  rparen : g (some .rparen) = g none
  semicolon : g (some .semicolon) = g none
  inclusion : g (some .inclusion) = g none

/-- The same for what depends on two tokens. The second matters only where the first goes on. -/
structure BlindTwo {δ : Type} (g : Option TokenKind → Option TokenKind → δ) : Prop where
  first : ∀ l, Blind fun k => g k l
  second : ∀ k, Blind (g k)
  nothing : ∀ l, g none l = g none none

section Alike

variable {δ ε : Type} {t : Token} {us us' ts taken taken' rest rest' : List Token}

theorem Ends.closes (h : Ends ts) : Closes ts := .inl h

theorem ends_cons (h : t.kind.endsStatement) : Ends (t :: ts) := h

theorem Blind.eq_none {g : Option TokenKind → δ} (hg : Blind g) (h : Closes ts) :
    g (firstKind ts) = g none := by
  rcases h with hends | hrparen
  · unfold Ends at hends
    cases hk : firstKind ts with
    | none => rfl
    | some k =>
      rw [hk] at hends
      cases k with
      | semicolon => exact hg.semicolon
      | inclusion => exact hg.inclusion
      | _ => cases hends
  · rw [hrparen, hg.rparen]

theorem BlindTwo.comp {g : Option TokenKind → Option TokenKind → δ} (hg : BlindTwo g) (f : δ → ε) :
    BlindTwo fun k l => f (g k l) where
  first l := ⟨congrArg f (hg.first l).rparen, congrArg f (hg.first l).semicolon,
    congrArg f (hg.first l).inclusion⟩
  second k := ⟨congrArg f (hg.second k).rparen, congrArg f (hg.second k).semicolon,
    congrArg f (hg.second k).inclusion⟩
  nothing l := congrArg f (hg.nothing l)

namespace Alike

theorem append (hwords : taken'.map Token.word = taken.map Token.word) (h : Alike rest rest') :
    Alike (taken ++ rest) (taken' ++ rest') := by
  induction taken generalizing taken' with
  | nil =>
    obtain rfl := List.map_eq_nil_iff.mp hwords
    exact h
  | cons t taken ih =>
    obtain ⟨t', taken', rfl, hword, hwords⟩ := List.map_eq_cons_iff.mp hwords
    exact .cons hword (ih hwords)

/-- Behind the end of all tokens there may be a token that ends a statement. -/
theorem more (ts : List Token) (h : t.kind.endsStatement) (others : List Token) :
    Alike ts (ts ++ t :: others) := by
  have hend : Alike [] (t :: others) := .stop (.inl rfl) (ends_cons h)
  have hall := append (rfl : ts.map Token.word = ts.map Token.word) hend
  rwa [List.append_nil] at hall

theorem lookAhead {g : Option TokenKind → δ} (h : Alike us us') (hg : Blind g) :
    g (firstKind us') = g (firstKind us) := by
  cases h with
  | stop h h' => rw [hg.eq_none h, hg.eq_none h'.closes]
  | cons hword _ => exact congrArg (g <| some ·) (congrArg Word.kind hword)

theorem lookAtTwo {g : Option TokenKind → Option TokenKind → δ} (h : Alike us us')
    (hg : BlindTwo g) :
    g (firstKind us') (firstKind us'.tail) = g (firstKind us) (firstKind us.tail) := by
  have hstop : ∀ {ts}, Closes ts → g (firstKind ts) (firstKind ts.tail) = g none none := by
    intro ts hts
    rw [(hg.first (firstKind ts.tail)).eq_none hts, hg.nothing]
  cases h with
  | stop h h' => rw [hstop h, hstop h'.closes]
  | cons hword h =>
    have hkind := congrArg (some <| Word.kind ·) hword
    exact (congrArg (g · _) hkind).trans (h.lookAhead (hg.second _))

/-- A class that ends no statement does not come next where it did not. -/
theorem firstKind_ne {k : TokenKind} (h : Alike us us') (hk : k.endsStatement = false)
    (hne : firstKind us ≠ some k) : firstKind us' ≠ some k := by
  cases h with
  | stop _ h' =>
    intro heq
    have hends : k.endsStatement := by simpa [Ends, heq] using h'
    rw [hk] at hends
    cases hends
  | cons hword _ =>
    intro heq
    exact hne ((congrArg some (congrArg Word.kind hword)).symm.trans heq)

end Alike

end Alike

/-! ## The judgment -/

namespace Reader

variable {α β γ δ : Type}

theorem accept_of_eq {kind : TokenKind} {t : Token} (ht : t.kind = kind) (us : List Token) :
    accept kind (t :: us) = .ok (true, us) := by
  have haccept : accept kind (t :: us) =
      (if some t.kind = some kind then do skip; return true else return false : Reader Bool)
        (t :: us) := rfl
  rw [haccept, if_pos (congrArg some ht)]
  rfl

/-- Where a rule leaves off. -/
inductive Ending where
  /-- Inside a statement. -/
  | inside
  /-- Behind the token that ends a statement. -/
  | past

namespace Ending

/-- The tokens that a rule takes. -/
def Takes : Ending → List Token → Prop
  | .inside, taken => Inside taken
  | .past, taken => ∃ us t, taken = us ++ [t] ∧ Inside us ∧ t.kind.endsStatement

/-- What may stand in the place of the tokens that a rule leaves. -/
def Leaves : Ending → List Token → List Token → Prop
  | .inside, rest, rest' => Alike rest rest'
  | .past, _, _ => True

variable {e : Ending} {taken taken' rest rest' us vs : List Token}

theorem takes_append (hus : Inside us) (hvs : e.Takes vs) : e.Takes (us ++ vs) := by
  cases e with
  | inside => exact inside_append.mpr ⟨hus, hvs⟩
  | past =>
    obtain ⟨ws, t, rfl, hws, ht⟩ := hvs
    exact ⟨us ++ ws, t, by simp, inside_append.mpr ⟨hus, hws⟩, ht⟩

theorem takes_cons {t : Token} (ht : t.kind.endsStatement = false) (hvs : e.Takes vs) :
    e.Takes (t :: vs) :=
  takes_append (inside_cons.mpr ⟨ht, inside_nil⟩) hvs

theorem alike (htaken : e.Takes taken) (hwords : taken'.map Token.word = taken.map Token.word)
    (hrest : e.Leaves rest rest') : Alike (taken ++ rest) (taken' ++ rest') := by
  cases e with
  | inside => exact .append hwords hrest
  | past =>
    obtain ⟨us, t, rfl, -, ht⟩ := htaken
    rw [List.map_append] at hwords
    obtain ⟨us', ts', rfl, hus, hts⟩ := List.map_eq_append_iff.mp hwords
    obtain ⟨t', rfl, ht'⟩ := List.map_eq_singleton_iff.mp hts
    have hends : t'.kind.endsStatement := by
      rw [← Token.word_kind, ht', Token.word_kind, ht]
    have hstop : Alike ([t] ++ rest) ([t'] ++ rest') :=
      .stop (.inl (ends_cons ht)) (ends_cons hends)
    simpa using Alike.append hus hstop

end Ending

/-- On up to `m` tokens that meet `c`, the rule `r` stays inside a statement or leaves off behind
its end, and `r'` does the same on up to `n` tokens that are alike. -/
structure StaysWhen (c : List Token → Prop) (m n : Nat) (e : Ending) (r r' : Reader α) : Prop where
  ok : ∀ {ts a rest}, c ts → ts.length ≤ m → r ts = .ok (a, rest) →
    ∃ taken, ts = taken ++ rest ∧ e.Takes taken ∧
      ∀ taken' rest', taken'.map Token.word = taken.map Token.word → e.Leaves rest rest' →
        (taken' ++ rest').length ≤ n → r' (taken' ++ rest') = .ok (a, rest')
  unexpected : ∀ {ts t}, c ts → ts.length ≤ m → r ts = .error (.unexpected t) →
    ∃ taken rest, ts = taken ++ t :: rest ∧ Inside taken
  ended : ∀ {ts x}, c ts → ts.length ≤ m → r ts = .error (.ended x) →
    Inside ts ∧ ∀ t others, t.kind = .inclusion → (ts ++ t :: others).length ≤ n →
      r' (ts ++ t :: others) = .error (.unexpected t)

/-- `StaysWhen`, whatever the tokens. -/
abbrev Stays (m n : Nat) (e : Ending) (r r' : Reader α) : Prop :=
  StaysWhen (fun _ => True) m n e r r'

/-- What is done with a token: it is refused, or it ends no statement and a rule goes on with the
tokens that meet `c`, or it ends the statement. -/
inductive Follows (c : List Token → Prop) (m n : Nat) (e : Ending) (t t' : Token)
    (r r' : Reader α) : Prop
  | refuse (hr : r = reject t) (hr' : r' = reject t')
  | goOn (ht : t.kind.endsStatement = false) (h : StaysWhen c (m - 1) (n - 1) e r r')
  | finish (he : e = .past) (ht : t.kind.endsStatement) (a : α) (hr : r = pure a) (hr' : r' = pure a)

theorem Follows.ite {c : List Token → Prop} {m n : Nat} {e : Ending} {t t' : Token} {p : Prop}
    [Decidable p] {r r' s s' : Reader α} (hr : p → Follows c m n e t t' r r')
    (hs : ¬ p → Follows c m n e t t' s s') :
    Follows c m n e t t' (if p then r else s) (if p then r' else s') := by
  split
  · exact hr ‹_›
  · exact hs ‹_›

namespace Follows

variable {c : List Token → Prop} {m n : Nat} {e : Ending} {t t' : Token} {r r' : Reader α}
  {us : List Token}

/-- A rule that goes on behind a token takes this token and those that it takes itself. -/
theorem ok {a : α} {rest : List Token} (h : Follows c m n e t t' r r') (hc : c us)
    (hlength : us.length ≤ m - 1) (hread : r us = .ok (a, rest)) :
    ∃ taken, us = taken ++ rest ∧ e.Takes (t :: taken) ∧
      ∀ taken' rest', taken'.map Token.word = taken.map Token.word → e.Leaves rest rest' →
        (taken' ++ rest').length ≤ n - 1 → r' (taken' ++ rest') = .ok (a, rest') := by
  cases h with
  | refuse hr =>
    rw [hr] at hread
    cases hread
  | goOn ht hstays =>
    obtain ⟨taken, hsplit, htaken, hread'⟩ := hstays.ok hc hlength hread
    exact ⟨taken, hsplit, Ending.takes_cons ht htaken, hread'⟩
  | finish he ht b hr hr' =>
    subst he
    rw [hr] at hread
    cases hread
    refine ⟨[], rfl, ⟨[], t, rfl, inside_nil, ht⟩, ?_⟩
    intro taken' rest' hwords _ _
    obtain rfl := List.map_eq_nil_iff.mp hwords
    rw [hr']
    rfl

theorem unexpected {u : Token} (h : Follows c m n e t t' r r') (hc : c us)
    (hlength : us.length ≤ m - 1) (hread : r us = .error (.unexpected u)) :
    ∃ taken rest, t :: us = taken ++ u :: rest ∧ Inside taken := by
  cases h with
  | refuse hr =>
    rw [hr] at hread
    cases hread
    exact ⟨[], us, rfl, inside_nil⟩
  | goOn ht hstays =>
    obtain ⟨taken, rest, rfl, htaken⟩ := hstays.unexpected hc hlength hread
    exact ⟨t :: taken, rest, rfl, inside_cons.mpr ⟨ht, htaken⟩⟩
  | finish _ _ b hr =>
    rw [hr] at hread
    cases hread

theorem ended {x : String} (h : Follows c m n e t t' r r') (hc : c us)
    (hlength : us.length ≤ m - 1) (hread : r us = .error (.ended x)) :
    Inside (t :: us) ∧ ∀ u others, u.kind = .inclusion → (us ++ u :: others).length ≤ n - 1 →
      r' (us ++ u :: others) = .error (.unexpected u) := by
  cases h with
  | refuse hr =>
    rw [hr] at hread
    cases hread
  | goOn ht hstays =>
    obtain ⟨hinside, hread'⟩ := hstays.ended hc hlength hread
    exact ⟨inside_cons.mpr ⟨ht, hinside⟩, hread'⟩
  | finish _ _ b hr =>
    rw [hr] at hread
    cases hread

end Follows

namespace StaysWhen

variable {c d : List Token → Prop} {m n : Nat} {e : Ending} {r r' : Reader α}
  {f f' : α → Reader β}

theorem weaken (h : Stays m n e r r') : StaysWhen c m n e r r' where
  ok _ := h.ok trivial
  unexpected _ := h.unexpected trivial
  ended _ := h.ended trivial

theorem lower {m' n' : Nat} (h : StaysWhen c m n e r r') (hm : m' ≤ m) (hn : n' ≤ n) :
    StaysWhen c m' n' e r r' where
  ok hc hts hrun := by
    obtain ⟨taken, hsplit, htaken, hrun'⟩ := h.ok hc (Nat.le_trans hts hm) hrun
    exact ⟨taken, hsplit, htaken, fun taken' rest' hwords hrest hlength =>
      hrun' taken' rest' hwords hrest (Nat.le_trans hlength hn)⟩
  unexpected hc hts := h.unexpected hc (Nat.le_trans hts hm)
  ended hc hts hrun := by
    obtain ⟨hinside, hrun'⟩ := h.ended hc (Nat.le_trans hts hm) hrun
    exact ⟨hinside, fun t others ht hlength => hrun' t others ht (Nat.le_trans hlength hn)⟩

theorem pure (a : α) : StaysWhen c m n .inside (Pure.pure a) (Pure.pure a) where
  ok {ts _ _} _ _ hrun := by
    cases hrun
    refine ⟨[], rfl, inside_nil, ?_⟩
    intro taken' rest' hwords _ _
    obtain rfl := List.map_eq_nil_iff.mp hwords
    rfl
  unexpected _ _ hrun := by cases hrun
  ended _ _ hrun := by cases hrun

theorem bind (hr : StaysWhen c m n .inside r r') (hf : ∀ a, Stays m n e (f a) (f' a)) :
    StaysWhen c m n e (r >>= f) (r' >>= f') where
  ok hc hts hrun := by
    obtain ⟨a, mid, hfirst, hsecond⟩ := bind_eq_ok.mp hrun
    obtain ⟨us, rfl, hus, hfirst'⟩ := hr.ok hc hts hfirst
    rw [List.length_append] at hts
    obtain ⟨vs, rfl, hvs, hsecond'⟩ := (hf a).ok trivial (by omega) hsecond
    refine ⟨us ++ vs, by simp, Ending.takes_append hus hvs, ?_⟩
    intro taken' rest' hwords hrest hlength
    rw [List.map_append] at hwords
    obtain ⟨us', vs', rfl, hus', hvs'⟩ := List.map_eq_append_iff.mp hwords
    rw [List.append_assoc] at hlength ⊢
    have hmid := hfirst' us' _ hus' (Ending.alike hvs hvs' hrest) hlength
    rw [List.length_append] at hlength
    exact bind_eq_ok.mpr ⟨a, _, hmid, hsecond' vs' rest' hvs' hrest (by omega)⟩
  unexpected hc hts hrun := by
    rcases bind_eq_error.mp hrun with hfirst | ⟨a, mid, hfirst, hsecond⟩
    · exact hr.unexpected hc hts hfirst
    · obtain ⟨us, rfl, hus, -⟩ := hr.ok hc hts hfirst
      rw [List.length_append] at hts
      obtain ⟨vs, rest, rfl, hvs⟩ := (hf a).unexpected trivial (by omega) hsecond
      exact ⟨us ++ vs, rest, by simp, inside_append.mpr ⟨hus, hvs⟩⟩
  ended hc hts hrun := by
    rcases bind_eq_error.mp hrun with hfirst | ⟨a, mid, hfirst, hsecond⟩
    · obtain ⟨hinside, hfirst'⟩ := hr.ended hc hts hfirst
      exact ⟨hinside, fun t others ht hlength =>
        bind_eq_error.mpr (.inl (hfirst' t others ht hlength))⟩
    · obtain ⟨us, rfl, hus, hfirst'⟩ := hr.ok hc hts hfirst
      rw [List.length_append] at hts
      obtain ⟨hmid, hsecond'⟩ := (hf a).ended trivial (by omega) hsecond
      refine ⟨inside_append.mpr ⟨hus, hmid⟩, ?_⟩
      intro t others ht hlength
      have hmore : Alike mid (mid ++ t :: others) := .more mid (by rw [ht]; rfl) others
      rw [List.append_assoc] at hlength ⊢
      have hgo := hfirst' us _ rfl hmore hlength
      rw [List.length_append] at hlength
      exact bind_eq_error.mpr (.inr ⟨a, _, hgo, hsecond' t others ht (by omega)⟩)

/-- What a rule gives may be put into another form. -/
theorem result (hr : StaysWhen c m n e r r') (g : α → β) :
    StaysWhen c m n e (r >>= fun a => Pure.pure (g a)) (r' >>= fun a => Pure.pure (g a)) where
  ok hc hts hrun := by
    obtain ⟨a, mid, hfirst, hsecond⟩ := bind_eq_ok.mp hrun
    cases hsecond
    obtain ⟨taken, hsplit, htaken, hrun'⟩ := hr.ok hc hts hfirst
    exact ⟨taken, hsplit, htaken, fun taken' rest' hwords hrest hlength =>
      bind_eq_ok.mpr ⟨a, _, hrun' taken' rest' hwords hrest hlength, rfl⟩⟩
  unexpected hc hts hrun := by
    rcases bind_eq_error.mp hrun with hfirst | ⟨a, mid, hfirst, hsecond⟩
    · exact hr.unexpected hc hts hfirst
    · cases hsecond
  ended hc hts hrun := by
    rcases bind_eq_error.mp hrun with hfirst | ⟨a, mid, hfirst, hsecond⟩
    · obtain ⟨hinside, hfirst'⟩ := hr.ended hc hts hfirst
      exact ⟨hinside, fun t others ht hlength =>
        bind_eq_error.mpr (.inl (hfirst' t others ht hlength))⟩
    · cases hsecond

theorem map (hr : StaysWhen c m n e r r') (g : α → β) :
    StaysWhen c m n e (g <$> r) (g <$> r') := hr.result g

theorem ite {p : Prop} [Decidable p] {s s' : Reader α} (hr : p → StaysWhen c m n e r r')
    (hs : ¬ p → StaysWhen c m n e s s') :
    StaysWhen c m n e (if p then r else s) (if p then r' else s') := by
  split
  · exact hr ‹_›
  · exact hs ‹_›

/-! ### One token -/

/-- A rule that takes a token, and what it does with it. Where there is none it is not tried, or it
runs out of tokens; then it would refuse an inclusion. -/
theorem take {r₀ : Reader γ} {h : Token → γ} {g g' : γ → Reader β}
    (htake : ∀ t us, r₀ (t :: us) = .ok (h t, us))
    (hnil : c [] → (∃ x, r₀ [] = .error (.ended x)) ∧ ∀ t : Token, t.kind = .inclusion →
      g' (h t) = reject t)
    (hg : ∀ (t t' : Token) us, t'.word = t.word → c (t :: us) →
      Follows (fun us => c (t :: us)) m n e t t' (g (h t)) (g' (h t'))) :
    StaysWhen c m n e (r₀ >>= g) (r₀ >>= g') := by
  have hrun : ∀ (g : γ → Reader β) (t : Token) (us : List Token),
      (r₀ >>= g) (t :: us) = g (h t) us := by
    intro g t us
    simp only [Bind.bind, StateT.bind, htake, Except.bind]
  have hend : c [] → ∃ x, (r₀ >>= g) [] = .error (.ended x) := by
    intro hc
    obtain ⟨⟨x, hx⟩, -⟩ := hnil hc
    exact ⟨x, bind_eq_error.mpr (.inl hx)⟩
  refine ⟨?_, ?_, ?_⟩
  · intro ts a rest hc hlength hread
    cases ts with
    | nil =>
      obtain ⟨x, hx⟩ := hend hc
      rw [hx] at hread
      cases hread
    | cons t us =>
      rw [List.length_cons] at hlength
      rw [hrun] at hread
      obtain ⟨taken, rfl, htaken, -⟩ := (hg t t us rfl hc).ok hc (by omega) hread
      refine ⟨t :: taken, rfl, htaken, ?_⟩
      intro taken' rest' hwords hrest hlength'
      obtain ⟨t', taken', rfl, hword, hwords⟩ := List.map_eq_cons_iff.mp hwords
      rw [List.cons_append, List.length_cons] at hlength'
      rw [List.cons_append, hrun]
      obtain ⟨taken₀, hsplit, -, hread'⟩ := (hg t t' _ hword hc).ok hc (by omega) hread
      obtain rfl := List.append_cancel_right hsplit
      exact hread' taken' rest' hwords hrest (by omega)
  · intro ts u hc hlength hread
    cases ts with
    | nil =>
      obtain ⟨x, hx⟩ := hend hc
      rw [hx] at hread
      cases hread
    | cons t us =>
      rw [List.length_cons] at hlength
      rw [hrun] at hread
      exact (hg t t us rfl hc).unexpected hc (by omega) hread
  · intro ts x hc hlength hread
    cases ts with
    | nil =>
      refine ⟨inside_nil, ?_⟩
      intro u others hu _
      rw [List.nil_append, hrun, (hnil hc).2 u hu]
      rfl
    | cons t us =>
      rw [List.length_cons] at hlength
      rw [hrun] at hread
      obtain ⟨hinside, hread'⟩ := (hg t t us rfl hc).ended hc (by omega) hread
      refine ⟨hinside, ?_⟩
      intro u others hu hlength'
      rw [List.cons_append, List.length_cons] at hlength'
      rw [List.cons_append, hrun]
      exact hread' u others hu (by omega)

/-- The next token, whatever it is. -/
theorem next {x : String} {g g' : Token → Reader β}
    (hnil : c [] → ∀ value line offset,
      g' ⟨.inclusion, value, line, offset⟩ = reject ⟨.inclusion, value, line, offset⟩)
    (hg : ∀ kind value line offset line' offset', Follows (fun _ => True) m n e
      ⟨kind, value, line, offset⟩ ⟨kind, value, line', offset'⟩ (g ⟨kind, value, line, offset⟩)
      (g' ⟨kind, value, line', offset'⟩)) :
    StaysWhen c m n e (Reader.next x >>= g) (Reader.next x >>= g') := by
  refine take (h := id) (fun _ _ => rfl) (fun hc => ⟨⟨x, rfl⟩, ?_⟩) ?_
  · rintro ⟨kind, value, line, offset⟩ rfl
    exact hnil hc value line offset
  · rintro ⟨kind, value, line, offset⟩ ⟨kind', value', line', offset'⟩ us hword _
    obtain ⟨rfl, rfl⟩ := Word.mk.inj hword
    cases hg kind' value' line offset line' offset' with
    | refuse hr hr' => exact .refuse hr hr'
    | goOn ht h => exact .goOn ht (weaken h)
    | finish he ht a hr hr' => exact .finish he ht a hr hr'

/-- The next token, where it is known to end no statement. -/
theorem nextKnown {x : String} {g g' : Token → Reader β}
    (hc : ∀ ts, c ts → ∃ k, firstKind ts = some k ∧ k.endsStatement = false)
    (hg : ∀ t t' : Token, t'.word = t.word → Stays (m - 1) (n - 1) e (g t) (g' t')) :
    StaysWhen c m n e (Reader.next x >>= g) (Reader.next x >>= g') := by
  refine take (h := id) (fun _ _ => rfl) (fun hnil => ?_) fun t t' us hword hts => ?_
  · obtain ⟨k, hk, -⟩ := hc [] hnil
    cases hk
  · obtain ⟨k, hk, hends⟩ := hc _ hts
    cases hk
    exact .goOn hends (weaken (hg t t' hword))

theorem skip {s s' : Reader β}
    (hc : ∀ ts, c ts → ∃ k, firstKind ts = some k ∧ k.endsStatement = false)
    (hs : ∀ t, StaysWhen (fun us => c (t :: us)) (m - 1) (n - 1) e s s') :
    StaysWhen c m n e (Reader.skip >>= fun _ => s) (Reader.skip >>= fun _ => s') := by
  refine take (h := fun _ => ()) (fun _ _ => rfl) (fun hnil => ?_) fun t t' us _ hts => ?_
  · obtain ⟨k, hk, -⟩ := hc [] hnil
    cases hk
  · obtain ⟨k, hk, hends⟩ := hc _ hts
    cases hk
    exact .goOn hends (hs t)

theorem expect {kind : TokenKind} {g g' : Token → Reader β} (hkind : kind.endsStatement = false)
    (hg : ∀ t t' : Token, t'.word = t.word → t.kind = kind →
      Stays (m - 1) (n - 1) e (g t) (g' t')) :
    StaysWhen c m n e (Reader.expect kind >>= g) (Reader.expect kind >>= g') := by
  rw [Reader.expect, bind_assoc, bind_assoc]
  refine next (fun _ value line offset => ?_) fun k value line offset line' offset' => ?_
  · have hne : TokenKind.inclusion ≠ kind := by
      rintro rfl
      cases hkind
    simp only [if_neg hne]
    rfl
  · by_cases hk : k = kind
    · subst hk
      refine .goOn hkind ?_
      simp only [if_true, pure_bind]
      exact hg _ _ rfl rfl
    · refine .refuse ?_ ?_
      all_goals
        simp only [if_neg hk]
        rfl

theorem discard_expect {kind : TokenKind} (hkind : kind.endsStatement = false) :
    StaysWhen c m n .inside (discard (Reader.expect kind)) (discard (Reader.expect kind)) :=
  expect hkind fun _ _ _ _ => pure ()

/-- The semicolon that ends a statement. -/
theorem terminator :
    StaysWhen c m n .past (discard (Reader.expect .semicolon))
      (discard (Reader.expect .semicolon)) := by
  have hrule : discard (Reader.expect .semicolon) = (Reader.next TokenKind.semicolon.name >>= fun t =>
      if t.kind = .semicolon then Pure.pure () else reject t) := by
    funext ts
    cases ts with
    | nil => rfl
    | cons t ts =>
      obtain ⟨kind, value, line, offset⟩ := t
      cases kind <;> rfl
  rw [hrule]
  refine next (fun _ _ _ _ => rfl) fun kind value _ _ _ _ => ?_
  by_cases hkind : kind = .semicolon
  · exact .finish rfl (by rw [hkind]; rfl) () (if_pos hkind) (if_pos hkind)
  · exact .refuse (if_neg hkind) (if_neg hkind)

theorem name : StaysWhen c m n .inside Reader.name Reader.name :=
  next (fun _ _ _ _ => rfl) fun _ value _ _ _ _ => .ite
    (fun hname => .goOn (TokenKind.endsStatement_of_isName hname) (pure value)) fun _ => .refuse rfl rfl

/-! ### Looking ahead -/

/-- A rule that looks at tokens first. -/
theorem look (test : List Token → δ) (g g' : δ → Reader β)
    (htest : ∀ {us us'}, Alike us us' → g' (test us') = g' (test us))
    (hg : ∀ x, StaysWhen (fun ts => test ts = x) m n e (g x) (g' x)) :
    StaysWhen c m n e (fun ts => g (test ts) ts) (fun ts => g' (test ts) ts) where
  ok {ts a rest} _ hlength hread := by
    obtain ⟨taken, rfl, htaken, hread'⟩ := (hg _).ok rfl hlength hread
    refine ⟨taken, rfl, htaken, ?_⟩
    intro taken' rest' hwords hrest hlength'
    rw [htest (Ending.alike htaken hwords hrest)]
    exact hread' taken' rest' hwords hrest hlength'
  unexpected _ hlength hread := (hg _).unexpected rfl hlength hread
  ended {ts x} _ hlength hread := by
    obtain ⟨hinside, hread'⟩ := (hg _).ended rfl hlength hread
    refine ⟨hinside, ?_⟩
    intro t others ht hlength'
    rw [htest (.more ts (by rw [ht]; rfl) others)]
    exact hread' t others ht hlength'

theorem nextKind {g g' : Option TokenKind → Reader β} (hblind : Blind g')
    (hg : ∀ k, StaysWhen (fun ts => firstKind ts = k) m n e (g k) (g' k)) :
    StaysWhen c m n e (nextKind? >>= g) (nextKind? >>= g') :=
  look firstKind g g' (fun h => h.lookAhead hblind) hg

theorem twoKinds {g g' : Option TokenKind → Option TokenKind → Reader β} (hblind : BlindTwo g')
    (hg : ∀ k l, StaysWhen (fun ts => firstKind ts = k ∧ firstKind ts.tail = l) m n e (g k l)
      (g' k l)) :
    StaysWhen c m n e (nextKind? >>= fun k => secondKind? >>= fun l => g k l)
      (nextKind? >>= fun k => secondKind? >>= fun l => g' k l) := by
  refine look (fun ts => (firstKind ts, firstKind ts.tail)) (fun x => g x.1 x.2)
    (fun x => g' x.1 x.2) (fun h => h.lookAtTwo hblind) ?_
  intro x
  obtain ⟨k, l⟩ := x
  refine ⟨?_, ?_, ?_⟩
  · intro ts a rest heq
    exact (hg k l).ok (Prod.mk.inj heq)
  · intro ts t heq
    exact (hg k l).unexpected (Prod.mk.inj heq)
  · intro ts x heq
    exact (hg k l).ended (Prod.mk.inj heq)

/-- A choice by a test of the tokens to come. -/
theorem choice {test : List Token → Bool} {s s' : Reader α}
    (htest : ∀ {us us'}, Alike us us' → test us' = test us) (hr : Stays m n e r r')
    (hs : Stays m n e s s') :
    StaysWhen c m n e (get >>= fun ts => if test ts then r else s)
      (get >>= fun ts => if test ts then r' else s') :=
  look test (fun x => if x then r else s) (fun x => if x then r' else s') (fun h => by rw [htest h])
    fun _ => ite (fun _ => weaken hr) fun _ => weaken hs

/-- A rule with a bound by the number of tokens to come. -/
theorem bounded {g : Nat → Reader β} (hg : ∀ m n, Stays m n e (g m) (g n)) :
    StaysWhen c m n e (get >>= fun ts => g ts.length) (get >>= fun ts => g ts.length) where
  ok {ts a rest} _ _ hread := by
    obtain ⟨taken, hsplit, htaken, -⟩ := (hg ts.length n).ok trivial (Nat.le_refl _) hread
    refine ⟨taken, hsplit, htaken, ?_⟩
    intro taken' rest' hwords hrest _
    obtain ⟨taken₀, hsplit', -, hread'⟩ :=
      (hg ts.length (taken' ++ rest').length).ok trivial (Nat.le_refl _) hread
    obtain rfl := List.append_cancel_right (hsplit.symm.trans hsplit')
    exact hread' taken' rest' hwords hrest (Nat.le_refl _)
  unexpected {ts t} _ _ hread := (hg ts.length n).unexpected trivial (Nat.le_refl _) hread
  ended {ts x} _ _ hread := by
    refine ⟨((hg ts.length n).ended trivial (Nat.le_refl _) hread).1, ?_⟩
    intro t others ht _
    exact ((hg ts.length (ts ++ t :: others).length).ended trivial (Nat.le_refl _) hread).2 t others
      ht (Nat.le_refl _)

theorem accept {kind : TokenKind} {g g' : Bool → Reader β} (hkind : kind.endsStatement = false)
    (htrue : Stays (m - 1) (n - 1) e (g true) (g' true))
    (hfalse : Stays m n e (g false) (g' false)) :
    StaysWhen c m n e (Reader.accept kind >>= g) (Reader.accept kind >>= g') := by
  have hyes : ∀ (g : Bool → Reader β) (t : Token) (us : List Token), t.kind = kind →
      (Reader.accept kind >>= g) (t :: us) = g true us := by
    intro g t us ht
    simp only [Bind.bind, StateT.bind, accept_of_eq ht us, Except.bind]
  have hno : ∀ (g : Bool → Reader β) (ts : List Token), firstKind ts ≠ some kind →
      (Reader.accept kind >>= g) ts = g false ts := by
    intro g ts hts
    have haccept : Reader.accept kind ts = .ok (false, ts) := by
      refine accept_of_ne ?_
      rw [← head?_kind]
      exact hts
    simp only [Bind.bind, StateT.bind, haccept, Except.bind]
  refine ⟨?_, ?_, ?_⟩
  · intro ts a rest _ hlength hread
    by_cases hts : firstKind ts = some kind
    · obtain ⟨t, us, rfl, ht⟩ := Context.firstKind_eq_some hts
      rw [List.length_cons] at hlength
      rw [hyes g t us ht] at hread
      obtain ⟨taken, rfl, htaken, hread'⟩ := htrue.ok trivial (by omega) hread
      refine ⟨t :: taken, rfl, Ending.takes_cons (ht ▸ hkind) htaken, ?_⟩
      intro taken' rest' hwords hrest hlength'
      obtain ⟨t', taken', rfl, hword, hwords⟩ := List.map_eq_cons_iff.mp hwords
      rw [List.cons_append, List.length_cons] at hlength'
      rw [List.cons_append, hyes g' t' _ (by rw [← Token.word_kind, hword, Token.word_kind, ht])]
      exact hread' taken' rest' hwords hrest (by omega)
    · rw [hno g ts hts] at hread
      obtain ⟨taken, rfl, htaken, hread'⟩ := hfalse.ok trivial hlength hread
      refine ⟨taken, rfl, htaken, ?_⟩
      intro taken' rest' hwords hrest hlength'
      have halike := Ending.alike htaken hwords hrest
      rw [hno g' _ (halike.firstKind_ne hkind hts)]
      exact hread' taken' rest' hwords hrest hlength'
  · intro ts u _ hlength hread
    by_cases hts : firstKind ts = some kind
    · obtain ⟨t, us, rfl, ht⟩ := Context.firstKind_eq_some hts
      rw [List.length_cons] at hlength
      rw [hyes g t us ht] at hread
      obtain ⟨taken, rest, rfl, htaken⟩ := htrue.unexpected trivial (by omega) hread
      exact ⟨t :: taken, rest, rfl, inside_cons.mpr ⟨ht ▸ hkind, htaken⟩⟩
    · rw [hno g ts hts] at hread
      exact hfalse.unexpected trivial hlength hread
  · intro ts x _ hlength hread
    by_cases hts : firstKind ts = some kind
    · obtain ⟨t, us, rfl, ht⟩ := Context.firstKind_eq_some hts
      rw [List.length_cons] at hlength
      rw [hyes g t us ht] at hread
      obtain ⟨hinside, hread'⟩ := htrue.ended trivial (by omega) hread
      refine ⟨inside_cons.mpr ⟨ht ▸ hkind, hinside⟩, ?_⟩
      intro u others hu hlength'
      rw [List.cons_append, List.length_cons] at hlength'
      rw [List.cons_append, hyes g' t _ ht]
      exact hread' u others hu (by omega)
    · rw [hno g ts hts] at hread
      obtain ⟨hinside, hread'⟩ := hfalse.ended trivial hlength hread
      refine ⟨hinside, ?_⟩
      intro u others hu hlength'
      have hmore : Alike ts (ts ++ u :: others) := .more ts (by rw [hu]; rfl) others
      rw [hno g' _ (hmore.firstKind_ne hkind hts)]
      exact hread' u others hu hlength'

theorem discard_accept {kind : TokenKind} (hkind : kind.endsStatement = false) :
    StaysWhen c m n .inside (discard (Reader.accept kind)) (discard (Reader.accept kind)) := by
  have hdiscard : discard (Reader.accept kind) =
      (Reader.accept kind >>= fun _ => Pure.pure ()) := rfl
  rw [hdiscard]
  exact accept hkind (pure ()) (pure ())

/-! ### Lists -/

/-- A test that is blind where no rule goes on tells how often a rule is repeated. -/
theorem repeatWhile {more : List Token → Bool}
    (hmore : ∀ {us us'}, Alike us us' → more us' = more us) (hstart : ∀ {ts}, more ts → d ts)
    (hr : StaysWhen d m n .inside r r') :
    StaysWhen c m n .inside (Reader.repeatWhile more r) (Reader.repeatWhile more r') where
  ok {ts as rest} hc hlength hread := by
    clear hc
    fun_induction Reader.repeatWhile more r ts generalizing as rest with
    | case1 | case2 => cases hread
    | case3 ts htest a mid hitem hlt as' left hothers ih =>
      cases hread
      obtain ⟨us, rfl, hus, hitem'⟩ := hr.ok (hstart htest) hlength hitem
      rw [List.length_append] at hlength hlt
      obtain ⟨vs, rfl, hvs, hothers'⟩ := ih (by omega) hothers
      refine ⟨us ++ vs, by simp, inside_append.mpr ⟨hus, hvs⟩, ?_⟩
      intro taken' rest' hwords hrest hlength'
      rw [List.map_append] at hwords
      obtain ⟨us', vs', rfl, hus', hvs'⟩ := List.map_eq_append_iff.mp hwords
      have hmid : Alike (vs ++ left) (vs' ++ rest') := .append hvs' hrest
      have hsame : us'.length = us.length := by simpa using congrArg List.length hus'
      rw [List.append_assoc] at hlength' ⊢
      have hgo := hitem' us' _ hus' hmid hlength'
      rw [List.length_append] at hlength'
      rw [repeatWhile_step (by rw [hmore (.append hus' hmid), htest]) hgo
        (by simp only [List.length_append]; omega), hothers' vs' rest' hvs' hrest (by omega)]
      rfl
    | case4 ts htest a mid hitem hlt =>
      cases hread
      obtain ⟨us, rfl, hus, hitem'⟩ := hr.ok (hstart htest) hlength hitem
      refine ⟨us, rfl, hus, ?_⟩
      intro taken' rest' hwords hrest hlength'
      have hsame : taken'.length = us.length := by simpa using congrArg List.length hwords
      rw [List.length_append] at hlt
      rw [repeatWhile_last (by rw [hmore (.append hwords hrest), htest])
        (hitem' taken' rest' hwords hrest hlength') (by rw [List.length_append]; omega)]
    | case5 ts htest =>
      cases hread
      refine ⟨[], rfl, inside_nil, ?_⟩
      intro taken' rest' hwords hrest _
      obtain rfl := List.map_eq_nil_iff.mp hwords
      rw [List.nil_append, repeatWhile_stop]
      rw [hmore hrest]
      exact Bool.not_eq_true _ ▸ htest
  unexpected {ts t} hc hlength hread := by
    clear hc
    fun_induction Reader.repeatWhile more r ts with
    | case1 ts htest fault hitem =>
      cases hread
      exact hr.unexpected (hstart htest) hlength hitem
    | case2 ts htest a mid hitem hlt fault hothers ih =>
      cases hread
      obtain ⟨us, rfl, hus, -⟩ := hr.ok (hstart htest) hlength hitem
      rw [List.length_append] at hlength
      obtain ⟨vs, rest, rfl, hvs⟩ := ih (by omega) hothers
      exact ⟨us ++ vs, rest, by simp, inside_append.mpr ⟨hus, hvs⟩⟩
    | case3 | case4 | case5 => cases hread
  ended {ts x} hc hlength hread := by
    clear hc
    fun_induction Reader.repeatWhile more r ts with
    | case1 ts htest fault hitem =>
      cases hread
      obtain ⟨hinside, hitem'⟩ := hr.ended (hstart htest) hlength hitem
      refine ⟨hinside, ?_⟩
      intro t others ht hlength'
      have hmore' : Alike ts (ts ++ t :: others) := .more ts (by rw [ht]; rfl) others
      rw [repeatWhile_error (by rw [hmore hmore', htest]) (hitem' t others ht hlength')]
    | case2 ts htest a mid hitem hlt fault hothers ih =>
      cases hread
      obtain ⟨us, rfl, hus, hitem'⟩ := hr.ok (hstart htest) hlength hitem
      rw [List.length_append] at hlength hlt
      obtain ⟨hmid, hothers'⟩ := ih (by omega) hothers
      refine ⟨inside_append.mpr ⟨hus, hmid⟩, ?_⟩
      intro t others ht hlength'
      have hmore' : Alike mid (mid ++ t :: others) := .more mid (by rw [ht]; rfl) others
      rw [List.append_assoc] at hlength' ⊢
      have hgo := hitem' us _ rfl hmore' hlength'
      rw [List.length_append] at hlength'
      rw [repeatWhile_step (by rw [hmore (.append rfl hmore'), htest]) hgo
        (by simp only [List.length_append]; omega), hothers' t others ht (by omega)]
      rfl
    | case3 | case4 | case5 => cases hread

/-- A rule repeated while the class of the next token meets a test. -/
theorem repeatHead (test : TokenKind → Bool) (htest : Blind fun k => k.any test)
    (hr : StaysWhen (fun ts => (firstKind ts).any test) m n .inside r r') :
    StaysWhen c m n .inside (Reader.repeatWhile (fun ts => ts.head?.any fun t => test t.kind) r)
      (Reader.repeatWhile (fun ts => ts.head?.any fun t => test t.kind) r') := by
  refine repeatWhile ?_ ?_ hr
  · intro us us' h
    rw [Context.any_firstKind, Context.any_firstKind]
    exact h.lookAhead htest
  · intro ts hts
    rwa [Context.any_firstKind] at hts

theorem commaSeparated (hr : Stays m n .inside r r') :
    StaysWhen c m n .inside (Reader.commaSeparated r) (Reader.commaSeparated r') := by
  refine bind (weaken hr) fun _ => bind (repeatHead (· = .comma) ⟨rfl, rfl, rfl⟩ ?_) fun _ => pure _
  refine skip (fun ts hts => Context.firstKind_any (fun k hk => ?_) hts) fun _ => ?_
  · rw [of_decide_eq_true hk]
    rfl
  · exact weaken (hr.lower (Nat.sub_le m 1) (Nat.sub_le n 1))

theorem parenthesized (hr : Stays m n .inside r r') :
    StaysWhen c m n .inside (Reader.parenthesized r) (Reader.parenthesized r') :=
  bind (discard_expect rfl) fun _ => bind hr fun _ => bind (discard_expect rfl) fun _ => pure _

theorem nameList : StaysWhen c m n .inside Reader.nameList Reader.nameList :=
  parenthesized (commaSeparated name)

end StaysWhen

end Reader

end SchemaScript
