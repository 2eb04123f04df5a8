import SchemaScript.Proofs.Token.Concatenation
import SchemaScript.Proofs.Token.Reading

/-!
# Rules in a context

A rule of the grammar, run on tokens that stand further on in a text and have other tokens behind
them, does what it does on the tokens alone.

* `Context` — how far on the tokens stand, and what follows them.
* `Context.Guarded` — no rule that stops in front of these tokens can look at what follows them: a
  semicolon comes next, or two tokens are left, or nothing follows. A rule looks at two tokens, and
  at one where that one is a semicolon.
* `Tracks c G r r'` — where the rule `r` succeeds on some tokens, `r'` succeeds on them in the
  context `c` and gives the same, if what `r` leaves meets `G`. Where `r` fails and nothing follows,
  `r'` fails at the same token. There is one lemma for each way to build a rule.
-/

set_option autoImplicit false

namespace SchemaScript

open Reader

/-- A fault so many bytes and lines further on. -/
def Fault.moved (bytes lines : Nat) : Fault → Fault
  | .unexpected t => .unexpected (t.moved bytes lines)
  | .ended expected => .ended expected

/-! ## Contexts -/

/-- How far on in a text tokens stand, and what follows them. -/
structure Context where
  bytes : Nat
  lines : Nat
  following : List Token

namespace Context

variable {c : Context} {t : Token} {ts : List Token}

/-- The class of the first token. -/
def firstKind (ts : List Token) : Option TokenKind := ts.head?.map Token.kind

theorem any_firstKind (test : TokenKind → Bool) (ts : List Token) :
    ts.head?.any (fun t => test t.kind) = (firstKind ts).any test := by
  cases ts <;> rfl

theorem startsWith_eq (kind : TokenKind) (ts : List Token) :
    startsWith kind ts = (firstKind ts).any (· = kind) :=
  any_firstKind (· = kind) ts

/-- A token in its context. -/
def move (c : Context) (t : Token) : Token := t.moved c.bytes c.lines

/-- Tokens in their context. -/
def place (c : Context) (ts : List Token) : List Token := ts.map c.move ++ c.following

@[simp] theorem move_kind : (c.move t).kind = t.kind := rfl

@[simp] theorem move_value : (c.move t).value = t.value := rfl

theorem place_nil (h : c.following = []) : c.place [] = [] := h

theorem length_place : (c.place ts).length = ts.length + c.following.length := by
  rw [place, List.length_append, List.length_map]

theorem place_shorter {us : List Token} :
    (c.place us).length < (c.place ts).length ↔ us.length < ts.length := by
  rw [length_place, length_place]
  omega

/-- What follows some tokens is out of sight for a rule that stops in front of them. -/
def Guarded (c : Context) (ts : List Token) : Prop :=
  c.following = [] ∨ firstKind ts = some .semicolon ∨ 2 ≤ ts.length

theorem Guarded.cons (h : c.Guarded ts) : c.Guarded (t :: ts) := by
  rcases h with hnone | hsemicolon | hlength
  · exact .inl hnone
  · cases ts with
    | nil => cases hsemicolon
    | cons u us => exact .inr (.inr (by simp))
  · exact .inr (.inr (by simp only [List.length_cons]; omega))

/-- Where no token is left, nothing follows. -/
theorem Guarded.following (h : c.Guarded []) : c.following = [] := by
  rcases h with hnone | hsemicolon | hlength
  · exact hnone
  · cases hsemicolon
  · simp at hlength

/-- The class of the next token does not depend on what follows. -/
theorem Guarded.firstKind_place (h : c.Guarded ts) : firstKind (c.place ts) = firstKind ts := by
  cases ts with
  | nil => rw [place_nil h.following]
  | cons t ts => rfl

/-- Neither does the class of the token behind it, unless the next one is a semicolon. -/
theorem Guarded.secondKind_place (h : c.Guarded ts) (hne : firstKind ts ≠ some .semicolon) :
    firstKind (c.place ts).tail = firstKind ts.tail := by
  rcases h with hnone | hsemicolon | hlength
  · have hplace : c.place ts = ts.map c.move := by rw [place, hnone, List.append_nil]
    rw [hplace, ← List.map_tail]
    cases ts.tail <;> rfl
  · exact absurd hsemicolon hne
  · cases ts with
    | nil => simp at hlength
    | cons t ts =>
      cases ts with
      | nil => simp at hlength
      | cons u us => rfl

/-- A test of tokens that does not depend on what follows them. -/
def Stable {δ : Type} (c : Context) (test : List Token → δ) : Prop :=
  ∀ ts, c.Guarded ts → test (c.place ts) = test ts

theorem stable_firstKind : c.Stable firstKind := fun _ hts => hts.firstKind_place

theorem stable_head (test : TokenKind → Bool) :
    c.Stable fun ts => ts.head?.any fun t => test t.kind := by
  intro ts hts
  dsimp only
  rw [any_firstKind, any_firstKind, hts.firstKind_place]

theorem stable_startsWith (kind : TokenKind) : c.Stable (startsWith kind) := stable_head (· = kind)

theorem Stable.or {p q : List Token → Bool} (hp : c.Stable p) (hq : c.Stable q) :
    c.Stable fun ts => p ts || q ts := by
  intro ts hts
  dsimp only
  rw [hp ts hts, hq ts hts]

/-- A test of the next two tokens that asks for no more than one where that is a semicolon. -/
def LooksAtTwo {δ : Type} (g : Option TokenKind → Option TokenKind → δ) : Prop :=
  ∀ k k', g (some .semicolon) k = g (some .semicolon) k'

theorem Guarded.lookAtTwo {δ : Type} {g : Option TokenKind → Option TokenKind → δ}
    (h : c.Guarded ts) (hg : LooksAtTwo g) :
    g (firstKind (c.place ts)) (firstKind (c.place ts).tail) =
      g (firstKind ts) (firstKind ts.tail) := by
  rw [h.firstKind_place]
  by_cases hsemicolon : firstKind ts = some .semicolon
  · rw [hsemicolon]
    exact hg _ _
  · rw [h.secondKind_place hsemicolon]

end Context

/-! ## The judgment -/

namespace Reader

variable {α β δ : Type}

theorem bind_eq_error {r : Reader α} {f : α → Reader β} {ts : List Token} {e : Fault} :
    (r >>= f) ts = .error e ↔
      r ts = .error e ∨ ∃ a mid, r ts = .ok (a, mid) ∧ f a mid = .error e := by
  simp only [Bind.bind, StateT.bind, Except.bind]
  cases hr : r ts with
  | error fault => simp
  | ok result =>
    obtain ⟨a, mid⟩ := result
    constructor
    · intro hf
      exact .inr ⟨a, mid, rfl, hf⟩
    · rintro (h | ⟨a', mid', h, hf⟩)
      · cases h
      · cases h
        exact hf

theorem discard_expect_eq_ok {kind : TokenKind} {ts rest : List Token} {u : Unit} :
    discard (expect kind) ts = .ok (u, rest) ↔ ∃ t, t.kind = kind ∧ ts = t :: rest := by
  cases ts with
  | nil =>
    constructor
    · intro h
      cases h
    · rintro ⟨t, -, hts⟩
      cases hts
  | cons t ts =>
    have hrun : discard (expect kind) (t :: ts) =
        ((if t.kind = kind then Pure.pure t else reject t : Reader Token) >>=
          fun _ => Pure.pure ()) ts := rfl
    rw [hrun]
    by_cases hkind : t.kind = kind
    · rw [if_pos hkind]
      constructor
      · intro h
        cases h
        exact ⟨t, hkind, rfl⟩
      · rintro ⟨t', -, hts⟩
        cases hts
        rfl
    · rw [if_neg hkind]
      constructor
      · intro h
        cases h
      · rintro ⟨t', hkind', hts⟩
        cases hts
        exact absurd hkind' hkind

section Repetition

variable {more : List Token → Bool} {item : Reader α} {ts rest : List Token} {a : α} {e : Fault}

theorem repeatWhile_stop (htest : more ts = false) : repeatWhile more item ts = .ok ([], ts) := by
  rw [repeatWhile, htest]
  rfl

theorem repeatWhile_error (htest : more ts = true) (hitem : item ts = .error e) :
    repeatWhile more item ts = .error e := by
  rw [repeatWhile, htest, hitem]
  rfl

theorem repeatWhile_last (htest : more ts = true) (hitem : item ts = .ok (a, rest))
    (hlt : ¬ rest.length < ts.length) : repeatWhile more item ts = .ok ([a], rest) := by
  rw [repeatWhile, htest, hitem]
  exact if_neg hlt

theorem repeatWhile_step (htest : more ts = true) (hitem : item ts = .ok (a, rest))
    (hlt : rest.length < ts.length) :
    repeatWhile more item ts =
      (repeatWhile more item rest).map fun found => (a :: found.1, found.2) := by
  rw [repeatWhile, htest, hitem]
  simp only [if_true, if_pos hlt]
  cases repeatWhile more item rest <;> rfl

end Repetition

/-- A rule that takes a token first fails in a context where it fails alone, and nothing follows. -/
theorem next_error {c : Context} {e : String} {g g' : Token → Reader α} {ts : List Token}
    {fault : Fault} (hnone : c.following = [])
    (hg : ∀ t ts, g t ts = .error fault →
      g' (c.move t) (c.place ts) = .error (fault.moved c.bytes c.lines))
    (h : (next e >>= g) ts = .error fault) :
    (next e >>= g') (c.place ts) = .error (fault.moved c.bytes c.lines) := by
  cases ts with
  | nil =>
    cases h
    rw [Context.place_nil hnone]
    rfl
  | cons t ts => exact hg t ts h

/-- On tokens in the context `c` the rule `r'` does what `r` does on the tokens alone. -/
structure Tracks (c : Context) (G : List Token → Prop) (r r' : Reader α) : Prop where
  ok : ∀ {ts a rest}, r ts = .ok (a, rest) → rest.length ≤ ts.length ∧
    (G rest → c.Guarded ts ∧ r' (c.place ts) = .ok (a, c.place rest))
  error : ∀ {ts e}, r ts = .error e → c.following = [] →
    r' (c.place ts) = .error (e.moved c.bytes c.lines)

namespace Tracks

variable {c : Context} {G : List Token → Prop} {r r' : Reader α} {f f' : α → Reader β} {e : String}

theorem pure (a : α) : Tracks c c.Guarded (Pure.pure a) (Pure.pure a) where
  ok h := by
    cases h
    exact ⟨Nat.le_refl _, fun hguard => ⟨hguard, rfl⟩⟩
  error h := by cases h

theorem bind (hr : Tracks c c.Guarded r r') (hf : ∀ a, Tracks c G (f a) (f' a)) :
    Tracks c G (r >>= f) (r' >>= f') where
  ok h := by
    obtain ⟨a, mid, hfirst, hsecond⟩ := bind_eq_ok.mp h
    obtain ⟨hle, hrun⟩ := hr.ok hfirst
    obtain ⟨hle', hrun'⟩ := (hf a).ok hsecond
    refine ⟨Nat.le_trans hle' hle, ?_⟩
    intro hG
    obtain ⟨hmid, hsecond'⟩ := hrun' hG
    obtain ⟨hts, hfirst'⟩ := hrun hmid
    exact ⟨hts, bind_eq_ok.mpr ⟨a, _, hfirst', hsecond'⟩⟩
  error h hnone := by
    rcases bind_eq_error.mp h with hfirst | ⟨a, mid, hfirst, hsecond⟩
    · exact bind_eq_error.mpr (.inl (hr.error hfirst hnone))
    · obtain ⟨-, hfirst'⟩ := (hr.ok hfirst).2 (.inl hnone)
      exact bind_eq_error.mpr (.inr ⟨a, _, hfirst', (hf a).error hsecond hnone⟩)

/-- What a rule gives may be put into another form. -/
theorem result (hr : Tracks c G r r') (g : α → β) :
    Tracks c G (r >>= fun a => Pure.pure (g a)) (r' >>= fun a => Pure.pure (g a)) where
  ok h := by
    obtain ⟨a, mid, hfirst, hsecond⟩ := bind_eq_ok.mp h
    cases hsecond
    obtain ⟨hle, hrun⟩ := hr.ok hfirst
    exact ⟨hle, fun hG => ⟨(hrun hG).1, bind_eq_ok.mpr ⟨a, _, (hrun hG).2, rfl⟩⟩⟩
  error h hnone := by
    rcases bind_eq_error.mp h with hfirst | ⟨a, mid, hfirst, hsecond⟩
    · exact bind_eq_error.mpr (.inl (hr.error hfirst hnone))
    · cases hsecond

theorem map (hr : Tracks c G r r') (g : α → β) : Tracks c G (g <$> r) (g <$> r') :=
  hr.result g

/-- Where a rule runs out of tokens, so does one that may go further, if nothing follows. -/
theorem ended {expected : String} (hr : c.following = [] → r' = throw (.ended expected)) :
    Tracks c G (throw (.ended expected)) r' where
  ok h := by cases h
  error h hnone := by
    cases h
    rw [hr hnone]
    rfl

theorem reject (t : Token) : Tracks c G (reject t : Reader α) (reject (c.move t)) where
  ok h := by cases h
  error h _ := by
    cases h
    rfl

theorem reject_bind (t : Token) :
    Tracks c G ((Reader.reject t : Reader α) >>= f) (Reader.reject (c.move t) >>= f') where
  ok h := by cases h
  error h _ := by
    cases h
    rfl

/-! ### One token -/

theorem next {g g' : Token → Reader β} (hg : ∀ t, Tracks c G (g t) (g' (c.move t))) :
    Tracks c G (next e >>= g) (Reader.next e >>= g') where
  ok {ts a rest} h := by
    cases ts with
    | nil => cases h
    | cons t ts =>
      obtain ⟨hle, hrun⟩ := (hg t).ok h
      refine ⟨Nat.le_succ_of_le hle, ?_⟩
      intro hG
      exact ⟨(hrun hG).1.cons, (hrun hG).2⟩
  error h hnone := next_error hnone (fun t _ hfault => (hg t).error hfault hnone) h

theorem expect {kind : TokenKind} {g g' : Token → Reader β}
    (hg : ∀ t, t.kind = kind → Tracks c G (g t) (g' (c.move t))) :
    Tracks c G (expect kind >>= g) (Reader.expect kind >>= g') := by
  rw [Reader.expect, bind_assoc, bind_assoc]
  refine next fun t => ?_
  rw [Context.move_kind]
  by_cases hkind : t.kind = kind
  · rw [if_pos hkind, if_pos hkind, pure_bind, pure_bind]
    exact hg t hkind
  · rw [if_neg hkind, if_neg hkind]
    exact reject t

theorem discard_expect (kind : TokenKind) :
    Tracks c c.Guarded (discard (Reader.expect kind)) (discard (Reader.expect kind)) := by
  have hdiscard : discard (Reader.expect kind) =
      (Reader.expect kind >>= fun _ => Pure.pure ()) := rfl
  rw [hdiscard]
  exact expect fun _ _ => pure ()

/-- A semicolon guards what stands in front of it, whatever comes behind it. -/
theorem terminator :
    Tracks c (fun _ => True) (discard (Reader.expect .semicolon))
      (discard (Reader.expect .semicolon)) where
  ok {ts a rest} h := by
    obtain ⟨t, hkind, rfl⟩ := discard_expect_eq_ok.mp h
    have hguard : c.Guarded (t :: rest) := .inr (.inl (congrArg some hkind))
    exact ⟨Nat.le_succ _, fun _ => ⟨hguard, discard_expect_eq_ok.mpr ⟨c.move t, hkind, rfl⟩⟩⟩
  error h hnone := (discard_expect .semicolon).error h hnone

theorem name : Tracks c c.Guarded name name := by
  refine next fun t => ?_
  rw [Context.move_kind, Context.move_value]
  split
  · exact pure _
  · exact reject t

/-! ### Looking ahead -/

theorem ite {p : Prop} [Decidable p] {s s' : Reader α} (hr : Tracks c G r r')
    (hs : Tracks c G s s') : Tracks c G (if p then r else s) (if p then r' else s') := by
  split
  · exact hr
  · exact hs

/-- A rule that looks at tokens first. -/
theorem look (g g' : δ → Reader β) {test : List Token → δ}
    (htest : c.Stable test) (hg : ∀ d, Tracks c G (g d) (g' d)) :
    Tracks c G (fun ts => g (test ts) ts) (fun ts => g' (test ts) ts) where
  ok {ts a rest} h := by
    obtain ⟨hle, hrun⟩ := (hg _).ok h
    refine ⟨hle, ?_⟩
    intro hG
    obtain ⟨hts, hrun'⟩ := hrun hG
    exact ⟨hts, by rw [htest ts hts]; exact hrun'⟩
  error {ts fault} h hnone := by
    rw [htest ts (.inl hnone)]
    exact (hg _).error h hnone

theorem nextKind {g g' : Option TokenKind → Reader β} (hg : ∀ k, Tracks c G (g k) (g' k)) :
    Tracks c G (nextKind? >>= g) (nextKind? >>= g') :=
  look g g' Context.stable_firstKind hg

theorem twoKinds {g g' : Option TokenKind → Option TokenKind → Reader β}
    (hg : ∀ k l, Tracks c G (g k l) (g' k l)) (hlook : Context.LooksAtTwo g') :
    Tracks c G (nextKind? >>= fun k => secondKind? >>= fun l => g k l)
      (nextKind? >>= fun k => secondKind? >>= fun l => g' k l) where
  ok {ts a rest} h := by
    obtain ⟨hle, hrun⟩ := (hg _ _).ok h
    refine ⟨hle, ?_⟩
    intro hG
    obtain ⟨hts, hrun'⟩ := hrun hG
    exact ⟨hts, (congrFun (hts.lookAtTwo hlook) _).trans hrun'⟩
  error {ts fault} h hnone :=
    (congrFun (Context.Guarded.lookAtTwo (.inl hnone) hlook) _).trans ((hg _ _).error h hnone)

/-- A choice by a test of the tokens to come. -/
theorem choice {test : List Token → Bool} {s s' : Reader α}
    (htest : c.Stable test) (hr : Tracks c G r r') (hs : Tracks c G s s') :
    Tracks c G (get >>= fun ts => if test ts then r else s)
      (get >>= fun ts => if test ts then r' else s') :=
  look (fun d => if d then r else s) (fun d => if d then r' else s') htest fun _ => ite hr hs

/-- A rule with a bound by the number of tokens to come. What follows the tokens raises the
bound. -/
theorem bounded {g : Nat → Reader β}
    (hg : ∀ n, Tracks c G (g n) (g (n + c.following.length))) :
    Tracks c G (get >>= fun ts => g ts.length) (get >>= fun ts => g ts.length) where
  ok {ts a rest} h := by
    obtain ⟨hle, hrun⟩ := (hg ts.length).ok h
    rw [← Context.length_place] at hrun
    exact ⟨hle, hrun⟩
  error {ts fault} h hnone := by
    have hrun := (hg ts.length).error h hnone
    rw [← Context.length_place] at hrun
    exact hrun

theorem skip : Tracks c c.Guarded skip skip where
  ok {ts a rest} h := by
    cases h
    cases ts with
    | nil =>
      refine ⟨Nat.le_refl _, ?_⟩
      intro hguard
      have hnone := hguard.following
      rw [List.tail_nil, Context.place_nil hnone]
      exact ⟨hguard, rfl⟩
    | cons t ts => exact ⟨Nat.le_succ _, fun hguard => ⟨hguard.cons, rfl⟩⟩
  error h := by cases h

theorem accept (kind : TokenKind) : Tracks c c.Guarded (accept kind) (accept kind) := by
  refine nextKind fun k => ?_
  split
  · exact bind skip fun _ => pure true
  · exact pure false

/-! ### Lists -/

/-- A test that needs no token behind what is left tells how often a rule is repeated. -/
theorem repeatWhile {more : List Token → Bool} (hmore : c.Stable more)
    (hr : Tracks c c.Guarded r r') :
    Tracks c c.Guarded (repeatWhile more r) (Reader.repeatWhile more r') where
  ok {ts as rest} h := by
    fun_induction Reader.repeatWhile more r ts generalizing as rest with
    | case1 | case2 => cases h
    | case3 ts htest a mid hitem hlt as' rest' hothers ih =>
      cases h
      obtain ⟨hle, hrun⟩ := ih hothers
      obtain ⟨hle', hrun'⟩ := hr.ok hitem
      refine ⟨Nat.le_trans hle hle', ?_⟩
      intro hguard
      obtain ⟨hmid, hothers'⟩ := hrun hguard
      obtain ⟨hts, hitem'⟩ := hrun' hmid
      refine ⟨hts, ?_⟩
      rw [repeatWhile_step (by rw [hmore ts hts, htest]) hitem' (c.place_shorter.mpr hlt), hothers']
      rfl
    | case4 ts htest a mid hitem hlt =>
      cases h
      obtain ⟨hle, hrun⟩ := hr.ok hitem
      refine ⟨hle, ?_⟩
      intro hguard
      obtain ⟨hts, hitem'⟩ := hrun hguard
      refine ⟨hts, ?_⟩
      rw [repeatWhile_last (by rw [hmore ts hts, htest]) hitem' (mt c.place_shorter.mp hlt)]
    | case5 ts htest =>
      cases h
      refine ⟨Nat.le_refl _, ?_⟩
      intro hguard
      refine ⟨hguard, ?_⟩
      rw [repeatWhile_stop (by rw [hmore ts hguard]; exact Bool.not_eq_true _ ▸ htest)]
  error {ts fault} h hnone := by
    have hguard : ∀ us, c.Guarded us := fun _ => .inl hnone
    fun_induction Reader.repeatWhile more r ts with
    | case1 ts htest fault' hitem =>
      cases h
      rw [repeatWhile_error (by rw [hmore ts (hguard _), htest]) (hr.error hitem hnone)]
    | case2 ts htest a mid hitem hlt fault' hothers ih =>
      cases h
      obtain ⟨-, hitem'⟩ := (hr.ok hitem).2 (hguard _)
      rw [repeatWhile_step (by rw [hmore ts (hguard _), htest]) hitem' (c.place_shorter.mpr hlt),
        ih hothers]
      rfl
    | case3 | case4 | case5 => cases h

theorem commaSeparated (hr : Tracks c c.Guarded r r') :
    Tracks c c.Guarded (commaSeparated r) (Reader.commaSeparated r') :=
  bind hr fun _ => bind (repeatWhile (Context.stable_startsWith _) (bind skip fun _ => hr)) fun _ =>
    pure _

theorem parenthesized (hr : Tracks c c.Guarded r r') :
    Tracks c c.Guarded (parenthesized r) (Reader.parenthesized r') :=
  bind (discard_expect _) fun _ => bind hr fun _ => bind (discard_expect _) fun _ => pure _

theorem nameList : Tracks c c.Guarded nameList nameList := parenthesized (commaSeparated name)

end Tracks

/-! ## Rules that need nothing of what they leave -/

/-- The rule `r` takes `n` tokens or more, and in the context `c` the rule `r'` does what `r` does,
whatever is left. -/
structure Carries (c : Context) (n : Nat) (r r' : Reader α) : Prop where
  ok : ∀ {ts a rest}, r ts = .ok (a, rest) →
    rest.length + n ≤ ts.length ∧ r' (c.place ts) = .ok (a, c.place rest)
  error : ∀ {ts e}, r ts = .error e → c.following = [] →
    r' (c.place ts) = .error (e.moved c.bytes c.lines)

variable {c : Context} {r r' : Reader α}

theorem Tracks.carries (h : Tracks c (fun _ => True) r r') : Carries c 0 r r' where
  ok hrun := ⟨(h.ok hrun).1, ((h.ok hrun).2 trivial).2⟩
  error := h.error

namespace Carries

theorem pure (a : α) : Carries c 0 (Pure.pure a) (Pure.pure a) where
  ok h := by
    cases h
    exact ⟨Nat.le_refl _, rfl⟩
  error h := by cases h

theorem next {n : Nat} {e : String} {g g' : Token → Reader β}
    (hg : ∀ t, Carries c n (g t) (g' (c.move t))) :
    Carries c (n + 1) (next e >>= g) (Reader.next e >>= g') where
  ok {ts a rest} h := by
    cases ts with
    | nil => cases h
    | cons t ts =>
      obtain ⟨hle, hrun⟩ := (hg t).ok h
      exact ⟨Nat.succ_le_succ hle, hrun⟩
  error h hnone := next_error hnone (fun t _ hfault => (hg t).error hfault hnone) h

/-- Where nothing follows, there is nothing to guard against. -/
theorem tracks {n : Nat} (h : Carries c n r r') (hnone : c.following = []) :
    Tracks c c.Guarded r r' where
  ok hrun := ⟨Nat.le_of_add_right_le (h.ok hrun).1, fun _ => ⟨.inl hnone, (h.ok hrun).2⟩⟩
  error := h.error

end Carries

end Reader

end SchemaScript
