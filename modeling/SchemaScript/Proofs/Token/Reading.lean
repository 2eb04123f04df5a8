import SchemaScript.Proofs.Token.Word
import SchemaScript.Token.Reader

/-!
# Reading words

Two judgments on the rules of the grammar, each with one lemma for each way to build a rule.

* `RunsTo r ws a vs` — on tokens that are the words `ws`, the rule `r` gives `a` and leaves the
  words `vs`. It says what a rule accepts.
* `Consumes L r P` — whenever `r` succeeds on tokens of the class `L`, the words it has taken and
  what it gives are related by `P`. It says what a rule can give. -/

set_option autoImplicit false

namespace SchemaScript

namespace Reader

variable {α β : Type}

/-- The class of the first of some words. -/
def kindOf (ws : List Word) : Option TokenKind := ws.head?.map Word.kind

@[simp] theorem kindOf_nil : kindOf [] = none := rfl

@[simp] theorem kindOf_cons (w : Word) (ws : List Word) : kindOf (w :: ws) = some w.kind := rfl

theorem head?_kind (ts : List Token) :
    ts.head?.map Token.kind = kindOf (ts.map Token.word) := by
  cases ts <;> rfl

theorem bind_eq_ok {r : Reader α} {f : α → Reader β} {ts rest : List Token} {b : β} :
    (r >>= f) ts = .ok (b, rest) ↔ ∃ a mid, r ts = .ok (a, mid) ∧ f a mid = .ok (b, rest) := by
  simp only [Bind.bind, StateT.bind, Except.bind]
  constructor
  · intro h
    split at h
    · cases h
    · exact ⟨_, _, ‹_›, h⟩
  · rintro ⟨a, mid, hr, hf⟩
    rw [hr]
    exact hf

theorem accept_of_ne {kind : TokenKind} {ts : List Token}
    (h : kindOf (ts.map Token.word) ≠ some kind) : accept kind ts = .ok (false, ts) := by
  have haccept : accept kind ts =
      (if ts.head?.map Token.kind = some kind then do skip; return true else return false :
        Reader Bool) ts := rfl
  rw [haccept, head?_kind, if_neg h]
  rfl

/-! ## What a rule accepts -/

/-- On any tokens that are the words `ws`, a rule gives `a` and leaves the words `vs`. -/
def RunsTo (r : Reader α) (ws : List Word) (a : α) (vs : List Word) : Prop :=
  ∀ ts : List Token, ts.map Token.word = ws →
    ∃ rest : List Token, rest.map Token.word = vs ∧ r ts = .ok (a, rest)

/-- A test of tokens answers `b` on any tokens that are the words `ws`. -/
def Answers (test : List Token → Bool) (ws : List Word) (b : Bool) : Prop :=
  ∀ ts : List Token, ts.map Token.word = ws → test ts = b

namespace RunsTo

variable {r : Reader α} {f : α → Reader β} {a : α} {b : β} {us vs ws : List Word} {w : Word}

theorem pure (a : α) (ws : List Word) : RunsTo (pure a) ws a ws :=
  fun ts hts => ⟨ts, hts, rfl⟩

theorem bind (hr : RunsTo r us a vs) (hf : RunsTo (f a) vs b ws) : RunsTo (r >>= f) us b ws := by
  intro ts hts
  obtain ⟨rest, hrest, hrun⟩ := hr ts hts
  obtain ⟨rest', hrest', hrun'⟩ := hf rest hrest
  exact ⟨rest', hrest', bind_eq_ok.mpr ⟨a, rest, hrun, hrun'⟩⟩

theorem map {g : α → β} (hr : RunsTo r us a vs) : RunsTo (g <$> r) us (g a) vs := by
  intro ts hts
  obtain ⟨rest, hrest, hrun⟩ := hr ts hts
  refine ⟨rest, hrest, ?_⟩
  simp only [Functor.map, StateT.map, hrun, Bind.bind, Except.bind]
  rfl

theorem of_map {g : α → β} (hg : ∀ a a', g a = g a' → a = a') (hr : RunsTo (g <$> r) us (g a) vs) :
    RunsTo r us a vs := by
  intro ts hts
  obtain ⟨rest, hrest, hrun⟩ := hr ts hts
  obtain ⟨a', mid, ha', hpure⟩ := (bind_eq_ok (f := fun a => Pure.pure (g a))).mp hrun
  obtain ⟨heq, rfl⟩ := Prod.mk.inj (Except.ok.inj hpure)
  exact ⟨mid, hrest, by rw [ha', hg _ _ heq]⟩

theorem next {e : String} {g : Token → Reader β}
    (hg : ∀ t : Token, t.word = w → RunsTo (g t) ws b vs) :
    RunsTo (next e >>= g) (w :: ws) b vs := by
  intro ts hts
  cases ts with
  | nil => cases hts
  | cons t ts =>
    rw [List.map_cons, List.cons.injEq] at hts
    exact hg t hts.1 ts hts.2

/-- The next token, given that it is a keyword. -/
theorem nextWord {e : String} {g : Token → Reader β} {k : Keyword}
    (hg : ∀ t : Token, t.kind = .keyword k → RunsTo (g t) ws b vs) :
    RunsTo (Reader.next e >>= g) (k.word :: ws) b vs :=
  next fun t ht => hg t (by rw [← Token.word_kind, ht, Keyword.word_kind])

theorem expect {kind : TokenKind} {g : Token → Reader β} (hw : w.kind = kind)
    (hg : ∀ t : Token, t.word = w → RunsTo (g t) ws b vs) :
    RunsTo (expect kind >>= g) (w :: ws) b vs := by
  rw [Reader.expect, bind_assoc]
  refine next fun t ht => ?_
  rw [if_pos (by rw [← Token.word_kind, ht, hw]), pure_bind]
  exact hg t ht

theorem discard_expect {kind : TokenKind} (hw : w.kind = kind) :
    RunsTo (discard (Reader.expect kind)) (w :: ws) () ws := by
  have : discard (Reader.expect kind) = (Reader.expect kind >>= fun _ => Pure.pure ()) := rfl
  rw [this]
  exact expect hw fun _ _ => pure () ws

theorem nextKind {g : Option TokenKind → Reader β} (hg : RunsTo (g (kindOf ws)) ws b vs) :
    RunsTo (nextKind? >>= g) ws b vs := by
  refine bind (fun ts hts => ⟨ts, hts, ?_⟩) hg
  rw [← hts, ← head?_kind]
  rfl

theorem secondKind {g : Option TokenKind → Reader β} (hg : RunsTo (g (kindOf ws.tail)) ws b vs) :
    RunsTo (secondKind? >>= g) ws b vs := by
  refine bind (fun ts hts => ⟨ts, hts, ?_⟩) hg
  rw [← hts, ← List.map_tail, ← head?_kind]
  rfl

theorem skip : RunsTo skip (w :: ws) () ws := by
  intro ts hts
  cases ts with
  | nil => cases hts
  | cons t ts => exact ⟨ts, (List.cons.inj hts).2, rfl⟩

/-- Taking a token that comes next. -/
theorem accept {kind : TokenKind} {g : Bool → Reader β} (hw : w.kind = kind)
    (hg : RunsTo (g true) ws b vs) : RunsTo (accept kind >>= g) (w :: ws) b vs := by
  refine bind ?_ hg
  refine nextKind ?_
  rw [kindOf_cons, if_pos (by rw [hw])]
  exact bind skip (pure true ws)

theorem discard_accept {kind : TokenKind} (hw : w.kind = kind) :
    RunsTo (discard (Reader.accept kind)) (w :: ws) () ws := by
  have : discard (Reader.accept kind) = (Reader.accept kind >>= fun _ => Pure.pure ()) := rfl
  rw [this]
  exact accept hw (pure () ws)

/-- Not taking a token that does not come next. -/
theorem pass {kind : TokenKind} {g : Bool → Reader β} (hw : kindOf ws ≠ some kind)
    (hg : RunsTo (g false) ws b vs) : RunsTo (Reader.accept kind >>= g) ws b vs := by
  refine bind ?_ hg
  refine nextKind ?_
  rw [if_neg hw]
  exact pure false ws

/-- A choice by a test of all the tokens to come. -/
theorem choice {test : List Token → Bool} {d : Bool} {yes no : Reader β} (htest : Answers test ws d)
    (h : RunsTo (if d then yes else no) ws b vs) :
    RunsTo (get >>= fun ts => if test ts then yes else no) ws b vs := by
  intro ts hts
  obtain ⟨rest, hrest, hrun⟩ := h ts hts
  refine ⟨rest, hrest, ?_⟩
  rw [← htest ts hts] at hrun
  exact hrun

/-- A name. -/
theorem name {n : String} (hw : w.kind.isName) (hv : w.value = n) :
    RunsTo name (w :: ws) n ws := by
  refine next fun t ht => ?_
  rw [if_pos (by rw [← Token.word_kind, ht]; exact hw)]
  rw [show t.value = n by rw [← Token.word_value, ht, hv]]
  exact pure n ws

/-! ### Lists -/

section Lists

variable {more : List Token → Bool} {item : Reader α} {wordsOf : α → List Word} {xs : List α}
  {F : List Word → Prop}

theorem repeatWhile_nil (hstop : Answers more vs false) : RunsTo (repeatWhile more item) vs [] vs := by
  intro ts hts
  refine ⟨ts, hts, ?_⟩
  rw [Reader.repeatWhile, hstop ts hts]
  rfl

theorem repeatWhile_cons {x : α} (hmore : Answers more us true) (hx : RunsTo item us x vs)
    (hlt : vs.length < us.length) (hxs : RunsTo (repeatWhile more item) vs xs ws) :
    RunsTo (repeatWhile more item) us (x :: xs) ws := by
  intro ts hts
  obtain ⟨rest, hrest, hrun⟩ := hx ts hts
  obtain ⟨rest', hrest', hrun'⟩ := hxs rest hrest
  have hlength : rest.length < ts.length := by
    have h1 := congrArg List.length hts
    have h2 := congrArg List.length hrest
    rw [List.length_map] at h1 h2
    omega
  refine ⟨rest', hrest', ?_⟩
  rw [Reader.repeatWhile, hmore ts hts, hrun]
  simp [hlength, hrun']

/-- Items one after the other. `F` is what an item needs of the words behind it. -/
theorem repeatWhile (hitem : ∀ x ∈ xs, ∀ us, F us → RunsTo item (wordsOf x ++ us) x us)
    (hmore : ∀ x ∈ xs, ∀ us, Answers more (wordsOf x ++ us) true)
    (hfollow : ∀ x ∈ xs, ∀ us, F (wordsOf x ++ us)) (hne : ∀ x ∈ xs, wordsOf x ≠ [])
    (hstop : Answers more vs false) (hvs : F vs) :
    RunsTo (repeatWhile more item) (xs.flatMap wordsOf ++ vs) xs vs := by
  induction xs with
  | nil => exact repeatWhile_nil hstop
  | cons x xs ih =>
    rw [List.flatMap_cons, List.append_assoc]
    refine repeatWhile_cons (hmore x (by simp) _) (hitem x (by simp) _ ?_) ?_ (ih ?_ ?_ ?_ ?_)
    · cases xs with
      | nil => exact hvs
      | cons y ys =>
        rw [List.flatMap_cons, List.append_assoc]
        exact hfollow y (by simp) _
    · have := List.length_pos_iff.mpr (hne x (by simp))
      simp only [List.length_append]
      omega
    · exact fun y hy => hitem y (by simp [hy])
    · exact fun y hy => hmore y (by simp [hy])
    · exact fun y hy => hfollow y (by simp [hy])
    · exact fun y hy => hne y (by simp [hy])

theorem answers_startsWith {kind : TokenKind} :
    Answers (startsWith kind) ws (decide (kindOf ws = some kind)) := by
  intro ts hts
  rw [← hts]
  cases ts <;> simp [startsWith]

theorem answers_head {test : TokenKind → Bool} :
    Answers (fun ts => ts.head?.any fun t => test t.kind) ws ((kindOf ws).any test) := by
  intro ts hts
  rw [← hts]
  cases ts <;> rfl

/-- Items with commas between them. -/
theorem commaSeparated (hxs : xs ≠ [])
    (hitem : ∀ x ∈ xs, ∀ us, F us → RunsTo item (wordsOf x ++ us) x us)
    (hcomma : ∀ us, F (Word.comma :: us)) (hstop : kindOf vs ≠ some .comma) (hvs : F vs) :
    RunsTo (commaSeparated item) ([Word.comma].intercalate (xs.map wordsOf) ++ vs) xs vs := by
  have htail : ∀ ys : List α, (∀ y ∈ ys, y ∈ xs) →
      RunsTo (Reader.repeatWhile (startsWith .comma) (do Reader.skip; item))
        (ys.flatMap (fun y => Word.comma :: wordsOf y) ++ vs) ys vs := by
    intro ys hys
    refine repeatWhile (F := F) ?_ ?_ ?_ ?_ ?_ hvs
    · exact fun y hy us hus => bind skip (hitem y (hys y hy) us hus)
    · intro y _ us ts hts
      rw [answers_startsWith ts hts]
      rfl
    · exact fun y _ us => hcomma _
    · exact fun y _ => List.cons_ne_nil _ _
    · intro ts hts
      rw [answers_startsWith ts hts, decide_eq_false hstop]
  cases xs with
  | nil => exact absurd rfl hxs
  | cons x ys =>
    rw [List.intercalate_cons_map, List.append_assoc]
    refine bind (hitem x (by simp) _ ?_) (bind (htail ys fun y hy => by simp [hy]) (pure _ _))
    cases ys with
    | nil => exact hvs
    | cons y ys => exact hcomma _

theorem parenthesized {inside : Reader α} (hinside : RunsTo inside us a (Word.rparen :: vs)) :
    RunsTo (parenthesized inside) (Word.lparen :: us) a vs :=
  bind (discard_expect rfl) (bind hinside (bind (discard_expect rfl) (pure a vs)))

end Lists

end RunsTo

/-! ## What a rule can give -/

/-- Whenever a rule succeeds on tokens of the class `L`, the first of a class that meets `c`, then
the words it takes and what it gives are related by `P`. -/
def ConsumesWhen (c : Option TokenKind → Prop) (L : Word → Prop) (r : Reader α)
    (P : List Word → α → Prop) : Prop :=
  ∀ (ts : List Token) (a : α) (rest : List Token), (∀ t ∈ ts, L t.word) →
    c (kindOf (ts.map Token.word)) → r ts = .ok (a, rest) →
    ∃ taken, ts = taken ++ rest ∧ P (taken.map Token.word) a

/-- `ConsumesWhen`, whatever the first token. -/
abbrev Consumes (L : Word → Prop) (r : Reader α) (P : List Word → α → Prop) : Prop :=
  ConsumesWhen (fun _ => True) L r P

namespace ConsumesWhen

variable {c : Option TokenKind → Prop} {L : Word → Prop} {r : Reader α} {f : α → Reader β}
  {P : List Word → α → Prop} {Q : List Word → β → Prop}

theorem weaken (h : Consumes L r P) : ConsumesWhen c L r P :=
  fun ts a rest hL _ => h ts a rest hL trivial

theorem imp {P' : List Word → α → Prop} (h : ConsumesWhen c L r P)
    (himp : ∀ ws a, P ws a → P' ws a) : ConsumesWhen c L r P' := by
  intro ts a rest hL hc hrun
  obtain ⟨taken, hts, hP⟩ := h ts a rest hL hc hrun
  exact ⟨taken, hts, himp _ _ hP⟩

/-- The words that a rule takes are of the class of all words. -/
theorem taken (h : ConsumesWhen c L r P) :
    ConsumesWhen c L r fun ws a => P ws a ∧ ∀ w ∈ ws, L w := by
  intro ts a rest hL hc hrun
  obtain ⟨taken, rfl, hP⟩ := h ts a rest hL hc hrun
  refine ⟨taken, rfl, hP, ?_⟩
  intro w hw
  obtain ⟨t, ht, rfl⟩ := List.mem_map.mp hw
  exact hL t (by simp [ht])

theorem pure {a : α} (h : P [] a) : ConsumesWhen c L (pure a) P := by
  intro ts a' rest _ _ hrun
  cases hrun
  exact ⟨[], rfl, h⟩

theorem bind (hr : ConsumesWhen c L r P)
    (hf : ∀ us a, P us a → Consumes L (f a) fun vs b => Q (us ++ vs) b) :
    ConsumesWhen c L (r >>= f) Q := by
  intro ts b rest hL hc hrun
  obtain ⟨a, mid, ha, hb⟩ := bind_eq_ok.mp hrun
  obtain ⟨taken, rfl, hP⟩ := hr ts a mid hL hc ha
  obtain ⟨taken', rfl, hQ⟩ := hf _ a hP mid b rest (fun t ht => hL t (by simp [ht])) trivial hb
  exact ⟨taken ++ taken', by simp, by simpa using hQ⟩

theorem map {g : α → β} (h : ConsumesWhen c L r fun ws a => Q ws (g a)) :
    ConsumesWhen c L (g <$> r) Q := by
  have hmap : (g <$> r) = (r >>= fun a => Pure.pure (g a)) := rfl
  rw [hmap]
  exact bind h fun us a hP => pure (by simpa using hP)

theorem reject {t : Token} : ConsumesWhen c L (reject t) P := by
  intro ts a rest _ _ hrun
  cases hrun

theorem next {e : String} {g : Token → Reader β}
    (hg : ∀ t : Token, L t.word → c (some t.kind) →
      Consumes L (g t) fun vs b => Q (t.word :: vs) b) :
    ConsumesWhen c L (next e >>= g) Q := by
  intro ts b rest hL hc hrun
  cases ts with
  | nil => cases hrun
  | cons t ts =>
    obtain ⟨taken, rfl, hQ⟩ := hg t (hL t (by simp)) hc ts b rest (fun t ht => hL t (by simp [ht]))
      trivial hrun
    exact ⟨t :: taken, rfl, hQ⟩

theorem expect {kind : TokenKind} {g : Token → Reader β}
    (hg : ∀ t : Token, L t.word → t.kind = kind →
      Consumes L (g t) fun vs b => Q (t.word :: vs) b) :
    ConsumesWhen c L (expect kind >>= g) Q := by
  rw [Reader.expect, bind_assoc]
  refine next fun t ht _ => ?_
  by_cases hk : t.kind = kind
  · rw [if_pos hk, pure_bind]
    exact hg t ht hk
  · rw [if_neg hk]
    exact bind (P := fun _ _ => False) reject fun _ _ h => h.elim

theorem discard_expect {kind : TokenKind} :
    ConsumesWhen c L (discard (Reader.expect kind)) fun ws _ => ∃ w, ws = [w] ∧ L w ∧ w.kind = kind := by
  have h : discard (Reader.expect kind) = (Reader.expect kind >>= fun _ => Pure.pure ()) := rfl
  rw [h]
  exact expect fun t ht hk => pure ⟨t.word, rfl, ht, hk⟩

theorem name : ConsumesWhen c L name fun ws n =>
    ∃ w, ws = [w] ∧ L w ∧ w.kind.isName ∧ w.value = n := by
  refine next fun t ht _ => ?_
  split
  · rename_i hk
    exact pure ⟨t.word, rfl, ht, hk, rfl⟩
  · exact reject

theorem nextKind {g : Option TokenKind → Reader β}
    (hg : ∀ k, c k → ConsumesWhen (· = k) L (g k) Q) : ConsumesWhen c L (nextKind? >>= g) Q := by
  intro ts b rest hL hc hrun
  refine hg _ hc ts b rest hL rfl ?_
  rw [← head?_kind]
  exact hrun

theorem secondKind {g : Option TokenKind → Reader β} (hg : ∀ k, ConsumesWhen c L (g k) Q) :
    ConsumesWhen c L (secondKind? >>= g) Q :=
  fun ts b rest hL hc hrun => hg _ ts b rest hL hc hrun

theorem skip {r : Reader β} (hc : ¬ c none)
    (hr : ∀ w, L w → c (some w.kind) → Consumes L r fun vs b => Q (w :: vs) b) :
    ConsumesWhen c L (skip >>= fun _ => r) Q := by
  intro ts b rest hL hcs hrun
  cases ts with
  | nil => exact absurd hcs hc
  | cons t ts =>
    obtain ⟨taken, rfl, hQ⟩ := hr t.word (hL t (by simp)) hcs ts b rest
      (fun t ht => hL t (by simp [ht])) trivial hrun
    exact ⟨t :: taken, rfl, hQ⟩

theorem accept {kind : TokenKind} {g : Bool → Reader β}
    (htrue : ∀ w, L w → w.kind = kind → Consumes L (g true) fun vs b => Q (w :: vs) b)
    (hfalse : ConsumesWhen c L (g false) Q) : ConsumesWhen c L (accept kind >>= g) Q := by
  rw [Reader.accept, bind_assoc]
  refine nextKind fun k hk => ?_
  split
  · rename_i heq
    subst heq
    rw [bind_assoc]
    refine skip (by simp) fun w hw hwk => ?_
    rw [pure_bind]
    exact htrue w hw (Option.some.inj hwk)
  · rw [pure_bind]
    intro ts b rest hL hc hrun
    exact hfalse ts b rest hL (hc ▸ hk) hrun

theorem discard_accept {kind : TokenKind} :
    ConsumesWhen c L (discard (Reader.accept kind)) fun _ _ => True := by
  have h : discard (Reader.accept kind) = (Reader.accept kind >>= fun _ => Pure.pure ()) := rfl
  rw [h]
  exact accept (fun _ _ _ => pure trivial) (pure trivial)

/-- A choice by a test of all the tokens to come, which tells more of what is read next. -/
theorem choice {test : List Token → Bool} {no : Reader β}
    (hr : ∀ ts a rest, (∀ t ∈ ts, L t.word) → test ts = true → r ts = .ok (a, rest) →
      ∃ taken, ts = taken ++ rest ∧ P (taken.map Token.word) a)
    (hf : ∀ us a, P us a → Consumes L (f a) fun vs b => Q (us ++ vs) b)
    (hno : ConsumesWhen c L no Q) :
    ConsumesWhen c L (get >>= fun ts => if test ts then r >>= f else no) Q := by
  intro ts b rest hL hc hrun
  have hrun' : (if test ts then r >>= f else no) ts = .ok (b, rest) := hrun
  split at hrun'
  · rename_i htest
    obtain ⟨a, mid, hmid, hb⟩ := bind_eq_ok.mp hrun'
    obtain ⟨taken, rfl, hP⟩ := hr ts a mid hL htest hmid
    obtain ⟨taken', rfl, hQ⟩ := hf _ a hP mid b rest (fun t ht => hL t (by simp [ht])) trivial hb
    exact ⟨taken ++ taken', by simp, by simpa using hQ⟩
  · exact hno ts b rest hL hc hrun'

/-! ### Lists -/

section Lists

variable {d : Option TokenKind → Prop} {more : List Token → Bool} {item : Reader α}
  {Qs : List Word → List α → Prop}

theorem repeatWhile (hmore : ∀ ts, more ts = true → d (kindOf (ts.map Token.word)))
    (hitem : ConsumesWhen d L item P) (hnil : Qs [] [])
    (hcons : ∀ us a vs as, P us a → Qs vs as → Qs (us ++ vs) (a :: as)) :
    ConsumesWhen c L (repeatWhile more item) Qs := by
  intro ts
  -- the tokens left grow fewer with each item, except behind one that takes none
  induction hn : ts.length using Nat.strongRecOn generalizing ts c with
  | ind n ih =>
    intro as rest hL _ hrun
    rw [Reader.repeatWhile] at hrun
    split at hrun
    · rename_i hts
      split at hrun
      · cases hrun
      · rename_i a mid hmid
        obtain ⟨taken, rfl, hP⟩ := hitem ts a mid hL (hmore ts hts) hmid
        split at hrun
        · rename_i hlt
          split at hrun
          · cases hrun
          · rename_i as' rest' hrest
            cases hrun
            obtain ⟨taken', rfl, hQ⟩ := ih mid.length (hn ▸ hlt) (c := fun _ => True) mid rfl as' rest
              (fun t ht => hL t (by simp [ht])) trivial hrest
            exact ⟨taken ++ taken', by simp, by simpa using hcons _ a _ as' hP hQ⟩
        · cases hrun
          exact ⟨taken, rfl, by simpa using hcons _ a _ [] hP hnil⟩
    · cases hrun
      exact ⟨[], rfl, hnil⟩

theorem repeatWhile_ne_nil {ts rest : List Token} {as : List α} (hmore : more ts = true)
    (hrun : Reader.repeatWhile more item ts = .ok (as, rest)) : as ≠ [] := by
  rw [Reader.repeatWhile, if_pos hmore] at hrun
  split at hrun
  · cases hrun
  · split at hrun
    · split at hrun
      · cases hrun
      · cases hrun
        exact List.cons_ne_nil _ _
    · cases hrun
      exact List.cons_ne_nil _ _

theorem kindOf_of_startsWith {kind : TokenKind} (ts : List Token) (h : startsWith kind ts = true) :
    kindOf (ts.map Token.word) = some kind := by
  cases ts with
  | nil => cases h
  | cons t ts => simpa [startsWith] using h

theorem commaSeparated (hitem : Consumes L item P) (hone : ∀ us a, P us a → Qs us [a])
    (hmore : ∀ us a w vs as, P us a → w.kind = .comma → L w → Qs vs as →
      Qs (us ++ w :: vs) (a :: as)) :
    ConsumesWhen c L (commaSeparated item) Qs := by
  refine bind (weaken hitem) fun us a ha => ?_
  refine bind (P := fun vs as => ∀ us a, P us a → Qs (us ++ vs) (a :: as)) ?_ fun vs as has =>
    pure (by simpa using has us a ha)
  refine repeatWhile (d := (· = some .comma))
    (P := fun ws a => ∃ w vs, ws = w :: vs ∧ w.kind = .comma ∧ L w ∧ P vs a)
    kindOf_of_startsWith ?_ ?_ ?_
  · refine skip (by simp) fun w hw hk => ?_
    exact hitem.imp fun vs a hP => ⟨w, vs, rfl, Option.some.inj hk, hw, hP⟩
  · intro us a hP
    simpa using hone us a hP
  · rintro us' a' vs as ⟨w, vs', rfl, hk, hw, hP'⟩ hQ us a hP
    simpa using hmore us a w _ _ hP hk hw (hQ vs' a' hP')

theorem parenthesized {inside : Reader α} (hinside : Consumes L inside P)
    {P' : List Word → α → Prop}
    (h : ∀ l ws r a, l.kind = .lparen → r.kind = .rparen → P ws a → P' (l :: ws ++ [r]) a) :
    ConsumesWhen c L (parenthesized inside) P' := by
  refine bind discard_expect ?_
  rintro _ _ ⟨l, rfl, -, hl⟩
  refine bind hinside fun ws a hP => bind discard_expect ?_
  rintro _ _ ⟨r, rfl, -, hr⟩
  exact pure (by simpa using h l ws r a hl hr hP)

end Lists

end ConsumesWhen

end Reader

end SchemaScript
