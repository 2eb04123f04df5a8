import SchemaScript.Proofs.Token.Concatenation

/-!
# The layout of a text

A text is a sequence of gaps, with a lexeme or a stray character between each two of them.

* `Scan.Part`, `Scan.source` — a gap and what stands behind it, and the text that parts make up.
* `Scan.Laid` — every gap is as long as it can be, every lexeme is one by the rules, and at a stray
  character no rule applies.
* `Scan.exists_laid` — every text is laid out so.
* `Scan.located`, `Located.token?`, `Located.stray?` — the parts with all that stands in front of
  each, and the tokens and stray characters that follow from that.
* `Lexer.ahead_next`, `Lexer.take_eq` — what a reader of single tokens does in one step and in a run.
* `tokenizeUpTo_of_length_lt` — asked for more tokens than there are, it reads the whole text.
* `tokenize_of_laid` — the tokens and stray characters that are found are those of the layout.
-/

set_option autoImplicit false

namespace SchemaScript

namespace Scan

/-! ## Parts -/

/-- What stands behind a gap. -/
inductive Item where
  | lexeme (kind : TokenKind) (chars : List Char) (value : String)
  | stray (c : Char)
  deriving DecidableEq, Repr

namespace Item

/-- The characters of the text that an item takes. -/
def chars : Item → List Char
  | .lexeme _ chars _ => chars
  | .stray c => [c]

/-- What an item has to be in front of a text. -/
def Allowed : Item → List Char → Prop
  | .lexeme kind chars value, rest => Lexeme kind chars value rest
  | .stray c, rest => ∀ kind chars value rest', chars ++ rest' = c :: rest →
      ¬ Lexeme kind chars value rest'

end Item

/-- A gap and what stands behind it. -/
structure Part where
  gap : List Char
  item : Item
  deriving DecidableEq, Repr

/-- The text that parts make up, with a gap behind the last of them. -/
def source : List Part → List Char → List Char
  | [], last => last
  | part :: parts, last => part.gap ++ (part.item.chars ++ source parts last)

/-- Parts and a last gap that follow the rules. -/
def Laid : List Part → List Char → Prop
  | [], last => IsGap last []
  | part :: parts, last => IsGap part.gap (part.item.chars ++ source parts last) ∧
      part.item.Allowed (source parts last) ∧ Laid parts last

/-- No rule applies where no lexeme is found. -/
theorem Item.allowed_stray {c : Char} {rest : List Char} :
    (Item.stray c).Allowed rest ↔ lexeme? (c :: rest) = none := by
  constructor
  · intro h
    cases hfound : lexeme? (c :: rest) with
    | none => rfl
    | some found =>
      obtain ⟨kind, n⟩ := found
      obtain ⟨value, hlexeme⟩ := exists_lexeme hfound
      exact absurd hlexeme (h kind _ value _ (List.take_append_drop n _))
  · intro h kind chars value rest' hsource hlexeme
    have hread := hlexeme.read.1
    rw [hsource, h] at hread
    cases hread

instance Item.decidableAllowed (rest : List Char) : (item : Item) → Decidable (item.Allowed rest)
  | .lexeme kind chars value => inferInstanceAs (Decidable (Lexeme kind chars value rest))
  | .stray _ => decidable_of_iff _ Item.allowed_stray.symm

instance decidableLaid (last : List Char) : (parts : List Part) → Decidable (Laid parts last)
  | [] => inferInstanceAs (Decidable (IsGap last []))
  | part :: parts =>
    have := decidableLaid last parts
    inferInstanceAs (Decidable (IsGap part.gap (part.item.chars ++ source parts last) ∧
      part.item.Allowed (source parts last) ∧ Laid parts last))

/-! ### Every text is laid out -/

theorem exists_laid (cs : List Char) : ∃ parts last, Laid parts last ∧ source parts last = cs := by
  have hgap := isGap_gap cs
  have hcs := gap_append cs
  match hrest : (gap cs).2 with
  | [] =>
    rw [hrest] at hgap hcs
    rw [List.append_nil] at hcs
    exact ⟨[], (gap cs).1, hgap, hcs⟩
  | c :: rest =>
    rw [hrest] at hgap hcs
    have hlt := length_rest_lt hrest
    cases hlex : lexeme? (c :: rest) with
    | none =>
      obtain ⟨parts, last, hlaid, hsource⟩ := exists_laid rest
      refine ⟨⟨(gap cs).1, .stray c⟩ :: parts, last, ⟨?_, ?_, hlaid⟩, ?_⟩
      · rwa [hsource]
      · rw [hsource]
        exact Item.allowed_stray.mpr hlex
      · rw [source, hsource]
        exact hcs
    | some found =>
      obtain ⟨kind, n⟩ := found
      have hpos := lexeme?_pos hlex
      obtain ⟨value, hlexeme⟩ := exists_lexeme hlex
      obtain ⟨parts, last, hlaid, hsource⟩ := exists_laid ((c :: rest).drop n)
      refine ⟨⟨(gap cs).1, .lexeme kind ((c :: rest).take n) value⟩ :: parts, last,
        ⟨?_, ?_, hlaid⟩, ?_⟩
      · rwa [hsource, Item.chars, List.take_append_drop]
      · rw [hsource]
        exact hlexeme
      · rw [source, hsource, Item.chars, List.take_append_drop]
        exact hcs
termination_by cs.length
decreasing_by
  · exact hlt
  · simp only [List.length_drop, List.length_cons]
    omega

/-! ## What stands in front of each part -/

/-- An item with all the text in front of it. -/
structure Located where
  before : List Char
  item : Item
  deriving DecidableEq, Repr

namespace Located

/-- The token that a lexeme is. Its offset counts the bytes in front of it, its line the newlines.
-/
def token? (x : Located) : Option Token :=
  match x.item with
  | .lexeme kind _ value => some ⟨kind, value, Text.newlines x.before + 1, Text.byteLength x.before⟩
  | .stray _ => none

/-- What is said of a stray character: its column counts the characters in front of it behind the
last newline. -/
def stray? (text : String) (x : Located) : Option StrayChar :=
  match x.item with
  | .lexeme _ _ _ => none
  | .stray c => some ⟨c, Text.newlines x.before + 1, (Text.lastLine x.before).length + 1,
      Text.excerptAt text (Text.byteLength x.before)⟩

/-- The piece that an item is. -/
def piece (x : Located) : Piece :=
  let here := Text.Position.start.after x.before
  match x.item with
  | .lexeme kind _ value => .token ⟨kind, value, here.line, here.offset⟩
  | .stray c => .stray c here

end Located

/-- The items of parts that stand behind a text, each with all that is in front of it. -/
def located (before : List Char) : List Part → List Located
  | [] => []
  | part :: parts =>
    ⟨before ++ part.gap, part.item⟩ :: located (before ++ part.gap ++ part.item.chars) parts

theorem after_start (before : List Char) : Text.Position.start.after before =
    ⟨Text.byteLength before, Text.newlines before + 1⟩ := by
  rw [Text.Position.after, Text.Position.start, Nat.zero_add, Nat.add_comm]

variable {parts : List Part} {last before cs : List Char} {text : String}

/-! ### One part -/

theorem pieces_lexeme {gap chars rest : List Char} {kind : TokenKind} {value : String}
    (hgap : IsGap gap (chars ++ rest)) (hlexeme : Lexeme kind chars value rest)
    (p : Text.Position) : pieces p (gap ++ (chars ++ rest)) =
      .token ⟨kind, value, (p.after gap).line, (p.after gap).offset⟩ ::
        pieces ((p.after gap).after chars) rest := by
  have hcut := hgap.read
  obtain ⟨hlex, hvalue⟩ := hlexeme.read
  obtain ⟨c, tail, rfl⟩ : ∃ c tail, chars = c :: tail :=
    List.exists_cons_of_length_pos (lexeme?_pos hlex)
  rw [List.cons_append] at hlex
  rw [pieces_token (by rw [hcut, List.cons_append]) hlex, hcut, ← List.cons_append, List.take_left,
    List.drop_left, hvalue]

theorem pieces_unmatched {gap rest : List Char} {c : Char} (hgap : IsGap gap (c :: rest))
    (hstray : (Item.stray c).Allowed rest) (p : Text.Position) :
    pieces p (gap ++ c :: rest) =
      .stray c (p.after gap) :: pieces ((p.after gap).after [c]) rest := by
  have hcut := hgap.read
  rw [pieces_stray (by rw [hcut]) (Item.allowed_stray.mp hstray), hcut]

/-! ### All parts -/

/-- **The pieces of a text are the parts that it is made up of.** -/
theorem pieces_source (h : Laid parts last) (before : List Char) :
    pieces (Text.Position.start.after before) (source parts last) =
      (located before parts).map Located.piece := by
  induction parts generalizing before with
  | nil =>
    have hcut := IsGap.read h
    rw [List.append_nil] at hcut
    exact pieces_nil (by rw [source, hcut])
  | cons part parts ih =>
    obtain ⟨gap, item⟩ := part
    obtain ⟨hgap, hitem, hlaid⟩ := h
    have hlater := ih hlaid (before ++ gap ++ item.chars)
    rw [located, List.map_cons, ← hlater, Text.Position.after_append, Text.Position.after_append]
    cases item with
    | lexeme kind chars value =>
      rw [Located.piece, Text.Position.after_append]
      exact pieces_lexeme hgap hitem _
    | stray c =>
      rw [Located.piece, Text.Position.after_append]
      exact pieces_unmatched hgap hitem _

theorem Located.piece_eq_token {x : Located} {t : Token} (h : x.token? = some t) :
    x.piece = .token t := by
  obtain ⟨before, item⟩ := x
  cases item with
  | lexeme kind chars value =>
    cases h
    simp only [Located.piece, after_start]
  | stray c => cases h

theorem tokensOf_piece (xs : List Located) :
    tokensOf (xs.map Located.piece) = xs.filterMap Located.token? := by
  induction xs with
  | nil => rfl
  | cons x xs ih =>
    rw [tokensOf] at ih ⊢
    cases hx : x.token? with
    | none =>
      obtain ⟨before, item⟩ := x
      cases item with
      | lexeme kind chars value => cases hx
      | stray c => rw [List.filterMap_cons_none hx, ← ih]; rfl
    | some t =>
      rw [List.map_cons, Located.piece_eq_token hx, List.filterMap_cons_some hx, ← ih]
      rfl

/-- What is in front of an item is a beginning of the text. -/
theorem prefix_of_mem_located {x : Located} (hx : x ∈ located before parts) :
    x.before <+: before ++ source parts last := by
  induction parts generalizing before with
  | nil => cases hx
  | cons part parts ih =>
    rcases List.mem_cons.mp hx with rfl | hx
    · exact ⟨part.item.chars ++ source parts last, by simp [source]⟩
    · have hlater := ih hx
      rwa [List.append_assoc, List.append_assoc] at hlater

theorem straysOf_piece {xs : List Located} (h : ∀ x ∈ xs, x.before <+: text.toList) :
    straysOf text (xs.map Located.piece) = xs.filterMap (Located.stray? text) := by
  induction xs with
  | nil => rfl
  | cons x xs ih =>
    have hlater := ih fun y hy => h y (List.mem_cons_of_mem _ hy)
    obtain ⟨before, item⟩ := x
    cases item with
    | lexeme kind chars value => exact hlater
    | stray c =>
      obtain ⟨rest, hrest⟩ := h _ List.mem_cons_self
      have hcolumn : Text.columnAt text (Text.byteLength before) =
          (Text.lastLine before).length + 1 := Text.columnAt_byteLength hrest.symm
      rw [straysOf] at hlater ⊢
      simp only [List.map_cons, Located.piece, List.filterMap_cons, hlater, after_start, hcolumn,
        Located.stray?]

/-! ## A reader that asks for a few tokens -/

/-- The pieces met by a reader that asks for at most `limit` tokens, one at a time. -/
def takeTokens : Nat → List Piece → List Piece
  | 0, _ => []
  | _ + 1, [] => []
  | n + 1, .token t :: ps => .token t :: takeTokens n ps
  | n + 1, .stray c p :: ps => .stray c p :: takeTokens (n + 1) ps

theorem takeTokens_strays {front : List Piece} (hfront : tokensOf front = []) (n : Nat)
    (ps : List Piece) : takeTokens (n + 1) (front ++ ps) = front ++ takeTokens (n + 1) ps := by
  induction front with
  | nil => rfl
  | cons x front ih =>
    cases x with
    | token t => cases hfront
    | stray c p => rw [List.cons_append, takeTokens, ih hfront, List.cons_append]

theorem takeTokens_append (front back : List Piece) (t : Token) :
    takeTokens ((tokensOf front).length + 1) (front ++ .token t :: back) = front ++ [.token t] := by
  induction front with
  | nil => simp [takeTokens, tokensOf]
  | cons x front ih =>
    cases x with
    | token u =>
      change takeTokens ((tokensOf front).length + 1 + 1) (.token u :: (front ++ _)) = _
      rw [takeTokens, ih, List.cons_append]
    | stray c p =>
      change takeTokens ((tokensOf front).length + 1) (.stray c p :: (front ++ _)) = _
      rw [takeTokens, ih, List.cons_append]

theorem takeTokens_of_length_lt {limit : Nat} {ps : List Piece} (h : (tokensOf ps).length < limit) :
    takeTokens limit ps = ps := by
  induction ps generalizing limit with
  | nil => cases limit <;> rfl
  | cons x ps ih =>
    obtain ⟨limit, rfl⟩ : ∃ n, limit = n + 1 :=
      Nat.exists_eq_add_one_of_ne_zero (Nat.ne_zero_of_lt h)
    cases x with
    | token t => rw [takeTokens, ih (Nat.lt_of_succ_lt_succ h)]
    | stray c p => rw [takeTokens, ih h]

/-- Each token is somewhere among the items, behind as many others as there are tokens before it. -/
theorem exists_token {xs : List Located} {n : Nat} (h : n < (xs.filterMap Located.token?).length) :
    ∃ front x back t, xs = front ++ x :: back ∧ x.token? = some t ∧
      (front.filterMap Located.token?).length = n := by
  induction xs generalizing n with
  | nil => exact absurd h (Nat.not_lt_zero n)
  | cons x xs ih =>
    cases hx : x.token? with
    | none =>
      rw [List.filterMap_cons_none hx] at h
      obtain ⟨front, y, back, t, rfl, ht, hlength⟩ := ih h
      exact ⟨x :: front, y, back, t, rfl, ht, by rw [List.filterMap_cons_none hx, hlength]⟩
    | some t =>
      rw [List.filterMap_cons_some hx, List.length_cons] at h
      cases n with
      | zero => exact ⟨[], x, xs, t, rfl, hx, rfl⟩
      | succ n =>
        obtain ⟨front, y, back, u, rfl, hu, hlength⟩ := ih (Nat.lt_of_succ_lt_succ h)
        refine ⟨x :: front, y, back, u, rfl, hu, ?_⟩
        rw [List.filterMap_cons_some hx, List.length_cons, hlength]

end Scan

open Scan

namespace Lexer

/-- The pieces that a reader has in front of it. -/
def ahead (s : Lexer) : List Piece := pieces s.place s.rest

/-- **One step of a reader.** It passes over stray characters, which it notes, and reads the token
behind them. Where it reads none, there is no more. -/
theorem ahead_next (text : String) (s : Lexer) : ∃ front, tokensOf front = [] ∧
    (s.next text).2.strays = s.strays ++ straysOf text front ∧
    s.ahead = front ++ match (s.next text).1 with
      | none => []
      | some t => .token t :: (s.next text).2.ahead := by
  fun_induction next text s with
  | case1 s here hgap =>
    exact ⟨[], rfl, (List.append_nil _).symm, pieces_nil hgap⟩
  | case2 s here c rest hgap kind n hlex lexeme =>
    exact ⟨[], rfl, (List.append_nil _).symm, pieces_token hgap hlex⟩
  | case3 s here c rest hgap hlex stray ih =>
    obtain ⟨front, hfront, hstrays, hahead⟩ := ih
    refine ⟨.stray c here :: front, hfront, ?_, ?_⟩
    · rw [hstrays, List.append_assoc]
      rfl
    · rw [List.cons_append, ← hahead]
      exact pieces_stray hgap hlex

/-- **A run of a reader.** It reads the tokens among the pieces that it meets, and notes the stray
characters among them. -/
theorem take_eq (text : String) (limit : Nat) (s : Lexer) :
    (s.take text limit).1 = tokensOf (takeTokens limit s.ahead) ∧
    (s.take text limit).2.strays = s.strays ++ straysOf text (takeTokens limit s.ahead) := by
  induction limit generalizing s with
  | zero =>
    rw [takeTokens]
    exact ⟨rfl, (List.append_nil _).symm⟩
  | succ limit ih =>
    obtain ⟨front, hfront, hstrays, hahead⟩ := ahead_next text s
    rw [take, hahead, takeTokens_strays hfront, tokensOf_append, straysOf_append, hfront,
      ← List.append_assoc, ← hstrays]
    generalize s.next text = found at hahead
    obtain ⟨_ | t, later⟩ := found
    · exact ⟨rfl, (List.append_nil _).symm⟩
    · exact ⟨congrArg (t :: ·) (ih later).1, (ih later).2⟩

end Lexer

/-- A reader that asks for a few tokens meets the first pieces of the text. -/
theorem tokenizeUpTo_eq (limit : Nat) (text : String) : tokenizeUpTo limit text =
    (tokensOf (takeTokens limit (pieces .start text.toList)),
      straysOf text (takeTokens limit (pieces .start text.toList))) := by
  obtain ⟨htokens, hstrays⟩ := Lexer.take_eq text limit (.start text)
  exact Prod.ext htokens hstrays

/-- A reader that asks for more tokens than there are reads the whole text. -/
theorem tokenizeUpTo_of_length_lt {limit : Nat} {text : String}
    (h : (tokenize text).1.length < limit) : tokenizeUpTo limit text = tokenize text := by
  rw [tokenizeUpTo_eq, takeTokens_of_length_lt h, tokenize]

section

variable {parts : List Part} {last : List Char} {text : String}

theorem Scan.pieces_text (hlaid : Laid parts last) (hsource : source parts last = text.toList) :
    pieces .start text.toList = (located [] parts).map Located.piece := by
  rw [← hsource]
  exact pieces_source hlaid []

theorem Scan.before_prefix (hsource : source parts last = text.toList) {x : Located}
    (hx : x ∈ located [] parts) : x.before <+: text.toList := by
  rw [← hsource]
  exact prefix_of_mem_located hx

theorem tokenize_source (hlaid : Laid parts last) (hsource : source parts last = text.toList) :
    tokenize text = ((located [] parts).filterMap Located.token?,
      (located [] parts).filterMap (Located.stray? text)) := by
  rw [tokenize, pieces_text hlaid hsource, tokensOf_piece,
    straysOf_piece fun x hx => before_prefix hsource hx]

/-- A reader that asks for no more than a token meets what is in front of it, and the token. -/
theorem tokenizeUpTo_source (hlaid : Laid parts last) (hsource : source parts last = text.toList)
    {front back : List Located} {x : Located} {t : Token}
    (hsplit : located [] parts = front ++ x :: back) (hx : x.token? = some t) :
    tokenizeUpTo ((front.filterMap Located.token?).length + 1) text =
      (front.filterMap Located.token? ++ [t], front.filterMap (Located.stray? text)) := by
  have hfront : ∀ y ∈ front, y.before <+: text.toList := by
    intro y hy
    exact before_prefix hsource (by rw [hsplit]; exact List.mem_append_left _ hy)
  rw [tokenizeUpTo_eq, pieces_text hlaid hsource, hsplit, List.map_append, List.map_cons,
    Located.piece_eq_token hx, ← tokensOf_piece, takeTokens_append]
  rw [tokensOf_append, straysOf_append, tokensOf_piece, straysOf_piece hfront]
  exact congrArg _ (List.append_nil _)

end

/-- **Every text is laid out in gaps, lexemes and stray characters by the rules, and each such
layout gives the tokens and stray characters of the text.** They come in the order of the layout,
each with the place that follows from what is in front of it. A reader that asks for `k` tokens gets
the first `k`, and meets the stray characters in front of the last of these. -/
theorem tokenize_of_laid (text : String) :
    (∃ parts last, Laid parts last ∧ source parts last = text.toList) ∧
    ∀ parts last, Laid parts last → source parts last = text.toList →
      tokenize text = ((located [] parts).filterMap Located.token?,
        (located [] parts).filterMap (Located.stray? text)) ∧
      ∀ k, 1 ≤ k → k ≤ (tokenize text).1.length →
        ∃ front x back, located [] parts = front ++ x :: back ∧
          x.token?.isSome ∧ x.token? = (tokenize text).1[k - 1]? ∧
          tokenizeUpTo k text =
            ((tokenize text).1.take k, front.filterMap (Located.stray? text)) := by
  refine ⟨exists_laid _, fun parts last hlaid hsource => ?_⟩
  have htokenize := tokenize_source hlaid hsource
  refine ⟨htokenize, fun k hk hle => ?_⟩
  rw [htokenize] at hle ⊢
  obtain ⟨front, x, back, t, hsplit, hx, hlength⟩ := exists_token (Nat.sub_one_lt_of_le hk hle)
  have hmet := tokenizeUpTo_source hlaid hsource hsplit hx
  obtain rfl : k = (front.filterMap Located.token?).length + 1 := by omega
  have htokens : (located [] parts).filterMap Located.token? =
      (front.filterMap Located.token? ++ [t]) ++ back.filterMap Located.token? := by
    rw [hsplit, List.filterMap_append, List.filterMap_cons_some hx, List.append_assoc]
    rfl
  refine ⟨front, x, back, hsplit, by rw [hx]; rfl, ?_, ?_⟩
  · rw [hx, htokens]
    simp
  · rw [hmet, htokens, List.take_left' (by simp)]

/-- A comment with a newline, a stray character of two bytes, and a literal with a newline. -/
theorem tokenize_of_laid_lines :
    let text := "/*\n*/ é'a\nb' x"
    let parts : List Part := [⟨"/*\n*/ ".toList, .stray 'é'⟩,
      ⟨[], .lexeme .singleQuoted "'a\nb'".toList "'a\nb'"⟩, ⟨[' '], .lexeme .identifier ['x'] "x"⟩]
    tokenize text = ([⟨.singleQuoted, "'a\nb'", 2, 8⟩, ⟨.identifier, "x", 3, 14⟩],
      [⟨'é', 2, 4, "*/ é'a"⟩]) ∧
    ∃ front x back, located [] parts = front ++ x :: back ∧ x.token?.isSome ∧
      x.token? = (tokenize text).1[0]? ∧
      tokenizeUpTo 1 text = ((tokenize text).1.take 1, front.filterMap (Located.stray? text)) := by
  intro text parts
  have hlaid : Laid parts [] := by decide +kernel
  have hsource : source parts [] = text.toList := by decide
  obtain ⟨htokenize, hmet⟩ := (tokenize_of_laid text).2 parts [] hlaid hsource
  refine ⟨htokenize.trans (by decide +kernel), hmet 1 (Nat.le_refl 1) ?_⟩
  rw [htokenize]
  decide +kernel

end SchemaScript
