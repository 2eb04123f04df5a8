import SchemaScript.Text.Blank
import SchemaScript.Text.Position
import SchemaScript.Token.Basic

/-!
# From text to tokens

A text is a sequence of gaps (blanks and comments), lexemes, and stray characters at which no
lexeme starts.

* `gap` — the blanks and comments at the head of a text.
* `lexeme?` — the lexeme at the head of a text: quoted literal, placeholder, word, inclusion,
  digits or sign, the first of these that fits.
* `pieces` — the tokens and stray characters of a text, in order.
* `tokenize` — the tokens, and the stray characters with where they stand.
* `Lexer`, `Lexer.next`, `tokenizeUpTo` — a reader that is asked for one token at a time.
-/

set_option autoImplicit false

namespace SchemaScript

namespace Scan

/-! ## Gaps -/

/-- Where a reader stands between two lexemes. -/
inductive Gap where
  | blank
  | lineComment
  | blockComment
  deriving DecidableEq, Repr

/-- The length of the blanks and comments at the head of a text. A line comment opens with `--` or
`#` and ends before a newline; a block comment that is never closed takes all that is left. -/
def gapLength : Gap → List Char → Nat
  | .blank, '-' :: '-' :: cs => gapLength .lineComment cs + 2
  | .blank, '#' :: cs => gapLength .lineComment cs + 1
  | .blank, '/' :: '*' :: cs => gapLength .blockComment cs + 2
  | .blank, c :: cs => if Text.isBlank c then gapLength .blank cs + 1 else 0
  | .lineComment, '\n' :: cs => gapLength .blank cs + 1
  | .lineComment, _ :: cs => gapLength .lineComment cs + 1
  | .blockComment, '*' :: '/' :: cs => gapLength .blank cs + 2
  | .blockComment, _ :: cs => gapLength .blockComment cs + 1
  | _, [] => 0

/-- A text cut behind the blanks and comments at its head. -/
def gap (cs : List Char) : List Char × List Char := cs.splitAt (gapLength .blank cs)

/-! ## Lexemes -/

/-- A single-quoted literal up to its closing quote, behind the opening one. -/
def quotedLength : List Char → Option Nat
  | '\'' :: '\'' :: cs => (quotedLength cs).map (· + 2)
  | '\'' :: _ => some 1
  | _ :: cs => (quotedLength cs).map (· + 1)
  | [] => none

/-- A placeholder up to its closing brackets, behind the opening ones. It ends on its line. -/
def placeholderLength : List Char → Option Nat
  | ']' :: ']' :: _ => some 2
  | '\n' :: _ => none
  | _ :: cs => (placeholderLength cs).map (· + 1)
  | [] => none

/-- The characters of a word behind its first letter. -/
def isWordChar (c : Char) : Bool := c.isAlphanum || c == '_' || c == '.'

/-- The length of the run of a class of characters at the head of a text. -/
def runLength (p : Char → Bool) (cs : List Char) : Nat := (cs.takeWhile p).length

/-- The length of a run that must not be empty. -/
def runLength? (p : Char → Bool) (cs : List Char) : Option Nat :=
  match runLength p cs with
  | 0 => none
  | n => some n

/-- The length of a literal in single quotes. -/
def singleQuoted? : List Char → Option Nat
  | '\'' :: cs => (quotedLength cs).map (· + 1)
  | _ => none

/-- The length of a literal in double quotes: up to the next double quote. -/
def doubleQuoted? : List Char → Option Nat
  | '"' :: cs =>
    let n := runLength (· ≠ '"') cs
    if n < cs.length then some (n + 2) else none
  | _ => none

/-- The length of a placeholder in doubled brackets. -/
def placeholder? : List Char → Option Nat
  | '[' :: '[' :: cs => (placeholderLength cs).map (· + 2)
  | _ => none

/-- The length of a word. -/
def word? : List Char → Option Nat
  | c :: cs => if c.isAlpha then some (runLength isWordChar cs + 1) else none
  | [] => none

/-- The length of an inclusion: `@` and a path, or `\i`, blanks and a path, to the end of the
line. -/
def inclusion? : List Char → Option Nat
  | '@' :: cs => (runLength? (· ≠ '\n') cs).map (· + 1)
  | '\\' :: 'i' :: cs => do
    let blanks ← runLength? (fun c => c == ' ' || c == '\t') cs
    let path ← runLength? (· ≠ '\n') (cs.drop blanks)
    return path + blanks + 2
  | _ => none

/-- The length of a run of digits, with or without a minus sign. -/
def digits? : List Char → Option Nat
  | '-' :: cs => (runLength? Char.isDigit cs).map (· + 1)
  | cs => runLength? Char.isDigit cs

/-- The sign at the head of a text, the longer first. -/
def sign? : List Char → Option (TokenKind × Nat)
  | '!' :: '=' :: _ => some (.neq, 2)
  | '>' :: '=' :: _ => some (.gtEq, 2)
  | '<' :: '=' :: _ => some (.ltEq, 2)
  | '=' :: _ => some (.eq, 1)
  | '>' :: _ => some (.gt, 1)
  | '<' :: _ => some (.lt, 1)
  | '+' :: _ => some (.plus, 1)
  | '-' :: _ => some (.minus, 1)
  | '(' :: _ => some (.lparen, 1)
  | ')' :: _ => some (.rparen, 1)
  | ';' :: _ => some (.semicolon, 1)
  | ',' :: _ => some (.comma, 1)
  | _ => none

/-- The class of a word. -/
def wordKind (word : List Char) : TokenKind :=
  match Keyword.ofWord? (String.ofList word) with
  | some k => .keyword k
  | none => .identifier

/-- The class and length of the lexeme at the head of a text. -/
def lexeme? (cs : List Char) : Option (TokenKind × Nat) :=
  (singleQuoted? cs).map (TokenKind.singleQuoted, ·)
  <|> (doubleQuoted? cs).map (TokenKind.doubleQuoted, ·)
  <|> (placeholder? cs).map (TokenKind.placeholder, ·)
  <|> (word? cs).map (fun n => (wordKind (cs.take n), n))
  <|> (inclusion? cs).map (TokenKind.inclusion, ·)
  <|> (digits? cs).map (TokenKind.digits, ·)
  <|> sign? cs

/-- The path of an inclusion, given its lexeme. -/
def inclusionPath : List Char → List Char
  | '@' :: path => Text.trimChars Text.isBlank path
  | '\\' :: 'i' :: path => Text.trimChars Text.isBlank path
  | path => path

/-- The value of a token, given its class and lexeme. -/
def tokenValue (kind : TokenKind) (lexeme : List Char) : String :=
  String.ofList (if kind = .inclusion then inclusionPath lexeme else lexeme)

/-! ## Every lexeme takes at least one character -/

theorem runLength?_pos {p : Char → Bool} {cs : List Char} {n : Nat} (h : runLength? p cs = some n) :
    0 < n := by
  unfold runLength? at h
  split at h
  · cases h
  · rename_i hne
    cases h
    exact Nat.pos_of_ne_zero hne

theorem sign?_pos {cs : List Char} {k : TokenKind} {n : Nat} (h : sign? cs = some (k, n)) :
    0 < n := by
  unfold sign? at h
  split at h <;> first | (cases h; omega) | cases h

theorem digits?_pos {cs : List Char} {n : Nat} (h : digits? cs = some n) : 0 < n := by
  unfold digits? at h
  split at h
  · simp only [Option.map_eq_some_iff] at h
    obtain ⟨m, _, rfl⟩ := h
    omega
  · exact runLength?_pos h

theorem inclusion?_pos {cs : List Char} {n : Nat} (h : inclusion? cs = some n) : 0 < n := by
  unfold inclusion? at h
  split at h
  · simp only [Option.map_eq_some_iff] at h
    obtain ⟨m, _, rfl⟩ := h
    omega
  · simp only [Option.bind_eq_bind, Option.bind_eq_some_iff] at h
    obtain ⟨a, _, b, _, h⟩ := h
    cases h
    omega
  · cases h

theorem lexeme?_pos {cs : List Char} {k : TokenKind} {n : Nat} (h : lexeme? cs = some (k, n)) :
    0 < n := by
  simp only [lexeme?, Option.orElse_eq_orElse, Option.orElse_eq_or, Option.or_eq_some_iff,
    Option.map_eq_some_iff] at h
  rcases h with ⟨m, hm, he⟩ | ⟨_, ⟨m, hm, he⟩ | ⟨_, ⟨m, hm, he⟩ | ⟨_, ⟨m, hm, he⟩ | ⟨_, ⟨m, hm, he⟩ |
    ⟨_, ⟨m, hm, he⟩ | ⟨_, h⟩⟩⟩⟩⟩⟩ <;> try (cases he)
  · unfold singleQuoted? at hm
    split at hm
    · simp only [Option.map_eq_some_iff] at hm
      obtain ⟨_, _, rfl⟩ := hm
      omega
    · cases hm
  · unfold doubleQuoted? at hm
    split at hm
    · simp only at hm
      split at hm
      · cases hm; omega
      · cases hm
    · cases hm
  · unfold placeholder? at hm
    split at hm
    · simp only [Option.map_eq_some_iff] at hm
      obtain ⟨_, _, rfl⟩ := hm
      omega
    · cases hm
  · unfold word? at hm
    split at hm
    · split at hm
      · cases hm; omega
      · cases hm
    · cases hm
  · exact inclusion?_pos hm
  · exact digits?_pos hm
  · exact sign?_pos h

/-- Behind a gap and a character there is less text. -/
theorem length_rest_lt {cs rest : List Char} {c : Char} (h : (gap cs).2 = c :: rest) :
    rest.length < cs.length := by
  have hle : (gap cs).2.length ≤ cs.length := by simp [gap, List.splitAt_eq]
  rw [h, List.length_cons] at hle
  omega

/-- Behind a gap and a lexeme there is less text. -/
theorem length_drop_lt {cs rest : List Char} {c : Char} {kind : TokenKind} {n : Nat}
    (h : (gap cs).2 = c :: rest) (hlex : lexeme? (c :: rest) = some (kind, n)) :
    ((c :: rest).drop n).length < cs.length := by
  have hlt := length_rest_lt h
  have hpos := lexeme?_pos hlex
  rw [List.length_drop, List.length_cons]
  omega

/-! ## Pieces -/

/-- What stands between two gaps. -/
inductive Piece where
  | token (t : Token)
  | stray (ch : Char) (place : Text.Position)
  deriving DecidableEq, Repr

/-- The tokens and stray characters of a text that starts at a given place. -/
def pieces (place : Text.Position) (cs : List Char) : List Piece :=
  let here := place.after (gap cs).1
  match _ : (gap cs).2 with
  | [] => []
  | c :: rest =>
    match _ : lexeme? (c :: rest) with
    | some (kind, n) =>
      let lexeme := (c :: rest).take n
      .token ⟨kind, tokenValue kind lexeme, here.line, here.offset⟩ ::
        pieces (here.after lexeme) ((c :: rest).drop n)
    | none => .stray c here :: pieces (here.after [c]) rest
termination_by cs.length
decreasing_by
  · exact length_drop_lt ‹_› ‹_›
  · exact length_rest_lt ‹_›

end Scan

/-! ## Tokens and stray characters -/

/-- A character that no lexeme starts with, and where it stands. It is passed over. -/
structure StrayChar where
  ch : Char
  line : Nat
  column : Nat
  excerpt : String
  deriving DecidableEq, Repr

/-- What is said of a stray character. -/
def StrayChar.message (s : StrayChar) : String :=
  "(" ++ s.ch.toString ++ ") unexpected at: " ++ toString s.line ++ ":" ++ toString s.column ++
    " snip: \"" ++ s.excerpt ++ "\", skipped"

/-- The tokens among the pieces of a text. -/
def Scan.tokensOf (ps : List Scan.Piece) : List Token :=
  ps.filterMap fun
    | .token t => some t
    | .stray _ _ => none

/-- The stray characters among the pieces of a text. -/
def Scan.straysOf (text : String) (ps : List Scan.Piece) : List StrayChar :=
  ps.filterMap fun
    | .token _ => none
    | .stray c p => some ⟨c, p.line, Text.columnAt text p.offset, Text.excerptAt text p.offset⟩

/-- The tokens of a text and its stray characters. -/
def tokenize (text : String) : List Token × List StrayChar :=
  let ps := Scan.pieces .start text.toList
  (Scan.tokensOf ps, Scan.straysOf text ps)

/-! ## One token at a time -/

/-- A reader of tokens: where it stands, the text from there on, and the stray characters that it
has passed over so far. -/
structure Lexer where
  place : Text.Position
  rest : List Char
  strays : List StrayChar
  deriving DecidableEq, Repr

namespace Lexer

open Scan

/-- A reader in front of a text. -/
def start (text : String) : Lexer := ⟨.start, text.toList, []⟩

/-- Passes over stray characters to the next token and reads it. There is none at the end. -/
def next (text : String) (s : Lexer) : Option Token × Lexer :=
  let here := s.place.after (gap s.rest).1
  match _ : (gap s.rest).2 with
  | [] => (none, { s with place := here, rest := [] })
  | c :: rest =>
    match _ : lexeme? (c :: rest) with
    | some (kind, n) =>
      let lexeme := (c :: rest).take n
      (some ⟨kind, tokenValue kind lexeme, here.line, here.offset⟩,
        { s with place := here.after lexeme, rest := (c :: rest).drop n })
    | none =>
      let stray : StrayChar := ⟨c, here.line, Text.columnAt text here.offset,
        Text.excerptAt text here.offset⟩
      next text ⟨here.after [c], rest, s.strays ++ [stray]⟩
termination_by s.rest.length
decreasing_by exact length_rest_lt ‹_›

/-- Asks for a token so many times, or until there is none. -/
def take (text : String) : Nat → Lexer → List Token × Lexer
  | 0, s => ([], s)
  | limit + 1, s =>
    match s.next text with
    | (none, last) => ([], last)
    | (some t, later) =>
      let (ts, last) := take text limit later
      (t :: ts, last)

end Lexer

/-- The first `limit` tokens of a text, and the stray characters met before the last of them. A
reader that asks for more tokens than there are meets every stray character. -/
def tokenizeUpTo (limit : Nat) (text : String) : List Token × List StrayChar :=
  let (tokens, reader) := (Lexer.start text).take text limit
  (tokens, reader.strays)

end SchemaScript
