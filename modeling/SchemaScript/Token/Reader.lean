import SchemaScript.Token.Basic

/-!
# Reading tokens

A reader takes tokens off the head of a list and gives a value, or says which token it could not
use.

* `Fault` — why a list of tokens does not read.
* `Reader` — a rule of the grammar.
* `next`, `accept`, `expect`, `name` — the rules for one token.
* `repeatWhile`, `commaSeparated`, `nameList` — the rules for lists.
-/

set_option autoImplicit false

namespace SchemaScript

/-- Why a list of tokens does not read. -/
inductive Fault where
  /-- This token fits no rule that applies here. -/
  | unexpected (token : Token)
  /-- The tokens end where something is still to come. -/
  | ended (expected : String)
  deriving DecidableEq, Repr

/-- A rule of the grammar: it takes tokens off the head of a list. -/
abbrev Reader (α : Type) := StateT (List Token) (Except Fault) α

namespace Reader

variable {α : Type}

/-! ## One token -/

/-- The next token. -/
def next (expected : String) : Reader Token := fun
  | [] => .error (.ended expected)
  | t :: rest => .ok (t, rest)

/-- Refuses a token. -/
def reject (t : Token) : Reader α := throw (.unexpected t)

/-- The class of the next token, which stays where it is. -/
def nextKind? : Reader (Option TokenKind) := do return (← get).head?.map (·.kind)

/-- The class of the token behind the next one. Both stay where they are. -/
def secondKind? : Reader (Option TokenKind) := do return (← get).tail.head?.map (·.kind)

/-- Passes over the next token. -/
def skip : Reader Unit := modify List.tail

/-- Takes the next token if it is of a class, and says whether it was. -/
def accept (kind : TokenKind) : Reader Bool := do
  if (← nextKind?) = some kind then
    skip
    return true
  else
    return false

/-- Takes the next token if it is a keyword, and says whether it was. -/
def acceptWord (word : Keyword) : Reader Bool := accept (.keyword word)

/-- The next token, which has to be of a class. -/
def expect (kind : TokenKind) : Reader Token := do
  let t ← next kind.name
  if t.kind = kind then return t else reject t

/-- The next token, which has to be a keyword. -/
def expectWord (word : Keyword) : Reader Token := expect (.keyword word)

/-- A name. -/
def name : Reader String := do
  let t ← next TokenKind.identifier.name
  if t.kind.isName then return t.value else reject t

/-! ## Lists -/

/-- Whether the next token is of a class. -/
def startsWith (kind : TokenKind) (ts : List Token) : Bool := ts.head?.any (·.kind = kind)

/-- As many items as there are, while a test of the tokens to come says that there is one more. An
item that takes no token is the last. -/
def repeatWhile (more : List Token → Bool) (item : Reader α) : Reader (List α) := fun ts =>
  if more ts then
    match item ts with
    | .error fault => .error fault
    | .ok (a, rest) =>
      if rest.length < ts.length then
        match repeatWhile more item rest with
        | .error fault => .error fault
        | .ok (as, rest) => .ok (a :: as, rest)
      else .ok ([a], rest)
  else .ok ([], ts)
termination_by ts => ts.length

/-- One item or more, with commas between them. -/
def commaSeparated (item : Reader α) : Reader (List α) := do
  let first ← item
  let others ← repeatWhile (startsWith .comma) (do skip; item)
  return first :: others

/-- Something in parentheses. -/
def parenthesized (inside : Reader α) : Reader α := do
  discard <| expect .lparen
  let a ← inside
  discard <| expect .rparen
  return a

/-- Names in parentheses. -/
def nameList : Reader (List String) := parenthesized (commaSeparated name)

end Reader

end SchemaScript
