import SchemaScript.Token.Keyword

/-!
# Tokens

* `TokenKind`, `TokenKind.name` — the classes of words and signs.
* `Token` — one word or sign of a script with the place it stands at.
-/

set_option autoImplicit false

namespace SchemaScript

/-- The class of a word or sign. -/
inductive TokenKind where
  | singleQuoted
  | doubleQuoted
  | inclusion
  | placeholder
  | identifier
  | keyword (word : Keyword)
  | digits
  | eq
  | neq
  | gt
  | gtEq
  | lt
  | ltEq
  | plus
  | minus
  | lparen
  | rparen
  | comma
  | semicolon
  deriving DecidableEq, Repr

namespace TokenKind

/-- What a class of tokens is called in messages. -/
def name : TokenKind → String
  | .singleQuoted => "SQUOTED"
  | .doubleQuoted => "DQUOTED"
  | .inclusion => "INCLUDE"
  | .placeholder => "MACRO"
  | .identifier => "IDENTIFIER"
  | .keyword word => word.name
  | .digits => "DIGITS"
  | .eq => "EQ"
  | .neq => "NEQ"
  | .gt => "GT"
  | .gtEq => "GTEQ"
  | .lt => "LT"
  | .ltEq => "LTEQ"
  | .plus => "PLUS"
  | .minus => "MINUS"
  | .lparen => "LPAREN"
  | .rparen => "RPAREN"
  | .comma => "COMMA"
  | .semicolon => "SEMICOLON"

/-- The signs that join two operands. -/
def isOperator : TokenKind → Bool
  | .eq | .neq | .gt | .gtEq | .lt | .ltEq | .plus | .minus => true
  | _ => false

/-- An identifier, or a keyword that may serve as one. -/
def isName : TokenKind → Bool
  | .identifier => true
  | .keyword word => word.mayBeName
  | _ => false

end TokenKind

/-- One word or sign of a script. The value of an inclusion is its path alone; every other value
is the source text. -/
structure Token where
  kind : TokenKind
  value : String
  line : Nat
  offset : Nat
  deriving DecidableEq, Repr

end SchemaScript
