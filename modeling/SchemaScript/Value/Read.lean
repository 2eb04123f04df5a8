import SchemaScript.Token.Reader
import SchemaScript.Value.Basic

/-!
# Reading values and expressions

```text
expression := primary ((AND | OR) primary)*
primary    := ( expression ) [op term]
            | term op term
            | term op ( expression )
            | term DIGITS
            | term BETWEEN term AND term
            | term IN ( term, ... )
            | term IS [NOT] NULL
value      := NULL | term | expression
term       := string | DIGITS | date | name | name ( [value, ...] )
```

Digits right behind a term are added to it or taken from it: `x -1` reads as `x - 1`, and `x 1` as
`x + 1`.

* `Rules` — the two rules that stand inside parentheses.
* `Rules.ofDepth` — these rules for a bounded nesting of parentheses.
* `readExpression`, `readValue` — the rules for any nesting. Every level of nesting takes a token,
  so the number of tokens bounds it.
-/

set_option autoImplicit false

namespace SchemaScript

/-- A literal on its own: quoted text, a number, or a point in time. -/
def TokenKind.isConstant : TokenKind → Bool
  | .singleQuoted | .doubleQuoted | .digits => true
  | .keyword word => word.isDate
  | _ => false

/-- What may follow the first term of a comparison. -/
def TokenKind.startsTail : TokenKind → Bool
  | .digits | .keyword .between | .keyword .in_ | .keyword .is => true
  | kind => kind.isOperator

/-- The words that join comparisons. -/
def TokenKind.isConjunction : TokenKind → Bool
  | .keyword .and | .keyword .or => true
  | _ => false

/-- The rules that stand inside parentheses. -/
structure Rules where
  expression : Reader Expression
  value : Reader Term

namespace Rules

open Reader

/-- A call, from its opening parenthesis on. -/
def call (inner : Rules) (function : String) : Reader Term := do
  discard <| expect .lparen
  if ← accept .rparen then
    return .call function []
  else
    let args ← commaSeparated inner.value
    discard <| expect .rparen
    return .call function args

/-- One operand. -/
def term (inner : Rules) : Reader Term := do
  let t ← next "term"
  if t.kind.isConstant then
    return .literal t.value
  else if t.kind.isName then
    if (← nextKind?) = some .lparen then
      call inner t.value
    else
      return .literal t.value
  else
    reject t

/-- The sign and the digits of a number that follows a term. -/
def signed (digits : String) : List Term :=
  match digits.toList with
  | '-' :: rest => [.literal "-", .literal (String.ofList rest)]
  | _ => [.literal "+", .literal digits]

/-- An expression in parentheses, with the parentheses among its terms. -/
def group (inner : Rules) : Reader (List Term) := do
  let terms ← inner.expression
  discard <| expect .rparen
  return .literal "(" :: terms ++ [.literal ")"]

/-- What follows the first term of a comparison. -/
def continuation (inner : Rules) : Reader (List Term) := do
  let t ← next "operator"
  if t.kind.isOperator then
    if ← accept .lparen then
      return .literal t.value :: (← group inner)
    else
      return [.literal t.value, ← term inner]
  else
    match t.kind with
    | .digits => return signed t.value
    | .keyword .between =>
      let low ← term inner
      let conjunction ← expectWord .and
      let high ← term inner
      return [.literal t.value, low, .literal conjunction.value, high]
    | .keyword .in_ =>
      let items ← parenthesized (commaSeparated (term inner))
      return .literal t.value :: .literal "(" :: items.intersperse (.literal ",") ++ [.literal ")"]
    | .keyword .is =>
      if (← nextKind?) = some (.keyword .not) then
        let negation ← next "NOT"
        let null ← expectWord .null
        return [.literal t.value, .literal negation.value, .literal null.value]
      else
        let null ← expectWord .null
        return [.literal t.value, .literal null.value]
    | _ => reject t

/-- One comparison, or a group with or without something behind it. -/
def primary (inner : Rules) : Reader (List Term) := do
  if ← accept .lparen then
    let terms ← group inner
    if (← nextKind?).any TokenKind.isOperator then
      let operator ← next "operator"
      return terms ++ [.literal operator.value, ← term inner]
    else
      return terms
  else
    let first ← term inner
    return first :: (← continuation inner)

/-- Further comparisons, each behind the word that joins it. -/
def conjunctions (inner : Rules) : Reader (List Term) := do
  let parts ← repeatWhile (fun ts => ts.head?.any (·.kind.isConjunction)) do
    let word ← next "AND or OR"
    return .literal word.value :: (← primary inner)
  return parts.flatten

/-- A condition. -/
def condition (inner : Rules) : Reader Expression := do
  let first ← primary inner
  return first ++ (← conjunctions inner)

/-- A value: of a column, of a row or of a call. -/
def operand (inner : Rules) : Reader Term := do
  match ← nextKind? with
  | some .lparen => return .expression (← condition inner)
  | some (.keyword .null) => return .literal (← next "NULL").value
  | _ =>
    let first ← term inner
    if (← nextKind?).any TokenKind.startsTail then
      let rest ← continuation inner
      return .expression (first :: rest ++ (← conjunctions inner))
    else
      return first

/-- The rules for parentheses nested at most so deep. Deeper than the deepest there are no tokens
left, and a term is what is missing. -/
def ofDepth : Nat → Rules
  | 0 => ⟨throw (.ended "term"), throw (.ended "term")⟩
  | depth + 1 => ⟨fun ts => condition (ofDepth depth) ts, fun ts => operand (ofDepth depth) ts⟩

end Rules

/-- An expression. -/
def readExpression : Reader Expression := do (Rules.ofDepth (← get).length).expression

/-- A value. -/
def readValue : Reader Term := do (Rules.ofDepth (← get).length).value

end SchemaScript
