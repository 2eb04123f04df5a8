import SchemaScript.Kind
import SchemaScript.Text.Letters

/-!
# Values and expressions

* `Term` — a literal, a call, or an expression used as a value.
* `Expression` — the terms of a condition in a row. Its operators, and the parentheses around its
  groups, are literals of the row: `status IN ('A', 'B')` has the seven terms `status`, `IN`, `(`,
  `'A'`, `,`, `'B'` and `)`.
* `Expression.notNullColumn?` — the column that an expression forbids to be null.
-/

set_option autoImplicit false

namespace SchemaScript

/-- A value, or one term of an expression. -/
inductive Term where
  /-- A name, number, operator or quoted literal as it is written, quotes included. -/
  | literal (text : String)
  | call (function : String) (args : List Term)
  | expression (terms : List Term)
  deriving Repr, Inhabited

/-- The terms of a condition. -/
abbrev Expression := List Term

namespace Term

mutual

/-- Equality of terms, decided. -/
def decEq : (a b : Term) → Decidable (a = b)
  | .literal a, .literal b =>
    if h : a = b then isTrue (by rw [h]) else isFalse (by intro e; cases e; exact h rfl)
  | .call f as, .call g bs =>
    if h : f = g then
      match decEqList as bs with
      | isTrue hs => isTrue (by rw [h, hs])
      | isFalse hs => isFalse (by intro e; cases e; exact hs rfl)
    else isFalse (by intro e; cases e; exact h rfl)
  | .expression as, .expression bs =>
    match decEqList as bs with
    | isTrue hs => isTrue (by rw [hs])
    | isFalse hs => isFalse (by intro e; cases e; exact hs rfl)
  | .literal _, .call _ _ => isFalse nofun
  | .literal _, .expression _ => isFalse nofun
  | .call _ _, .literal _ => isFalse nofun
  | .call _ _, .expression _ => isFalse nofun
  | .expression _, .literal _ => isFalse nofun
  | .expression _, .call _ _ => isFalse nofun

/-- Equality of term lists, decided. -/
def decEqList : (as bs : List Term) → Decidable (as = bs)
  | [], [] => isTrue rfl
  | [], _ :: _ => isFalse nofun
  | _ :: _, [] => isFalse nofun
  | a :: as, b :: bs =>
    match decEq a b with
    | isTrue h =>
      match decEqList as bs with
      | isTrue hs => isTrue (by rw [h, hs])
      | isFalse hs => isFalse (by intro e; cases e; exact hs rfl)
    | isFalse h => isFalse (by intro e; cases e; exact h rfl)

end

instance : DecidableEq Term := decEq

/-- The kind of a term. -/
def kind : Term → Kind
  | .literal _ => .literal
  | .call _ _ => .function
  | .expression _ => .expression

/-- The text of a literal. -/
def literal? : Term → Option String
  | .literal text => some text
  | _ => none

end Term

/-- The column of an expression that reads `column IS NOT NULL` and nothing more. -/
def Expression.notNullColumn? (terms : Expression) : Option String :=
  match terms with
  | [.literal column, .literal is, .literal not, .literal null] =>
    if Text.sameName is "IS" && Text.sameName not "NOT" && Text.sameName null "NULL" then
      some column
    else none
  | _ => none

end SchemaScript
