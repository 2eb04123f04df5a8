/-!
# Letter case

Names are compared without regard to the case of the letters `A` to `Z`; every other character
counts as it stands.

* `lower`, `upper` — a text with its ASCII letters in one case.
* `sameName` — equality up to that case.
-/

set_option autoImplicit false

namespace SchemaScript.Text

/-- A text with `A` to `Z` written small. -/
def lower (s : String) : String := String.ofList (s.toList.map Char.toLower)

/-- A text with `a` to `z` written large. -/
def upper (s : String) : String := String.ofList (s.toList.map Char.toUpper)

/-- Whether two names differ at most in the case of ASCII letters. -/
def sameName (a b : String) : Bool := lower a == lower b

@[simp] theorem sameName_iff {a b : String} : sameName a b = true ↔ lower a = lower b := by
  simp [sameName]

end SchemaScript.Text
