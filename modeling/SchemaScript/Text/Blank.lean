/-!
# White space

* `isBlank` — the characters that separate words: the Unicode property `White_Space`.
* `trimStart`, `trim` — text without the blanks at its start, or at both ends.

A no-break space is a blank; a zero-width space and a byte-order mark are not.
-/

set_option autoImplicit false

namespace SchemaScript.Text

/-- The characters with the Unicode property `White_Space`. -/
def isBlank (c : Char) : Bool :=
  let n := c.toNat
  (0x09 ≤ n && n ≤ 0x0D) || n == 0x20 || n == 0x85 || n == 0xA0 || n == 0x1680 ||
    (0x2000 ≤ n && n ≤ 0x200A) || n == 0x2028 || n == 0x2029 || n == 0x202F || n == 0x205F ||
    n == 0x3000

/-- A text without the blanks at its start. -/
def trimStart (s : String) : String := String.ofList (s.toList.dropWhile isBlank)

/-- A character list without the members of a class at either end. -/
def trimChars (drop : Char → Bool) (cs : List Char) : List Char :=
  ((cs.dropWhile drop).reverse.dropWhile drop).reverse

/-- A text without the blanks at its ends. -/
def trim (s : String) : String := String.ofList (trimChars isBlank s.toList)

end SchemaScript.Text
