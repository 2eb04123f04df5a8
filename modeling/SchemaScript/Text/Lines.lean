/-!
# Lines

* `indent` — the blanks in front of an indented line.
* `collapse` — a text in which no two newlines are adjacent.
* `newlines`, `byteLength` — how far a piece of text moves a position.
-/

set_option autoImplicit false

namespace SchemaScript.Text

/-- A run of `n` spaces. -/
def indent (n : Nat) : String := String.ofList (List.replicate n ' ')

/-- Every run of newlines cut to one. -/
def collapseLines : List Char → List Char
  | [] => []
  | c :: cs => if c = '\n' ∧ cs.head? = some '\n' then collapseLines cs else c :: collapseLines cs

/-- A text with every run of newlines cut to one. -/
def collapse (s : String) : String := String.ofList (collapseLines s.toList)

/-- The number of newlines in a piece of text. -/
def newlines (cs : List Char) : Nat := cs.count '\n'

/-- The number of bytes a piece of text takes in UTF-8. -/
def byteLength : List Char → Nat
  | [] => 0
  | c :: cs => c.utf8Size + byteLength cs

@[simp] theorem newlines_append (a b : List Char) : newlines (a ++ b) = newlines a + newlines b :=
  List.count_append

@[simp] theorem byteLength_nil : byteLength [] = 0 := rfl

theorem byteLength_cons (c : Char) (cs : List Char) :
    byteLength (c :: cs) = c.utf8Size + byteLength cs := rfl

@[simp] theorem byteLength_append (a b : List Char) :
    byteLength (a ++ b) = byteLength a + byteLength b := by
  induction a with
  | nil => simp
  | cons c cs ih => simp [byteLength_cons, ih, Nat.add_assoc]

end SchemaScript.Text
