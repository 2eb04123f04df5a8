import SchemaScript.Text.Lines

/-!
# Positions in a text

A position is a byte offset with the line it lies on; columns and excerpts count characters.

* `Position`, `Position.after` — where a reader stands after a piece of text.
* `slice`, `charOffsets` — a text between two byte offsets, and the byte offsets of its characters.
* `lineStart`, `columnAt` — where the line of an offset starts, and the column of the offset.
* `excerptStart`, `excerptStop`, `excerptAt` — the part of the line around an offset.
-/

set_option autoImplicit false

namespace SchemaScript.Text

/-- A place in a text: bytes before it, and the line it is on, counted from one. -/
structure Position where
  offset : Nat
  line : Nat
  deriving DecidableEq, Repr

/-- The first place of a text. -/
def Position.start : Position := ⟨0, 1⟩

/-- The place after a piece of text. -/
def Position.after (p : Position) (piece : List Char) : Position :=
  ⟨p.offset + byteLength piece, p.line + newlines piece⟩

@[simp] theorem Position.after_nil (p : Position) : p.after [] = p := by
  simp [Position.after, newlines]

theorem Position.after_append (p : Position) (a b : List Char) :
    p.after (a ++ b) = (p.after a).after b := by
  simp [Position.after, Nat.add_assoc]

/-- The part of a text between two byte offsets. -/
def slice (text : String) (start stop : Nat) : String :=
  String.Pos.Raw.extract text ⟨start⟩ ⟨stop⟩

/-- The characters of a piece of text, each with its byte offset. The first has the given one. -/
def charOffsets : Nat → List Char → List (Nat × Char)
  | _, [] => []
  | offset, c :: cs => (offset, c) :: charOffsets (offset + c.utf8Size) cs

/-- Where the line of an offset starts: behind the last newline before it. -/
def lineStart (text : String) (offset : Nat) : Nat :=
  match (charOffsets 0 (slice text 0 offset).toList).reverse.find? (·.2 = '\n') with
  | some (i, _) => i + 1
  | none => 0

/-- The column of a byte offset in its line, counted from one. -/
def columnAt (text : String) (offset : Nat) : Nat :=
  let offset := min offset text.utf8ByteSize
  (slice text (lineStart text offset) offset).length + 1

/-- Characters of context on each side of a position. -/
def contextWidth : Nat := 30

/-- Where the excerpt around an offset starts: at the last character met on the way back to the
newline before it, of at most `contextWidth`. -/
def excerptStart (text : String) (offset : Nat) : Nat :=
  let before := (charOffsets 0 (slice text 0 offset).toList).reverse
  match ((before.takeWhile (·.2 ≠ '\n')).take contextWidth).getLast? with
  | some (i, _) => i
  | none => offset

/-- Where the excerpt around an offset stops: behind the last character met on the way to the next
newline, of at most `contextWidth`. -/
def excerptStop (text : String) (offset : Nat) : Nat :=
  let rest := charOffsets 0 (slice text offset text.utf8ByteSize).toList
  match ((rest.takeWhile (·.2 ≠ '\n')).take contextWidth).getLast? with
  | some (i, c) => offset + i + c.utf8Size
  | none => offset

/-- The part of the line around a byte offset. An offset past the end stands for the end. -/
def excerptAt (text : String) (offset : Nat) : String :=
  let offset := min offset text.utf8ByteSize
  slice text (excerptStart text offset) (excerptStop text offset)

end SchemaScript.Text
