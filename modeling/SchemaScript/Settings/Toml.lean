/-!
# Settings files

Settings are kept in TOML. No setting is a number, a date or a list with items in it, so that a
document with one of these reads as none at all.

* `Toml` — the values of a document.
* `Toml.read?` — the entries of a document.

The rules for the characters of a document come first, then those for strings, keys and values, and
last those for how lines build tables.
-/

set_option autoImplicit false

namespace SchemaScript

namespace Toml

/-- How a table came to be. -/
inductive Origin where
  /-- Named by a header on the way to another table. -/
  | implied
  /-- Opened by a header of its own. -/
  | headed
  /-- Named in front of a dot in a key. -/
  | dotted
  /-- Written in braces. -/
  | inline
  deriving DecidableEq, Repr

end Toml

/-- A value of a document. -/
inductive Toml where
  | text (value : String)
  | bool (value : Bool)
  | emptyList
  | table (origin : Toml.Origin) (entries : List (String × Toml))
  deriving Repr, Inhabited

namespace Toml

/-- What is read from the head of a text, with the rest of it, if it fits. -/
abbrev Rule (α : Type) := List Char → Option (α × List Char)

/-! ## Characters -/

/-- Characters that may stand in a string or comment: all but control characters, tabs apart. -/
def isPlain (c : Char) : Bool := c == '\t' || (0x20 ≤ c.toNat && c.toNat ≠ 0x7F)

/-- A space or a tab. -/
def isSpace (c : Char) : Bool := c == ' ' || c == '\t'

/-- A text without the spaces and tabs at its head. -/
def skipSpaces (cs : List Char) : List Char := cs.dropWhile isSpace

/-- What follows a line ending. -/
def newline? : List Char → Option (List Char)
  | '\n' :: cs => some cs
  | '\r' :: '\n' :: cs => some cs
  | _ => none

/-- What follows a comment that may stand at the head of a text. -/
def skipComment (cs : List Char) : List Char :=
  if cs.head? = some '#' then cs.dropWhile isPlain else cs

/-- What follows the end of a line: spaces, a comment, and a line ending or the end of the text. -/
def lineEnd? (cs : List Char) : Option (List Char) :=
  match skipComment (skipSpaces cs) with
  | [] => some []
  | cs => newline? cs

/-! ## Strings -/

/-- The value of a hexadecimal digit. -/
def hexValue? (c : Char) : Option Nat :=
  if c.isDigit then some (c.toNat - '0'.toNat)
  else if 'a' ≤ c ∧ c ≤ 'f' then some (c.toNat - 'a'.toNat + 10)
  else if 'A' ≤ c ∧ c ≤ 'F' then some (c.toNat - 'A'.toNat + 10)
  else none

/-- The character that hexadecimal digits stand for. -/
def hexChar? (digits : List Char) : Option Char := do
  let values ← digits.mapM hexValue?
  let n := values.foldl (fun n v => n * 16 + v) 0
  if n.isValidChar then some (Char.ofNat n) else none

/-- The character that an escape stands for, behind the backslash. -/
def escape? : Rule Char
  | 'b' :: cs => some ('\x08', cs)
  | 't' :: cs => some ('\t', cs)
  | 'n' :: cs => some ('\n', cs)
  | 'f' :: cs => some ('\x0C', cs)
  | 'r' :: cs => some ('\r', cs)
  | '"' :: cs => some ('"', cs)
  | '\\' :: cs => some ('\\', cs)
  | 'u' :: cs =>
    if cs.length < 4 then none else (hexChar? (cs.take 4)).map (·, cs.drop 4)
  | 'U' :: cs =>
    if cs.length < 8 then none else (hexChar? (cs.take 8)).map (·, cs.drop 8)
  | _ => none

/-- A string in double quotes, behind the opening one. -/
def basicBody? (cs : List Char) : Option (List Char × List Char) :=
  match cs with
  | [] => none
  | '"' :: cs => some ([], cs)
  | '\\' :: tail =>
    match escape? tail with
    | none => none
    | some (c, rest) =>
      if rest.length ≤ tail.length then (basicBody? rest).map fun (s, rest) => (c :: s, rest)
      else none
  | c :: cs => if isPlain c then (basicBody? cs).map fun (s, rest) => (c :: s, rest) else none
termination_by cs.length

/-- A string in single quotes, behind the opening one. -/
def literalBody? : Rule (List Char)
  | [] => none
  | '\'' :: cs => some ([], cs)
  | c :: cs => if isPlain c then (literalBody? cs).map fun (s, rest) => (c :: s, rest) else none

/-- The end of a string over several lines, behind three quotes: one or two quotes more belong to
the string. -/
def closing (quote : Char) : List Char → List Char × List Char
  | a :: b :: cs =>
    if a = quote then if b = quote then ([quote, quote], cs) else ([quote], b :: cs)
    else ([], a :: b :: cs)
  | [a] => if a = quote then ([quote], []) else ([], [a])
  | [] => ([], [])

/-- A text without the spaces, tabs and line endings at its head. -/
def skipLines (cs : List Char) : List Char :=
  match newline? (skipSpaces cs) with
  | none => skipSpaces cs
  | some tail => if tail.length < cs.length then skipLines tail else tail
termination_by cs.length

/-- What follows a line that a backslash joins to the next, behind the backslash. -/
def continuation? (cs : List Char) : Option (List Char) :=
  (newline? (skipSpaces cs)).map skipLines

/-- A string over several lines in double quotes, behind the opening ones. -/
def longBasicBody? (cs : List Char) : Option (List Char × List Char) :=
  match cs with
  | [] => none
  | '"' :: '"' :: '"' :: cs => some (closing '"' cs)
  | '\\' :: tail =>
    match continuation? tail with
    | some rest => if rest.length ≤ tail.length then longBasicBody? rest else none
    | none =>
      match escape? tail with
      | none => none
      | some (c, rest) =>
        if rest.length ≤ tail.length then (longBasicBody? rest).map fun (s, rest) => (c :: s, rest)
        else none
  | '\r' :: '\n' :: cs => (longBasicBody? cs).map fun (s, rest) => ('\n' :: s, rest)
  | c :: cs =>
    if isPlain c || c == '\n' then (longBasicBody? cs).map fun (s, rest) => (c :: s, rest) else none
termination_by cs.length

/-- A string over several lines in single quotes, behind the opening ones. -/
def longLiteralBody? : Rule (List Char)
  | [] => none
  | '\'' :: '\'' :: '\'' :: cs => some (closing '\'' cs)
  | '\r' :: '\n' :: cs => (longLiteralBody? cs).map fun (s, rest) => ('\n' :: s, rest)
  | c :: cs =>
    if isPlain c || c == '\n' then (longLiteralBody? cs).map fun (s, rest) => (c :: s, rest)
    else none

/-- A text without the line ending at its head. -/
def skipNewline (cs : List Char) : List Char := (newline? cs).getD cs

/-- A string on one line. -/
def shortString? : Rule String
  | '"' :: cs => (basicBody? cs).map fun (s, rest) => (String.ofList s, rest)
  | '\'' :: cs => (literalBody? cs).map fun (s, rest) => (String.ofList s, rest)
  | _ => none

/-- A string. -/
def string? : Rule String
  | '"' :: '"' :: '"' :: cs =>
    (longBasicBody? (skipNewline cs)).map fun (s, rest) => (String.ofList s, rest)
  | '\'' :: '\'' :: '\'' :: cs =>
    (longLiteralBody? (skipNewline cs)).map fun (s, rest) => (String.ofList s, rest)
  | cs => shortString? cs

/-! ## Keys -/

/-- The characters of a key without quotes. -/
def isKeyChar (c : Char) : Bool := c.isAlphanum || c == '_' || c == '-'

/-- One part of a key. -/
def keyPart? (cs : List Char) : Option (String × List Char) :=
  match cs.head? with
  | some '"' => shortString? cs
  | some '\'' => shortString? cs
  | _ =>
    match cs.span isKeyChar with
    | ([], _) => none
    | (key, rest) => some (String.ofList key, rest)

/-- A key: parts with dots between them, and spaces around the parts. -/
def key? (cs : List Char) : Option (List String × List Char) :=
  match keyPart? (skipSpaces cs) with
  | none => none
  | some (part, rest) =>
    match skipSpaces rest with
    | '.' :: tail =>
      if tail.length < cs.length then (key? tail).map fun (parts, rest) => (part :: parts, rest)
      else none
    | rest => some ([part], rest)
termination_by cs.length

/-! ## Tables -/

/-- Entries with another value under a key that they have. -/
def replace (key : String) (value : Toml) (entries : List (String × Toml)) :
    List (String × Toml) :=
  entries.map fun entry => if entry.1 = key then (key, value) else entry

/-- Entries with a value under a key with dots in it. No key gets a second value, and only dots
reach into a table that dots have made. -/
def insert? (value : Toml) : List String → List (String × Toml) → Option (List (String × Toml))
  | [], _ => none
  | [key], entries =>
    match entries.lookup key with
    | none => some (entries ++ [(key, value)])
    | some _ => none
  | key :: keys, entries =>
    match entries.lookup key with
    | none => (insert? value keys []).map fun inner => entries ++ [(key, .table .dotted inner)]
    | some (.table .dotted inner) =>
      (insert? value keys inner).map fun inner => replace key (.table .dotted inner) entries
    | some _ => none

/-- Entries with a table opened by a header. A table is opened once, and never inside braces. -/
def openTable? : List String → List (String × Toml) → Option (List (String × Toml))
  | [], _ => none
  | [key], entries =>
    match entries.lookup key with
    | none => some (entries ++ [(key, .table .headed [])])
    | some (.table .implied inner) => some (replace key (.table .headed inner) entries)
    | some _ => none
  | key :: keys, entries =>
    match entries.lookup key with
    | none => (openTable? keys []).map fun inner => entries ++ [(key, .table .implied inner)]
    | some (.table .inline _) => none
    | some (.table origin inner) =>
      (openTable? keys inner).map fun inner => replace key (.table origin inner) entries
    | some _ => none

/-- Entries with a value under a key of the table that a header has opened. -/
def insertUnder? (header key : List String) (value : Toml) (entries : List (String × Toml)) :
    Option (List (String × Toml)) :=
  match header with
  | [] => insert? value key entries
  | name :: names =>
    match entries.lookup name with
    | some (.table origin inner) =>
      (insertUnder? names key value inner).map fun inner => replace name (.table origin inner) entries
    | _ => none

/-! ## Values -/

/-- A text without the blanks, line endings and comments at its head. -/
def skipBlankLines (cs : List Char) : List Char :=
  let rest := skipComment (skipSpaces cs)
  match newline? rest with
  | none => rest
  | some tail => if tail.length < cs.length then skipBlankLines tail else tail
termination_by cs.length

/-- A word that stands for a truth value. -/
def bool? : Rule Bool
  | 't' :: 'r' :: 'u' :: 'e' :: cs => some (true, cs)
  | 'f' :: 'a' :: 'l' :: 's' :: 'e' :: cs => some (false, cs)
  | _ => none

/-- A value. The depth bounds how far braces are nested. -/
def value? : (depth : Nat) → Rule Toml
  | 0, _ => none
  | depth + 1, cs =>
    match cs.head? with
    | some '"' => (string? cs).map fun (s, rest) => (.text s, rest)
    | some '\'' => (string? cs).map fun (s, rest) => (.text s, rest)
    | some '[' =>
      match skipBlankLines cs.tail with
      | ']' :: rest => some (.emptyList, rest)
      | _ => none
    | some '\x7b' =>
      match skipSpaces cs.tail with
      | '\x7d' :: rest => some (.table .inline [], rest)
      | rest => (entries depth cs.length [] rest).map fun (es, rest) => (.table .inline es, rest)
    | _ => (bool? cs).map fun (b, rest) => (.bool b, rest)
where
  /-- The entries of a table in braces, one or more, and the closing brace. -/
  entries (depth : Nat) : (room : Nat) → List (String × Toml) → Rule (List (String × Toml))
    | 0, _, _ => none
    | room + 1, before, cs => do
      let (key, rest) ← key? cs
      match rest with
      | '=' :: rest => do
        let (value, rest) ← value? depth (skipSpaces rest)
        let es ← insert? value key before
        match skipSpaces rest with
        | ',' :: rest => entries depth room es rest
        | '\x7d' :: rest => some (es, rest)
        | _ => none
      | _ => none

/-! ## Documents -/

/-- One line with something on it: a header, or a value under a key. -/
inductive Line where
  | header (path : List String)
  | entry (key : List String) (value : Toml)

/-- A header, a key with its value, or the refusal of what is neither. -/
def line? (cs : List Char) : Option (Line × List Char) :=
  match cs with
  | '[' :: cs => do
    let (path, rest) ← key? cs
    match rest with
    | ']' :: rest => return (.header path, ← lineEnd? rest)
    | _ => none
  | cs => do
    let (key, rest) ← key? cs
    match rest with
    | '=' :: rest => do
      let rest := skipSpaces rest
      let (value, rest) ← value? rest.length rest
      return (.entry key value, ← lineEnd? rest)
    | _ => none

/-- The entries of a document from a line on, given the header above it and the entries so far. -/
def lines? (header : List String) (entries : List (String × Toml)) (cs : List Char) :
    Option (List (String × Toml)) :=
  match skipBlankLines cs with
  | [] => some entries
  | c :: rest =>
    match line? (c :: rest) with
    | none => none
    | some (.header path, tail) =>
      match openTable? path entries with
      | none => none
      | some entries => if tail.length < cs.length then lines? path entries tail else none
    | some (.entry key value, tail) =>
      match insertUnder? header key value entries with
      | none => none
      | some entries => if tail.length < cs.length then lines? header entries tail else none
termination_by cs.length

/-- The entries of a document. A byte-order mark may stand before it. -/
def read? (text : String) : Option (List (String × Toml)) :=
  match text.toList with
  | '\uFEFF' :: cs => lines? [] [] cs
  | cs => lines? [] [] cs

end Toml

end SchemaScript
