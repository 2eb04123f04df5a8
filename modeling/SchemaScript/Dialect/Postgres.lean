import SchemaScript.Dialect.Basic
import SchemaScript.Text.Blank
import SchemaScript.Text.Quoted

/-!
# The Postgres dialect

The sparse one: it leaves out storage options, synonyms and the order of sequences, writes
inclusions as `\i path`, and can mark every foreign key as deferrable.

* `Dialect.postgres` — the dialect.
* `Postgres.nativeType`, `Postgres.nativeLiteral` — its names of types and literals.
-/

set_option autoImplicit false

namespace SchemaScript

namespace Postgres

/-- A number of 32 bits with one more decimal digit. There is none if the character is no digit, or
if the number does not fit into its bits. -/
def appendDigit? (n : UInt32) (c : Char) : Option UInt32 :=
  if c.isDigit then
    let longer := n.toNat * 10 + (c.toNat - '0'.toNat)
    if longer < UInt32.size then some (.ofNat longer) else none
  else none

/-- The number of 32 bits that a run of decimal digits stands for, with or without a plus sign
before it. -/
def decimal? (cs : List Char) : Option UInt32 :=
  let digits := if cs.head? = some '+' then cs.tail else cs
  if digits = [] then none else digits.foldlM appendDigit? 0

/-- A number as Postgres names its type: an integer type that holds as many digits, if there is
one, and a numeric otherwise. -/
def number (precision : Option String) : DataType :=
  match precision with
  | none => ⟨"NUMERIC", none⟩
  | some p =>
    match decimal? (Text.trimChars Text.isBlank p.toList) with
    | some digits =>
      if digits = 0 then ⟨"NUMERIC", some p⟩
      else if digits ≤ 5 then ⟨"SMALLINT", none⟩
      else if digits ≤ 10 then ⟨"INTEGER", none⟩
      else if digits ≤ 19 then ⟨"BIGINT", none⟩
      else ⟨"NUMERIC", some p⟩
    | none => ⟨"NUMERIC", some p⟩

/-- A type as Postgres names it. -/
def nativeType (t : DataType) : DataType :=
  match Text.upper t.name with
  | "VARCHAR2" =>
    match t.precision with
    | some p => ⟨"VARCHAR", some p⟩
    | none => ⟨"TEXT", none⟩
  | "DATE" => ⟨"TIMESTAMPTZ", none⟩
  | "BLOB" => ⟨"BYTEA", none⟩
  | "CLOB" => ⟨"TEXT", none⟩
  | "NUMBER" => number t.precision
  | _ => t

/-- The sequence whose next value a literal `sequence.nextval` asks for. -/
def sequenceOf? (literal : String) : Option String :=
  let cs := literal.toList
  let split := cs.length - ".nextval".length
  if Text.sameName (String.ofList (cs.drop split)) ".nextval" then
    some (String.ofList (cs.take split))
  else none

/-- A bare literal as Postgres writes it. -/
def nativeLiteral (literal : String) : String :=
  match Text.singleQuoted? literal with
  | some quoted => quoted
  | none =>
    match sequenceOf? literal with
    | some sequence => "nextval('" ++ sequence ++ "')"
    | none => if Text.sameName literal "sysdate" then "CURRENT_TIMESTAMP" else literal

/-- What is done with the nodes of a kind. -/
def treatment? : Kind → Option Treatment
  | .tablespace | .indexTablespace | .logging | .parallel | .rowMovement | .synonym
  | .order => some .leaveOut
  | .inclusion => some (.write .backslashInclusion)
  | .drop => some (.write .dropKnown)
  | kind => (Dialect.sharedLayout? kind).map .write

end Postgres

/-- The Postgres dialect. -/
def Dialect.postgres : Dialect where
  name := "postgres"
  treatment? := Postgres.treatment?
  order := Dialect.standardOrder
  nativeType := Postgres.nativeType
  nativeLiteral := Postgres.nativeLiteral
  writesDeferrable := true

end SchemaScript
