import SchemaScript.Dialect.Basic
import SchemaScript.Text.Quoted

/-!
# The Oracle dialect

The full one: it has storage options, synonyms, and inclusions written `@path`.

* `Dialect.oracle` — the dialect.
* `Oracle.nativeType`, `Oracle.nativeLiteral` — its names of types and literals.
-/

set_option autoImplicit false

namespace SchemaScript

namespace Oracle

/-- A type as Oracle names it. The integer types become numbers of as many digits as they hold. -/
def nativeType (t : DataType) : DataType :=
  match Text.upper t.name with
  | "NUMERIC" => ⟨"NUMBER", t.precision⟩
  | "SMALLINT" => ⟨"NUMBER", some "5"⟩
  | "INTEGER" => ⟨"NUMBER", some "10"⟩
  | "BIGINT" => ⟨"NUMBER", some "19"⟩
  | "VARCHAR" => ⟨"VARCHAR2", t.precision⟩
  | "BYTEA" => ⟨"BLOB", none⟩
  | "TEXT" => ⟨"CLOB", none⟩
  | "TIMESTAMPTZ" => ⟨"DATE", none⟩
  | _ => t

/-- A bare literal as Oracle writes it. -/
def nativeLiteral (literal : String) : String :=
  match Text.singleQuoted? literal with
  | some quoted => quoted
  | none =>
    match Text.upper literal with
    | "CURRENT_TIMESTAMP" => "SYSDATE"
    | "CURRENT_DATE" => "SYSDATE"
    | _ => literal

/-- The layout of a kind. -/
def layout? : Kind → Option Layout
  | .tablespace => some .tablespace
  | .indexTablespace => some .indexTablespace
  | .logging => some .logging
  | .parallel => some .parallel
  | .rowMovement => some .rowMovement
  | .synonym => some .synonym
  | .function => some .sequenceCall
  | .inclusion => some .atInclusion
  | kind => Dialect.sharedLayout? kind

end Oracle

/-- The Oracle dialect. -/
def Dialect.oracle : Dialect where
  name := "oracle"
  treatment? kind := (Oracle.layout? kind).map .write
  order := Dialect.standardOrder
  nativeType := Oracle.nativeType
  nativeLiteral := Oracle.nativeLiteral

end SchemaScript
