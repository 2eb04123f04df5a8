import SchemaScript.Text.Letters

/-!
# Keywords

The words of a schema script that are more than names.

* `Keyword`, `Keyword.all`, `Keyword.name` — the words and how they are spelled.
* `Keyword.ofWord?` — the keyword a word spells, whatever its letter case.
* `Keyword.isType`, `Keyword.mayBeName`, `Keyword.isDate` — what a keyword may stand for.
-/

set_option autoImplicit false

namespace SchemaScript

/-- The words with a meaning of their own. -/
inductive Keyword where
  | create
  | replace
  | insert
  | to
  | into
  | values
  | alter
  | table
  | column
  | index
  | unique
  | constraint
  | references
  | bytea
  | blob
  | clob
  | char
  | varchar
  | varchar2
  | number
  | numeric
  | smallint
  | integer
  | bigint
  | float
  | text
  | date
  | timestamp
  | timestamptz
  | not
  | null
  | on
  | default
  | sequence
  | synonym
  | start
  | with_
  | primary
  | foreign
  | check
  | key
  | delete
  | cascade
  | set
  | currentTimestamp
  | currentDate
  | sysdate
  | and
  | or
  | between
  | in_
  | is
  | enable
  | disable
  | row
  | movement
  | tablespace
  | logging
  | nologging
  | parallel
  | noparallel
  | using_
  | comment
  | add
  | drop
  | for_
  | global
  | temporary
  | commit
  | preserve
  | rows
  | order
  | rename
  | modify
  | deferrable
  deriving DecidableEq, Repr

namespace Keyword

/-- Every keyword. -/
def all : List Keyword :=
  [.create, .replace, .insert, .to, .into, .values, .alter, .table, .column, .index, .unique,
   .constraint, .references, .bytea, .blob, .clob, .char, .varchar, .varchar2, .number, .numeric,
   .smallint, .integer, .bigint, .float, .text, .date, .timestamp, .timestamptz, .not, .null,
   .on, .default, .sequence, .synonym, .start, .with_, .primary, .foreign, .check, .key, .delete,
   .cascade, .set, .currentTimestamp, .currentDate, .sysdate, .and, .or, .between, .in_, .is,
   .enable, .disable, .row, .movement, .tablespace, .logging, .nologging, .parallel, .noparallel,
   .using_, .comment, .add, .drop, .for_, .global, .temporary, .commit, .preserve, .rows, .order,
   .rename, .modify, .deferrable]

/-- How a keyword is written. -/
def name : Keyword → String
  | .create => "CREATE"
  | .replace => "REPLACE"
  | .insert => "INSERT"
  | .to => "TO"
  | .into => "INTO"
  | .values => "VALUES"
  | .alter => "ALTER"
  | .table => "TABLE"
  | .column => "COLUMN"
  | .index => "INDEX"
  | .unique => "UNIQUE"
  | .constraint => "CONSTRAINT"
  | .references => "REFERENCES"
  | .bytea => "BYTEA"
  | .blob => "BLOB"
  | .clob => "CLOB"
  | .char => "CHAR"
  | .varchar => "VARCHAR"
  | .varchar2 => "VARCHAR2"
  | .number => "NUMBER"
  | .numeric => "NUMERIC"
  | .smallint => "SMALLINT"
  | .integer => "INTEGER"
  | .bigint => "BIGINT"
  | .float => "FLOAT"
  | .text => "TEXT"
  | .date => "DATE"
  | .timestamp => "TIMESTAMP"
  | .timestamptz => "TIMESTAMPTZ"
  | .not => "NOT"
  | .null => "NULL"
  | .on => "ON"
  | .default => "DEFAULT"
  | .sequence => "SEQUENCE"
  | .synonym => "SYNONYM"
  | .start => "START"
  | .with_ => "WITH"
  | .primary => "PRIMARY"
  | .foreign => "FOREIGN"
  | .check => "CHECK"
  | .key => "KEY"
  | .delete => "DELETE"
  | .cascade => "CASCADE"
  | .set => "SET"
  | .currentTimestamp => "CURRENT_TIMESTAMP"
  | .currentDate => "CURRENT_DATE"
  | .sysdate => "SYSDATE"
  | .and => "AND"
  | .or => "OR"
  | .between => "BETWEEN"
  | .in_ => "IN"
  | .is => "IS"
  | .enable => "ENABLE"
  | .disable => "DISABLE"
  | .row => "ROW"
  | .movement => "MOVEMENT"
  | .tablespace => "TABLESPACE"
  | .logging => "LOGGING"
  | .nologging => "NOLOGGING"
  | .parallel => "PARALLEL"
  | .noparallel => "NOPARALLEL"
  | .using_ => "USING"
  | .comment => "COMMENT"
  | .add => "ADD"
  | .drop => "DROP"
  | .for_ => "FOR"
  | .global => "GLOBAL"
  | .temporary => "TEMPORARY"
  | .commit => "COMMIT"
  | .preserve => "PRESERVE"
  | .rows => "ROWS"
  | .order => "ORDER"
  | .rename => "RENAME"
  | .modify => "MODIFY"
  | .deferrable => "DEFERRABLE"

/-- The keyword that a word spells, without regard to letter case. -/
def ofWord? (word : String) : Option Keyword := all.find? fun k => Text.sameName k.name word

/-- Whether a keyword is the name of a column type. -/
def isType : Keyword → Bool
  | .char | .varchar | .varchar2 | .number | .numeric | .smallint | .integer | .bigint | .float
  | .date | .timestamp | .timestamptz | .bytea | .blob | .clob | .text => true
  | _ => false

/-- Whether a keyword stands for a point in time where a value is asked for. -/
def isDate : Keyword → Bool
  | .sysdate | .currentTimestamp | .currentDate => true
  | _ => false

/-- Whether a keyword may also serve as a name. The others carry a meaning inside expressions, or
open a constraint. -/
def mayBeName : Keyword → Bool
  | .constraint | .check | .and | .or | .between | .in_ | .is | .not | .null | .sysdate
  | .currentTimestamp | .currentDate => false
  | _ => true

end Keyword

end SchemaScript
