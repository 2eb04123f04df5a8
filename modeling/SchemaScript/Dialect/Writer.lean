import SchemaScript.Dialect.Basic
import SchemaScript.Text.Lines

/-!
# Writers

A writer is a dialect with options, checked to be complete.

* `WriteError` — why a node cannot be written.
* `Writer.ofDialect` — the writer for a dialect, if the dialect treats every kind and orders every
  kind of statement and of column clause.
* `Writer.write` — one node, by the treatment of its kind.
* `Writer.sorted` — items in the order of their kinds, items of one rank as they came.
-/

set_option autoImplicit false

namespace SchemaScript

/-- Why a node cannot be written. -/
inductive WriteError where
  /-- The dialect says nothing of this kind. -/
  | untreated (dialect : String) (kind : Kind)
  /-- The order of the dialect leaves out this kind. -/
  | unordered (kind : Kind)
  /-- The layout for one kind was asked to write another. -/
  | mismatch (layout kind : Kind)
  deriving DecidableEq, Repr

/-- What is said of a node that cannot be written. -/
def WriteError.message : WriteError → String
  | .untreated dialect kind => "plugin for " ++ kind.tag ++ ", not-found in dialect '" ++ dialect ++ "'"
  | .unordered kind => "factory missing ordering for " ++ kind.tag
  | .mismatch layout kind => "plugin for " ++ layout.tag ++ " cannot render " ++ kind.tag

/-- Choices that are left to the user of a writer. -/
structure WriteOptions where
  /-- Statements in the order of their kinds, and not as they come. -/
  sort : Bool := false
  /-- Every foreign key deferrable, where the dialect honors that. -/
  deferrable : Bool := false
  deriving DecidableEq, Repr

/-- A dialect with options. -/
structure Writer where
  dialect : Dialect
  options : WriteOptions := {}
  /-- The last touch to the text of every node. No two newlines are adjacent after it. -/
  finish : String → String := Text.collapse

/-- What a node is written as, or why it cannot be. -/
abbrev Written := Except WriteError String

namespace Writer

/-- The step by which nested lines are indented. -/
def tab : Nat := 4

/-- The kinds that need a place in the order of a dialect. -/
def orderedKinds : List Kind := Kind.statements ++ Kind.columnClauses

/-- The writer for a dialect that is complete. Otherwise the first kind that lacks a treatment is
told, or else the first that lacks a place in the order. -/
def ofDialect (dialect : Dialect) (options : WriteOptions) : Except WriteError Writer :=
  match Kind.all.find? fun k => (dialect.treatment? k).isNone with
  | some k => .error (.untreated dialect.name k)
  | none =>
    match orderedKinds.find? fun k => (dialect.rank? k).isNone with
    | some k => .error (.unordered k)
    | none => .ok { dialect, options }

/-- Refuses a node of a kind that a layout is not made for. -/
def refuse (layout : Layout) (kind : Kind) : Written := .error (.mismatch layout.kind kind)

/-- A node of a kind, given how each layout writes it. -/
def write (w : Writer) (kind : Kind) (form : Layout → Written) : Written :=
  match w.dialect.treatment? kind with
  | none => .error (.untreated w.dialect.name kind)
  | some .leaveOut => .ok ""
  | some (.write layout) => (form layout).map w.finish

/-- The place of a kind in the order of the dialect. -/
def rank (w : Writer) (kind : Kind) : Except WriteError Nat :=
  match w.dialect.rank? kind with
  | some r => .ok r
  | none => .error (.unordered kind)

/-- Items in the order of their kinds. Items of one rank stay as they came. -/
def sorted {α : Type} (w : Writer) (kind : α → Kind) (items : List α) :
    Except WriteError (List α) := do
  let ranked ← items.mapM fun a => return (← w.rank (kind a), a)
  return (ranked.mergeSort fun a b => a.1 ≤ b.1).map Prod.snd

end Writer

end SchemaScript
