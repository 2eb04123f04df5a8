/-!
# Warnings

A revision of a script notes each change it makes.

* `WarningKind` — the kinds of changes, each with a code, a summary and a message.
* `Warning`, `Warning.message` — one change with the names it concerns.
* `ReportLine`, `Warning.reportLines`, `Warning.report` — how many changes of each code there are.
* `Noted` — a value with the warnings of how it came about.
-/

set_option autoImplicit false

namespace SchemaScript

/-- The kinds of changes. -/
inductive WarningKind where
  | alterTablePromoted
  | alterIndexPromoted
  | anonymousConstraint
  | namedNotNull
  | redundantNotNull
  | redundantUnique
  | tableConstraintPromoted
  | redundantIndex
  deriving DecidableEq, Repr

namespace WarningKind

/-- The number of a kind. -/
def code : WarningKind → Nat
  | .alterTablePromoted => 1
  | .alterIndexPromoted => 2
  | .anonymousConstraint => 10
  | .namedNotNull => 20
  | .redundantNotNull => 30
  | .redundantUnique => 31
  | .tableConstraintPromoted => 40
  | .redundantIndex => 50

/-- What a report says of a kind. -/
def summary : WarningKind → String
  | .alterTablePromoted => "Alter Table (promoted)"
  | .alterIndexPromoted => "Alter Index (promoted)"
  | .anonymousConstraint => "Anonymous constraint (name needed)"
  | .namedNotNull => "Named (not null) constraint (should be anonymous)"
  | .redundantNotNull => "Redundant (not null) w/ (primary key)"
  | .redundantUnique => "Redundant (unique) w/ (primary key)"
  | .tableConstraintPromoted => "Table constraint (promoted)"
  | .redundantIndex => "Index redundant w/ (pk,unique) constraint, removed"

/-- The message of a kind: the text before the first name, and the text behind each name. -/
def template : WarningKind → String × List String
  | .alterTablePromoted =>
    ("ALTER TABLE \"", ["\" has been optimized into the \"CREATE TABLE\" declaration."])
  | .alterIndexPromoted =>
    ("ALTER INDEX \"", ["\" has been optimized into the \"CREATE INDEX\" declaration."])
  | .anonymousConstraint => ("Anonymous (", [") constraint on \"", ".", "\" has been named."])
  | .namedNotNull =>
    ("The named (not null) constraint \"", ["\" on \"", ".", "\" has been made anonymous."])
  | .redundantNotNull =>
    ("The (not null) constraint on \"",
     [".", "\" has been removed because it is redundant with the (primary key)."])
  | .redundantUnique =>
    ("The (unique) constraint \"",
     ["\" on \"", ".", "\" has been removed because it is redundant with the (primary key)."])
  | .tableConstraintPromoted =>
    ("The (",
     [") table constraint \"", "\" on \"", "\" has been promoted to the \"", "\" column."])
  | .redundantIndex =>
    ("Index (", [") is redundant with constraint \"", "\" on \"", "\", removed."])

/-- The number of names that the message of a kind has room for. -/
def arity (kind : WarningKind) : Nat := kind.template.2.length

end WarningKind

/-- One change, with the names it concerns. -/
structure Warning where
  kind : WarningKind
  args : List String
  deriving DecidableEq, Repr

namespace Warning

/-- What stands for the name of a constraint that has none. -/
def anonymous : String := "<anonymous>"

/-- The texts behind each name, each with its name. A name that is missing is empty. -/
def fill : List String → List String → String
  | [], _ => ""
  | text :: texts, [] => text ++ fill texts []
  | text :: texts, arg :: args => arg ++ text ++ fill texts args

/-- What is said of a change. -/
def message (w : Warning) : String := w.kind.template.1 ++ fill w.kind.template.2 w.args

/-- A number in at least four columns, to the right. -/
def count (n : Nat) : String :=
  let digits := toString n
  String.ofList (List.replicate (4 - digits.length) ' ') ++ digits

end Warning

/-! ## Reports -/

/-- A line of a report: a code, how many warnings have it, and what is said of it. -/
structure ReportLine where
  code : Nat
  count : Nat
  summary : String
  deriving DecidableEq, Repr

/-- A line as it is written: the count in four columns or more, and the summary. -/
def ReportLine.text (line : ReportLine) : String := Warning.count line.count ++ ": " ++ line.summary

namespace Warning

/-- Lines by ascending code, with one warning more. It counts in the line of its code. If there is
none yet, it opens one, with the summary of its kind. -/
def enterInto (w : Warning) : List ReportLine → List ReportLine
  | [] => [⟨w.kind.code, 1, w.kind.summary⟩]
  | line :: lines =>
    if line.code < w.kind.code then line :: w.enterInto lines
    else if line.code = w.kind.code then { line with count := line.count + 1 } :: lines
    else ⟨w.kind.code, 1, w.kind.summary⟩ :: line :: lines

/-- The lines of a report: the warnings are entered one after the other. -/
def reportLines (warnings : List Warning) : List ReportLine :=
  warnings.foldl (fun lines w => w.enterInto lines) []

/-- How many warnings of each code there are, a line for each code, by ascending code. -/
def report (warnings : List Warning) : String :=
  "\n".intercalate ((reportLines warnings).map ReportLine.text)

end Warning

/-! ## Values with warnings -/

/-- A value, and the warnings of how it came about. -/
structure Noted (α : Type) where
  value : α
  notes : List Warning := []
  deriving DecidableEq, Repr

instance : Monad Noted where
  pure a := ⟨a, []⟩
  bind x f :=
    let y := f x.value
    ⟨y.value, x.notes ++ y.notes⟩

namespace Noted

variable {α β : Type}

@[simp] theorem pure_value (a : α) : (pure a : Noted α).value = a := rfl

@[simp] theorem pure_notes (a : α) : (pure a : Noted α).notes = [] := rfl

@[simp] theorem bind_value (x : Noted α) (f : α → Noted β) : (x >>= f).value = (f x.value).value :=
  rfl

@[simp] theorem bind_notes (x : Noted α) (f : α → Noted β) :
    (x >>= f).notes = x.notes ++ (f x.value).notes := rfl

end Noted

instance : LawfulMonad Noted := LawfulMonad.mk' Noted
  (by intro α x; cases x; simp [Functor.map])
  (by intro α β a f; simp [bind, pure])
  (by intro α β γ x f g; simp [bind])

end SchemaScript
