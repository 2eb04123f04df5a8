import SchemaScript.Batch.Basic
import SchemaScript.Settings.Toml

/-!
# Settings in a document

* `Settings.ofText?` — the settings in a settings file. A setting it leaves out keeps its default;
  one it does not know, or one with a value of the wrong sort, spoils the file.
-/

set_option autoImplicit false

namespace SchemaScript

namespace Settings

/-- Whether a value holds nothing. -/
def isEmpty : Toml → Bool
  | .emptyList => true
  | .table _ entries => entries.isEmpty
  | _ => false

/-- The word that a value chooses: a text, or a table with that word as its only key and nothing
under it. -/
def choice? : Toml → Option String
  | .text word => some word
  | .table _ [(word, value)] => if isEmpty value then some word else none
  | _ => none

/-- A truth value. -/
def bool? : Toml → Option Bool
  | .bool b => some b
  | _ => none

/-- A text. -/
def text? : Toml → Option String
  | .text s => some s
  | _ => none

/-- The target of a name, which is spelled exactly. -/
def target? (name : String) : Option Target :=
  [Target.oracle, .postgres].find? fun t => t.name = name

/-- The level of a name, which is spelled exactly. -/
def level? (name : String) : Option Level :=
  [Level.none, .basic, .best].find? fun l => l.name = name

/-- Settings with one of them set. -/
def set? (s : Settings) : String × Toml → Option Settings
  | ("dialect", value) => do return { s with target := ← target? (← choice? value) }
  | ("optimizer", value) => do return { s with level := ← level? (← choice? value) }
  | ("sort", value) => do return { s with sort := ← bool? value }
  | ("deferrable", value) => do return { s with deferrable := ← bool? value }
  | ("header", value) => do return { s with header := some (← text? value) }
  | _ => none

/-- The settings in the text of a settings file. -/
def ofText? (text : String) : Option Settings := do
  (← Toml.read? text).foldlM set? {}

end Settings

instance : SettingsFormat where
  read? := Settings.ofText?

end SchemaScript
