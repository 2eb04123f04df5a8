import SchemaScript.Dialect.Target
import SchemaScript.Dialect.Writer
import SchemaScript.Revision.Level

/-!
# What a run goes by

* `Arguments` — what a run is asked for.
* `Settings` — what a run does, with `Settings.override`, what it does when it is asked for more.
* `SettingsFormat` — how a text holds settings. A run is the same for every format.
-/

set_option autoImplicit false

namespace SchemaScript

/-- What the command line asks for. -/
structure Arguments where
  inputs : List String := []
  style : Option Target := none
  optimizer : Option Level := none
  output : Option String := none
  header : Option String := none
  config : Option String := none
  sort : Bool := false
  deferrable : Bool := false
  verbose : Bool := false
  dumpTree : Bool := false
  deriving DecidableEq, Repr

/-- What a run of the program does. -/
structure Settings where
  target : Target := .oracle
  level : Level := .none
  sort : Bool := false
  deferrable : Bool := false
  /-- The file whose text stands before every output. -/
  header : Option String := none
  deriving DecidableEq, Repr

namespace Settings

/-- The options of a writer. -/
def writeOptions (s : Settings) : WriteOptions := { sort := s.sort, deferrable := s.deferrable }

/-- Settings with what the arguments ask for. -/
def override (s : Settings) (a : Arguments) : Settings where
  target := a.style.getD s.target
  level := a.optimizer.getD s.level
  sort := s.sort || a.sort
  deferrable := s.deferrable || a.deferrable
  header := a.header.or s.header

end Settings

/-- How a text holds settings. -/
class SettingsFormat where
  /-- The settings in a text, if it holds any. -/
  read? : String → Option Settings

end SchemaScript
