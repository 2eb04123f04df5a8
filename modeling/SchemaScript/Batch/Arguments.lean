import SchemaScript.Batch.Basic

/-!
# Arguments

* `Arguments.parse` — the arguments that words stand for. An option is written `-s X`, `-sX`,
  `-s=X`, `--style X` or `--style=X`; flags may share a dash; `--` ends the options; nothing is
  given twice.
* `Stop` — why there is nothing to run.
-/

set_option autoImplicit false

namespace SchemaScript

/-- Why there is nothing to run. -/
inductive Stop where
  | usage
  | version
  | help
  deriving DecidableEq, Repr

namespace Arguments

/-- Options without a value. -/
inductive Flag where
  | sort
  | deferrable
  | verbose
  | dumpTree
  | version
  | help
  deriving DecidableEq, Repr

/-- Options with a value. -/
inductive Parameter where
  | style
  | optimizer
  | output
  | header
  | config
  deriving DecidableEq, Repr

/-- The option that a letter stands for. -/
def ofLetter? : Char → Option (Flag ⊕ Parameter)
  | 's' => some (.inr .style)
  | 'O' => some (.inr .optimizer)
  | 'o' => some (.inr .output)
  | 'H' => some (.inr .header)
  | 'c' => some (.inr .config)
  | 'S' => some (.inl .sort)
  | 'D' => some (.inl .deferrable)
  | 'v' => some (.inl .verbose)
  | 'V' => some (.inl .version)
  | 'h' => some (.inl .help)
  | _ => none

/-- The option that a word stands for. -/
def ofWord? : String → Option (Flag ⊕ Parameter)
  | "style" => some (.inr .style)
  | "optimizer" => some (.inr .optimizer)
  | "output" => some (.inr .output)
  | "header" => some (.inr .header)
  | "config" => some (.inr .config)
  | "sort" => some (.inl .sort)
  | "deferrable" => some (.inl .deferrable)
  | "verbose" => some (.inl .verbose)
  | "dump-ast" => some (.inl .dumpTree)
  | "version" => some (.inl .version)
  | "help" => some (.inl .help)
  | _ => none

/-- Arguments with a flag that they did not have. -/
def raise (a : Arguments) : Flag → Except Stop Arguments
  | .sort => if a.sort then .error .usage else .ok { a with sort := true }
  | .deferrable => if a.deferrable then .error .usage else .ok { a with deferrable := true }
  | .verbose => if a.verbose then .error .usage else .ok { a with verbose := true }
  | .dumpTree => if a.dumpTree then .error .usage else .ok { a with dumpTree := true }
  | .version => .error .version
  | .help => .error .help

/-- A value that has not been given before. -/
def once {α : Type} (before new : Option α) : Except Stop (Option α) :=
  match before, new with
  | none, some a => .ok (some a)
  | _, _ => .error .usage

/-- A path, which is not empty. -/
def path? (value : String) : Option String := if value = "" then none else some value

/-- Arguments with a value that they did not have. -/
def assign (a : Arguments) (value : String) : Parameter → Except Stop Arguments
  | .style => do return { a with style := ← once a.style (Target.ofName? value) }
  | .optimizer => do return { a with optimizer := ← once a.optimizer (Level.ofName? value) }
  | .output => do return { a with output := ← once a.output (path? value) }
  | .header => do return { a with header := ← once a.header (path? value) }
  | .config => do return { a with config := ← once a.config (path? value) }

/-- Arguments with one more input. -/
def addInput (a : Arguments) (value : String) : Except Stop Arguments :=
  match path? value with
  | some path => .ok { a with inputs := a.inputs ++ [path] }
  | none => .error .usage

/-- Arguments with the options that share a dash. The last may want its value from the next word. -/
def readLetters (a : Arguments) : List Char → Except Stop (Arguments × Option Parameter)
  | [] => .ok (a, none)
  | c :: cs =>
    match ofLetter? c with
    | none => .error .usage
    | some (.inl flag) => do readLetters (← a.raise flag) cs
    | some (.inr parameter) =>
      match cs with
      | [] => .ok (a, some parameter)
      | '=' :: value => do return (← a.assign (String.ofList value) parameter, none)
      | value => do return (← a.assign (String.ofList value) parameter, none)

/-- Arguments with an option behind two dashes. It may want its value from the next word. -/
def readLong (a : Arguments) (word : List Char) : Except Stop (Arguments × Option Parameter) :=
  let (name, rest) := word.span (· ≠ '=')
  match ofWord? (String.ofList name), rest with
  | some (.inl flag), [] => do return (← a.raise flag, none)
  | some (.inr parameter), [] => .ok (a, some parameter)
  | some (.inr parameter), _ :: value => do return (← a.assign (String.ofList value) parameter, none)
  | _, _ => .error .usage

/-- Arguments with the words of a command line, given the option that waits for its value. -/
def readWords (a : Arguments) (waiting : Option Parameter) : List String → Except Stop Arguments
  | [] => if waiting.isSome then .error .usage else .ok a
  | word :: words =>
    match word.toList, waiting with
    | ['-', '-'], none => words.foldlM addInput a
    | '-' :: '-' :: name, none => do
      let (a, waiting) ← a.readLong name
      readWords a waiting words
    | '-' :: c :: cs, none => do
      let (a, waiting) ← a.readLetters (c :: cs)
      readWords a waiting words
    | '-' :: _ :: _, some _ => .error .usage
    | _, none => do readWords (← a.addInput word) none words
    | _, some parameter => do readWords (← a.assign word parameter) none words

/-- The arguments that the words of a command line stand for. There has to be an input. -/
def parse (words : List String) : Except Stop Arguments := do
  let a ← readWords {} none words
  if a.inputs.isEmpty then throw .usage else return a

end Arguments

end SchemaScript
