import Mathlib.Algebra.GroupWithZero.Nat
import Mathlib.Data.List.Basic
import SchemaScript.Batch.Inputs
import SchemaScript.Proofs.Dialect.Completeness
import SchemaScript.Settings.Basic

/-!
# Runs on many inputs

A run that prints its outputs and finds its settings and its header.

* `Answers` — a step on a file system that gives an answer and changes nothing.
* `RunPlan` — the files, the settings and the header that a run goes by, with `RunPlan.alone`, what
  one input adds to a run.
* `Tally.total` — tallies put together.
* `answers_runInput`, `answers_runInputs` — an input adds to the tally what it adds alone, whatever
  came before, and so does each of a list.
* `runBatch_independent` — a run on many inputs is the runs on each of them put together.
-/

set_option autoImplicit false

namespace SchemaScript

/-! ## Steps that change nothing -/

section Answers

variable {σ α β : Type} {s : σ} {v : α} {w : β}

/-- A step gives an answer and leaves the state as it is. -/
def Answers (x : StateM σ α) (s : σ) (v : α) : Prop := x.run s = pure (v, s)

instance [DecidableEq σ] [DecidableEq α] (x : StateM σ α) (s : σ) (v : α) :
    Decidable (Answers x s v) :=
  inferInstanceAs (Decidable ((x.run s).run = (v, s)))

theorem Answers.pure : Answers (Pure.pure v) s v := rfl

theorem Answers.run_bind {x : StateM σ α} (hx : Answers x s v) (f : α → StateM σ β) :
    (x >>= f).run s = (f v).run s := by
  rw [StateT.run_bind, hx, pure_bind]

theorem Answers.bind {x : StateM σ α} {f : α → StateM σ β} (hx : Answers x s v)
    (hf : Answers (f v) s w) : Answers (x >>= f) s w :=
  (hx.run_bind f).trans hf

/-- A loop whose rounds change nothing goes through the values that the rounds give. -/
theorem Answers.foldlM {f : β → α → StateM σ β} {g : β → α → β}
    (h : ∀ b a, Answers (f b a) s (g b a)) (b : β) (as : List α) :
    Answers (as.foldlM f b) s (as.foldl g b) := by
  induction as generalizing b with
  | nil => exact .pure
  | cons a as ih =>
    rw [List.foldlM_cons]
    exact (h b a).bind (ih (g b a))

end Answers

/-- To read from a tree leaves it as it is. -/
theorem FileTree.answers_read (tree : FileTree) (path : String) :
    Answers (FileAccess.read path) tree (tree.read path) := rfl

/-! ## Tallies -/

namespace Tally

/-- A tally and one that follows it. -/
def add (t u : Tally) : Tally where
  combined := t.combined ++ u.combined
  warnings := t.warnings ++ u.warnings
  succeeded := t.succeeded + u.succeeded
  failed := t.failed ++ u.failed
  complaints := t.complaints ++ u.complaints

/-- Tallies put together. -/
def total (ts : List Tally) : Tally where
  combined := String.join (ts.map combined)
  warnings := ts.flatMap warnings
  succeeded := (ts.map succeeded).sum
  failed := ts.flatMap failed
  complaints := String.join (ts.map complaints)

/-- The outcome of a run that ends with a tally and prints the outputs. -/
def outcome (t : Tally) (verbose : Bool) : Outcome where
  stdout := t.combined
  stderr := t.complaints ++ t.summary verbose
  code := t.failed.length

theorem summary_eq (t : Tally) (verbose : Bool) :
    ∃ rest, t.summary verbose =
      "(succeeded: " ++ toString t.succeeded ++ ", failed: " ++ toString t.failed.length ++
        ", warnings: " ++ toString t.warnings.length ++ ")\n" ++ rest :=
  ⟨_, String.append_assoc ..⟩

theorem total_cons (t : Tally) (ts : List Tally) : total (t :: ts) = t.add (total ts) := by
  simp [total, add]

theorem empty_add (t : Tally) : add {} t = t := by
  simp [add]

theorem add_empty (t : Tally) : t.add {} = t := by
  simp [add]

theorem add_assoc (t u v : Tally) : (t.add u).add v = t.add (u.add v) := by
  simp [add, String.append_assoc, Nat.add_assoc]

theorem foldl_add (t : Tally) (us : List Tally) : us.foldl add t = t.add (total us) := by
  induction us generalizing t with
  | nil => exact (add_empty t).symm
  | cons u us ih => rw [List.foldl_cons, ih, total_cons, add_assoc]

theorem total_singleton (t : Tally) : total [t] = t := by
  rw [total_cons]
  exact add_empty t

end Tally

/-! ## Plans -/

/-- What a run goes by: what its files hold, its settings, and the text before every output. -/
structure RunPlan where
  files : String → Except FileError String
  settings : Settings
  header : String

namespace RunPlan

variable (p : RunPlan)

/-- The script in an input, or why there is none. -/
def script (input : String) : Except Failure Script :=
  match p.files input with
  | .error e => .error (.reading input e)
  | .ok text => (Script.parse text).mapError (.script ∘ .read)

/-- A script revised and written by the settings. -/
def write (script : Script) : Written :=
  (script.revise p.settings.level).value.writeFor p.settings.target p.settings.writeOptions

/-- The text of `RunPlan.write`, which never fails. -/
def print (script : Script) : String := (p.write script).toOption.getD ""

/-- What an input adds to a run. -/
def alone (input : String) : Tally :=
  match p.script input with
  | .ok script =>
    { combined := p.header ++ p.print script
      warnings := (script.revise p.settings.level).notes
      succeeded := 1 }
  | .error e => { failed := [input], complaints := "✗ " ++ input ++ ": " ++ e.message ++ "\n" }

/-- A run with the arguments goes by the plan from a state on: it finds the files, the settings and
the header of the plan, and prints its outputs. -/
structure Governs {σ : Type} [FileAccess (StateM σ)] [SettingsFormat] (a : Arguments) (s : σ) :
    Prop where
  files : ∀ path, Answers (FileAccess.read path) s (p.files path)
  settings : Answers (settingsOf a) s (.ok p.settings)
  header : Answers (headerOf p.settings) s (.ok p.header)
  dumpTree : a.dumpTree = false
  output : a.output = none

theorem write_eq_print (script : Script) : p.write script = .ok (p.print script) := by
  obtain ⟨text, htext⟩ := Target.exists_writeFor p.settings.target p.settings.writeOptions
    (script.revise p.settings.level).value
  have hwrite : p.write script = .ok text := htext
  rw [print, hwrite]
  rfl

variable {p} {input : String}

theorem alone_of_ok {script : Script} (h : p.script input = .ok script) :
    p.alone input =
      { combined := p.header ++ p.print script
        warnings := (script.revise p.settings.level).notes
        succeeded := 1 } := by
  rw [alone, h]

theorem alone_of_error {e : Failure} (h : p.script input = .error e) :
    p.alone input =
      { failed := [input], complaints := "✗ " ++ input ++ ": " ++ e.message ++ "\n" } := by
  rw [alone, h]

/-- What inputs add to a run: the outputs and the warnings of the scripts in them, and the inputs
without a script. -/
theorem total_alone (p : RunPlan) (inputs : List String) :
    let scripts := inputs.filterMap fun input => (p.script input).toOption
    Tally.total (inputs.map p.alone) =
      { combined := String.join (scripts.map fun script => p.header ++ p.print script)
        warnings := scripts.flatMap fun script => (script.revise p.settings.level).notes
        succeeded := scripts.length
        failed := inputs.filter fun input => (p.script input).toOption.isNone
        complaints := String.join (inputs.map fun input => (p.alone input).complaints) } := by
  induction inputs with
  | nil => rfl
  | cons input inputs ih =>
    rw [List.map_cons, Tally.total_cons, ih]
    cases hscript : p.script input with
    | ok script => simp [alone_of_ok hscript, hscript, Except.toOption, Tally.add, Nat.add_comm]
    | error e => simp [alone_of_error hscript, hscript, Except.toOption, Tally.add]

end RunPlan

/-! ## Inputs -/

section Runs

variable {σ : Type} [FileAccess (StateM σ)] [SettingsFormat] {p : RunPlan} {a : Arguments} {s : σ}

theorem answers_renderInput_of_error (h : p.Governs a s) {input : String} {e : Failure}
    (hscript : p.script input = .error e) :
    Answers (renderInput p.settings false input) s ⟨.error e, []⟩ := by
  refine (h.files input).bind ?_
  cases hfile : p.files input with
  | error fault =>
    simp only [RunPlan.script, hfile, Except.error.injEq] at hscript
    subst hscript
    exact .pure
  | ok text =>
    cases hparse : Script.parse text with
    | error fault =>
      simp only [RunPlan.script, hfile, hparse, Except.mapError, Function.comp_apply,
        Except.error.injEq] at hscript
      subst hscript
      simp only [render, hparse]
      exact .pure
    | ok script => simp [RunPlan.script, hfile, hparse, Except.mapError] at hscript

theorem answers_renderInput_of_ok (h : p.Governs a s) {input : String} {script : Script}
    (hscript : p.script input = .ok script) :
    Answers (renderInput p.settings false input) s
      ⟨.ok (p.print script), (script.revise p.settings.level).notes⟩ := by
  refine (h.files input).bind ?_
  have hwrite := p.write_eq_print script
  rw [RunPlan.write] at hwrite
  cases hfile : p.files input with
  | error fault => simp [RunPlan.script, hfile] at hscript
  | ok text =>
    cases hparse : Script.parse text with
    | error fault => simp [RunPlan.script, hfile, hparse, Except.mapError] at hscript
    | ok parsed =>
      simp only [RunPlan.script, hfile, hparse, Except.mapError, Except.ok.injEq] at hscript
      subst hscript
      simp only [render, hparse, hwrite]
      exact .pure

/-- An input adds to a run what it adds alone, whatever came before it. -/
theorem answers_runInput (h : p.Governs a s) (t : Tally) (input : String) :
    Answers (runInput p.settings false p.header none t input) s (t.add (p.alone input)) := by
  cases hscript : p.script input with
  | error e =>
    refine (answers_renderInput_of_error h hscript).bind (Answers.pure.bind ?_)
    rw [RunPlan.alone_of_error hscript]
    simp only [Tally.add, List.append_nil, String.append_empty, Nat.add_zero, String.append_assoc]
    exact .pure
  | ok script =>
    refine (answers_renderInput_of_ok h hscript).bind (Answers.pure.bind ?_)
    rw [RunPlan.alone_of_ok hscript]
    simp only [Tally.add, List.append_nil, String.append_empty]
    exact .pure

/-- Inputs add to a run what each of them adds alone. -/
theorem answers_runInputs (h : p.Governs a s) (t : Tally) (inputs : List String) :
    Answers (inputs.foldlM (runInput p.settings false p.header none) t) s
      (t.add (.total (inputs.map p.alone))) := by
  rw [← Tally.foldl_add, List.foldl_map]
  exact .foldlM (answers_runInput h) t inputs

theorem answers_runBatch (h : p.Governs a s) (inputs : List String) :
    Answers (runBatch { a with inputs }) s
      ((Tally.total (inputs.map p.alone)).outcome a.verbose) := by
  have hinputs := answers_runInputs h {} inputs
  rw [Tally.empty_add] at hinputs
  -- The settings and the header do not depend on the inputs, so the plan governs any of them.
  refine h.settings.bind (h.header.bind ?_)
  simp only [h.output, h.dumpTree]
  exact Answers.pure.bind (hinputs.bind .pure)

/-- **Runs are independent per input.** A run on many inputs ends as the runs on each of them put
together: it prints, in their order, the header and the text of each script that an input holds, it
ends with the number of the other inputs, and it tells of as many warnings as the revisions of the
scripts give. -/
theorem runBatch_independent (h : p.Governs a s) :
    let scripts := a.inputs.filterMap fun input => (p.script input).toOption
    let tally := Tally.total (a.inputs.map p.alone)
    let outcome := tally.outcome a.verbose
    Answers (runBatch a) s outcome ∧
      (∀ input, Answers (runBatch { a with inputs := [input] }) s
        ((p.alone input).outcome a.verbose)) ∧
      (∀ script, p.write script = .ok (p.print script)) ∧
      outcome.stdout = String.join (scripts.map fun script => p.header ++ p.print script) ∧
      outcome.code = a.inputs.countP (fun input => (p.script input).toOption.isNone) ∧
      ∃ rest, outcome.stderr = tally.complaints ++
        ("(succeeded: " ++ toString scripts.length ++ ", failed: " ++ toString outcome.code ++
          ", warnings: " ++
          toString (scripts.map fun script => (script.revise p.settings.level).notes.length).sum ++
          ")\n" ++ rest) := by
  intro scripts tally outcome
  have htally := p.total_alone a.inputs
  have hsucceeded : tally.succeeded = scripts.length := congrArg Tally.succeeded htally
  have hwarnings : tally.warnings.length =
      (scripts.map fun script => (script.revise p.settings.level).notes.length).sum := by
    rw [← List.length_flatMap]
    exact congrArg (fun t => t.warnings.length) htally
  refine ⟨answers_runBatch h a.inputs, fun input => ?_, p.write_eq_print, ?_, ?_, ?_⟩
  · have hrun := answers_runBatch h [input]
    rwa [List.map_singleton, Tally.total_singleton] at hrun
  · exact congrArg Tally.combined htally
  · rw [List.countP_eq_length_filter]
    exact congrArg (fun t => t.failed.length) htally
  · obtain ⟨rest, hrest⟩ := tally.summary_eq a.verbose
    rw [hsucceeded, hwarnings] at hrest
    exact ⟨rest, congrArg (tally.complaints ++ ·) hrest⟩

end Runs

/-- A run on five inputs. One cannot be read, one has no terminator, one is revised with a warning,
and one is given twice. -/
theorem runBatch_independent_five :
    let tree : FileTree :=
      { files :=
          [(["head"], "-- made\n"), (["a"], "COMMIT;"), (["b"], "COMMIT"),
            (["c"], "CREATE TABLE t (CONSTRAINT k CHECK (a > 0));\n" ++
              "ALTER TABLE t ADD CONSTRAINT u UNIQUE (a, b);")] }
    let a : Arguments :=
      { inputs := ["a", "gone", "b", "c", "a"], optimizer := some .best, header := some "head" }
    let p : RunPlan :=
      { files := tree.read, settings := { level := .best, header := some "head" }
        header := "-- made\n" }
    let outcome : Outcome :=
      { stdout :=
          "-- made\nCOMMIT;\n" ++
          "-- made\nCREATE TABLE t\n(\n    CONSTRAINT k\n        CHECK (a > 0),\n" ++
          "    CONSTRAINT u UNIQUE (a, b)\n)\n;\n" ++
          "-- made\nCOMMIT;\n"
        stderr :=
          "✗ gone: reading gone: No such file or directory (os error 2)\n" ++
          "✗ b: EOF encountered and not expected (expected SEMICOLON)\n" ++
          "(succeeded: 3, failed: 2, warnings: 1)\nFailed:\n  gone\n  b\n"
        code := 2 }
    p.Governs a tree ∧ Answers (runBatch a) tree outcome := by
  intro tree a p outcome
  have hgoverns : p.Governs a tree :=
    { files := tree.answers_read
      settings := by decide +kernel
      header := by decide +kernel
      dumpTree := rfl
      output := rfl }
  have houtcome : (Tally.total (a.inputs.map p.alone)).outcome a.verbose = outcome := by
    decide +kernel
  have hrun := (runBatch_independent hgoverns).1
  rw [houtcome] at hrun
  exact ⟨hgoverns, hrun⟩

end SchemaScript
