import Mathlib.Data.List.Basic
import SchemaScript.Batch.Inputs
import SchemaScript.Settings.Basic

/-!
# How runs end

* `Attempt`, `attempt` — what became of one input, and the step of a run that finds it out.
* `runInput_eq`, `foldlM_runInput` — a run makes one attempt after the other and records each.
* `Ending`, `ending` — the attempts of a run, and the failure that ended it, if one did.
* `runBatch_eq` — the outcome of a run follows from its ending.
* `runBatch_status_eq_zero_iff` — the runs whose caller sees success.
-/

set_option autoImplicit false

namespace SchemaScript

/-! ## Attempts -/

/-- What became of an input: its output with the header, which has been written if there is a
directory to write to, or why there is none. -/
structure Attempt where
  input : String
  result : Except Failure String
  /-- The warnings of its revision. -/
  notes : List Warning
  deriving DecidableEq, Repr

/-- Whether an input succeeded. -/
def Attempt.succeeded (x : Attempt) : Bool := x.result.toOption.isSome

theorem Attempt.succeeded_of_ok {x : Attempt} {written : String} (h : x.result = .ok written) :
    x.succeeded = true := by
  rw [Attempt.succeeded, h]
  rfl

/-- A tally with one more input. Only outputs that are not in a directory are put together. -/
def Tally.record (directory : Option String) (t : Tally) (x : Attempt) : Tally :=
  let t := { t with warnings := t.warnings ++ x.notes }
  match x.result with
  | .ok text =>
    { t with
      combined := t.combined ++ (if directory.isSome then "" else text)
      succeeded := t.succeeded + 1 }
  | .error e =>
    { t with
      failed := t.failed ++ [x.input]
      complaints := t.complaints ++ "✗ " ++ x.input ++ ": " ++ e.message ++ "\n" }

section

variable {m : Type → Type} [Monad m] [FileAccess m]

/-- Reads and converts an input, and writes its output if there is a directory to write to. -/
def attempt (settings : Settings) (dumpTree : Bool) (header : String) (directory : Option String)
    (input : String) : m Attempt := do
  let noted ← renderInput settings dumpTree input
  match noted.value, directory with
  | .error e, _ => return ⟨input, .error e, noted.notes⟩
  | .ok text, none => return ⟨input, .ok (header ++ text), noted.notes⟩
  | .ok text, some directory =>
    let saved ← save directory input (header ++ text)
    return ⟨input, saved.map fun _ => header ++ text, noted.notes⟩

variable [LawfulMonad m]

theorem runInput_eq (settings : Settings) (dumpTree : Bool) (header : String)
    (directory : Option String) (t : Tally) (input : String) :
    (runInput settings dumpTree header directory t input : m Tally) = do
      return t.record directory (← attempt settings dumpTree header directory input) := by
  rw [runInput, attempt, bind_assoc]
  refine bind_congr fun noted => ?_
  obtain ⟨value, notes⟩ := noted
  cases value with
  | error e => simp [Tally.record]
  | ok text =>
    cases directory with
    | none => simp [Tally.record]
    | some directory =>
      simp only [bind_assoc, pure_bind]
      refine bind_congr fun saved => ?_
      cases saved <;> simp [Except.map, Tally.record]

/-- **A run makes one attempt after the other and records each.** -/
theorem foldlM_runInput (settings : Settings) (dumpTree : Bool) (header : String)
    (directory : Option String) (t : Tally) (inputs : List String) :
    (inputs.foldlM (runInput settings dumpTree header directory) t : m Tally) = do
      let xs ← inputs.mapM (attempt settings dumpTree header directory)
      return xs.foldl (Tally.record directory) t := by
  induction inputs generalizing t with
  | nil => simp
  | cons input inputs ih => simp [runInput_eq, ih]

end

/-! ## Endings -/

/-- What there is to say of a run at its end. -/
structure Ending where
  /-- What became of the inputs, one after the other. -/
  attempts : List Attempt := []
  /-- The directory that the outputs have been written to, if it was one. -/
  directory : Option String := none
  /-- What ended the run as a whole. -/
  failure? : Option Failure := none
  deriving DecidableEq, Repr

namespace Ending

/-- The tally of the attempts. -/
def tally (e : Ending) : Tally := e.attempts.foldl (Tally.record e.directory) {}

/-- What a run with this ending prints, and the number it ends with. -/
def outcome (e : Ending) (a : Arguments) : Outcome :=
  match e.failure? with
  | some failure => aborted a e.tally.complaints failure
  | none =>
    { stdout := if a.output.isSome then "" else e.tally.combined
      stderr := e.tally.complaints ++ e.tally.summary a.verbose
      code := e.tally.failed.length }

/-- Every input succeeded, and nothing ended the run. -/
def Clean (e : Ending) : Prop := e.failure? = none ∧ ∀ x ∈ e.attempts, x.succeeded

/-- The number of inputs that count as failed: all of them if something ended the run. -/
def lost (e : Ending) (a : Arguments) : Nat :=
  if e.failure?.isSome then a.inputs.length else e.attempts.countP (!·.succeeded)

end Ending

section

variable {m : Type → Type} [Monad m] [FileAccess m]

/-- The directory that the outputs of a run go to, if it is told one. -/
def outputDirectory? (a : Arguments) : m (Option String) :=
  match a.output with
  | some path => do if ← FileAccess.isDirectory path then pure (some path) else pure none
  | none => pure none

/-- A run on the inputs of the arguments, up to what it says of them at its end. -/
def ending [SettingsFormat] (a : Arguments) : m Ending := do
  match ← settingsOf a with
  | .error failure => return { failure? := some failure }
  | .ok settings =>
    match ← headerOf settings with
    | .error failure => return { failure? := some failure }
    | .ok header =>
      let directory ← outputDirectory? a
      let attempts ← a.inputs.mapM (attempt settings a.dumpTree header directory)
      let e : Ending := { attempts, directory }
      match directory, a.output with
      | none, some path =>
        match ← FileAccess.write path e.tally.combined with
        | .ok _ => return e
        | .error error => return { e with failure? := some (.writing path error) }
      | _, _ => return e

variable [LawfulMonad m]

/-- **The outcome of a run follows from its ending.** -/
theorem runBatch_eq [SettingsFormat] (a : Arguments) :
    (runBatch a : m Outcome) = do return (← ending a).outcome a := by
  rw [runBatch, ending, bind_assoc]
  refine bind_congr fun found => ?_
  cases found with
  | error failure => simp [Ending.outcome, Ending.tally]
  | ok settings =>
    rw [bind_assoc]
    refine bind_congr fun found => ?_
    cases found with
    | error failure => simp [Ending.outcome, Ending.tally]
    | ok header =>
      simp only [bind_assoc, foldlM_runInput, pure_bind, outputDirectory?]
      cases houtput : a.output with
      | none => simp [Ending.outcome, Ending.tally, houtput]
      | some path =>
        simp only [bind_assoc]
        refine bind_congr fun isDirectory => ?_
        cases isDirectory with
        | true => simp [Ending.outcome, Ending.tally, houtput]
        | false =>
          simp only [Bool.false_eq_true, if_false, pure_bind, bind_assoc]
          refine bind_congr fun attempts => bind_congr fun written => ?_
          cases written <;> simp [Ending.outcome, Ending.tally, houtput]

end

/-! ## The numbers of inputs -/

theorem failed_foldl_record (directory : Option String) (t : Tally) (xs : List Attempt) :
    (xs.foldl (Tally.record directory) t).failed =
      t.failed ++ (xs.filter (!·.succeeded)).map Attempt.input := by
  induction xs generalizing t with
  | nil => simp
  | cons x xs ih =>
    obtain ⟨input, result, notes⟩ := x
    rw [List.foldl_cons, ih]
    cases result <;> simp [Tally.record, Attempt.succeeded, Except.toOption]

theorem succeeded_foldl_record (directory : Option String) (t : Tally) (xs : List Attempt) :
    (xs.foldl (Tally.record directory) t).succeeded = t.succeeded + xs.countP (·.succeeded) := by
  induction xs generalizing t with
  | nil => rfl
  | cons x xs ih =>
    obtain ⟨input, result, notes⟩ := x
    rw [List.foldl_cons, ih, List.countP_cons]
    cases result with
    | error e => simp [Tally.record, Attempt.succeeded, Except.toOption]
    | ok text =>
      simp only [Tally.record, Attempt.succeeded, Except.toOption, Option.isSome_some, if_true]
      omega

theorem Ending.code_outcome (e : Ending) (a : Arguments) : (e.outcome a).code = e.lost a := by
  rw [Ending.outcome, Ending.lost]
  cases e.failure? with
  | some failure => rfl
  | none =>
    simp only [Option.isSome_none, Bool.false_eq_true, if_false]
    rw [Ending.tally, failed_foldl_record, List.nil_append, List.length_map,
      List.countP_eq_length_filter]

theorem Ending.lost_eq_zero_iff {a : Arguments} (h : a.inputs ≠ []) (e : Ending) :
    e.lost a = 0 ↔ e.Clean := by
  rw [Ending.lost, Ending.Clean]
  cases e.failure? with
  | some failure => simpa using h
  | none => simp [List.countP_eq_zero]

theorem Outcome.status_eq_zero_iff (o : Outcome) :
    o.status = 0 ↔ o.code = 0 ∨ (0 < o.code ∧ o.code ≤ largestCode ∧ 256 ∣ o.code) := by
  unfold Outcome.status largestCode
  split <;> omega

/-! ## Every input is tried -/

section

variable {σ α β : Type}

/-- A step gives values with a property, from whatever state. -/
def Always (x : StateM σ α) (P : α → Prop) : Prop := ∀ s, P (x.run s).run.1

theorem Always.pure {v : α} {P : α → Prop} (h : P v) : Always (Pure.pure v : StateM σ α) P :=
  fun _ => h

theorem Always.bind {x : StateM σ α} {f : α → StateM σ β} {P : α → Prop} {Q : β → Prop}
    (hx : Always x P) (hf : ∀ v, P v → Always (f v) Q) : Always (x >>= f) Q :=
  fun s => hf _ (hx s) _

theorem Always.trivial (x : StateM σ α) : Always x fun _ => True := fun _ => True.intro

theorem Always.mapM {f : α → StateM σ β} {g : β → α} (h : ∀ a, Always (f a) fun b => g b = a)
    (as : List α) : Always (as.mapM f) fun bs => bs.map g = as := by
  induction as with
  | nil => exact .pure rfl
  | cons a as ih =>
    rw [List.mapM_cons]
    refine (h a).bind fun b hb => ih.bind fun bs hbs => .pure ?_
    rw [List.map_cons, hb, hbs]

variable [FileAccess (StateM σ)]

theorem always_attempt (settings : Settings) (dumpTree : Bool) (header : String)
    (directory : Option String) (input : String) :
    Always (attempt settings dumpTree header directory input : StateM σ Attempt)
      (·.input = input) := by
  refine (Always.trivial _).bind fun noted _ => ?_
  cases noted.value with
  | error e => exact .pure rfl
  | ok text =>
    cases directory with
    | none => exact .pure rfl
    | some directory => exact (Always.trivial _).bind fun saved _ => .pure rfl

/-- A run that nothing ends tries every input, in order. -/
theorem always_ending [SettingsFormat] (a : Arguments) :
    Always (ending a : StateM σ Ending) fun e =>
      e.failure? = none → e.attempts.map Attempt.input = a.inputs := by
  refine (Always.trivial _).bind fun found _ => ?_
  cases found with
  | error failure => exact .pure fun h => by cases h
  | ok settings =>
    refine (Always.trivial _).bind fun found _ => ?_
    cases found with
    | error failure => exact .pure fun h => by cases h
    | ok header =>
      refine (Always.trivial _).bind fun directory _ =>
        (Always.mapM (always_attempt settings a.dumpTree header directory) a.inputs).bind
          fun attempts hattempts => ?_
      cases directory with
      | some directory => exact .pure fun _ => hattempts
      | none =>
        cases a.output with
        | none => exact .pure fun _ => hattempts
        | some path =>
          refine (Always.trivial _).bind fun written _ => ?_
          cases written with
          | ok _ => exact .pure fun _ => hattempts
          | error error => exact .pure fun h => by cases h

/-- **The runs whose caller sees success**: those that lose nothing, and those that lose a multiple
of 256 inputs. Every input is tried, unless something ends the run; then all inputs are lost. -/
theorem runBatch_status_eq_zero_iff [SettingsFormat] {a : Arguments} (h : a.inputs ≠ []) (s : σ) :
    let e := ((ending a : StateM σ Ending).run s).run.1
    let outcome := ((runBatch a : StateM σ Outcome).run s).run.1
    (e.failure? = none → e.attempts.map Attempt.input = a.inputs) ∧ outcome.code = e.lost a ∧
    (outcome.status = 0 ↔
      e.Clean ∨ (0 < e.lost a ∧ e.lost a ≤ largestCode ∧ 256 ∣ e.lost a)) := by
  intro e outcome
  have houtcome : outcome = e.outcome a := by
    simp only [outcome, e, runBatch_eq]
    rfl
  have hcode : outcome.code = e.lost a := by rw [houtcome, e.code_outcome a]
  refine ⟨always_ending a s, hcode, ?_⟩
  rw [outcome.status_eq_zero_iff, hcode, e.lost_eq_zero_iff h]

end

/-- The settings cannot be read, so that both inputs count as failed. -/
theorem runBatch_status_eq_zero_iff_settings :
    let a : Arguments := { inputs := ["a", "b"], config := some "c" }
    let e := ((ending a : StateM FileTree Ending).run {}).run.1
    let outcome := ((runBatch a : StateM FileTree Outcome).run {}).run.1
    a.inputs ≠ [] ∧ outcome.code = 2 ∧ (outcome.status = 0 ↔
      e.Clean ∨ (0 < e.lost a ∧ e.lost a ≤ largestCode ∧ 256 ∣ e.lost a)) := by
  intro a e outcome
  have hinputs : a.inputs ≠ [] := by simp [a]
  obtain ⟨-, hcode, hstatus⟩ := runBatch_status_eq_zero_iff hinputs ({} : FileTree)
  exact ⟨hinputs, hcode.trans (by decide +kernel), hstatus⟩

/-- The caller of a run that loses 256 inputs sees success. -/
theorem runBatch_status_eq_zero_lost :
    let a : Arguments := { inputs := List.replicate 256 "x" }
    let e := ((ending a : StateM FileTree Ending).run {}).run.1
    let outcome := ((runBatch a : StateM FileTree Outcome).run {}).run.1
    e.attempts.countP (!·.succeeded) = 256 ∧ outcome.code = 256 ∧ outcome.status = 0 := by
  decide +kernel

end SchemaScript
