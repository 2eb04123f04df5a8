import SchemaScript.Proofs.Batch.Ending
import SchemaScript.Proofs.Batch.Independence
import SchemaScript.Proofs.Batch.Tree

/-!
# Outputs in a directory

Each output goes into the directory under the last name in the path of its input. Two inputs with
one such name are written to one file.

* `Attempt.SavedAs` — an output has been written under a name.
* `Delivery.Step`, `Delivery.Makes` — what one attempt makes of a tree, and what all of a run do.
* `Delivery.makes_mapM` — what a run makes of a tree.
* `Delivery.Makes.read_of_not_saved` — a path is read as before if no output has been written under
  its last name.
* `runBatch_directory` — what the files in the directory hold after a run.
-/

set_option autoImplicit false

namespace SchemaScript

/-- The output of an input has been written under a name. -/
def Attempt.SavedAs (x : Attempt) (base : String) : Prop :=
  x.succeeded ∧ Path.baseName? x.input = some base

instance (x : Attempt) (base : String) : Decidable (x.SavedAs base) :=
  inferInstanceAs (Decidable (_ ∧ _))

/-- What a run with a directory to write to goes by. -/
structure Delivery where
  settings : Settings
  dumpTree : Bool
  header : String
  directory : String
  /-- Where the directory is. -/
  place : Place

namespace Delivery

variable (d : Delivery)

/-- The directory is where it should be. -/
def At (t : FileTree) : Prop := t.resolve d.directory = .ok d.place ∧ t.hasDirectory d.place

/-- What an attempt makes of a tree: one that fails leaves it as it is, and one that succeeds sets
the file under the name of its input. -/
inductive Step : FileTree → Attempt → FileTree → Prop
  | failed {t : FileTree} {x : Attempt} (hx : x.succeeded = false) : Step t x t
  | saved {t : FileTree} {x : Attempt} {base text output : String}
      (hbase : Path.baseName? x.input = some base) (hread : t.read x.input = .ok text)
      (hrender : (render d.settings d.dumpTree text).value = .ok output)
      (hresult : x.result = .ok (d.header ++ output))
      (hpath : t.resolve (Path.join d.directory base) = .ok (d.place ++ [base])) :
      Step t x (t.setFile (d.place ++ [base]) (d.header ++ output))

/-- What attempts make of a tree, one after the other. -/
inductive Makes : FileTree → List Attempt → FileTree → Prop
  | nil {t : FileTree} : Makes t [] t
  | cons {t t₁ t' : FileTree} {x : Attempt} {xs : List Attempt} (hx : d.Step t x t₁)
      (h : Makes t₁ xs t') : Makes t (x :: xs) t'

variable {d} {t t' : FileTree} {x : Attempt} {xs : List Attempt} {base written : String}

/-! ## One attempt -/

theorem answers_renderInput (settings : Settings) (dumpTree : Bool) (t : FileTree)
    (input : String) : Answers (renderInput settings dumpTree input) t
      (match t.read input with
        | .error e => ⟨.error (.reading input e), []⟩
        | .ok text => render settings dumpTree text) := by
  refine (t.answers_read input).bind ?_
  cases t.read input <;> exact .pure

theorem run_write (path text : String) (t : FileTree) :
    (FileAccess.write path text : StateM FileTree (Except FileError Unit)).run t =
      pure (match t.write path text with
        | .ok t' => (.ok (), t')
        | .error e => (.error e, t)) := by
  cases hwrite : t.write path text <;> simp [FileAccess.write, hwrite]

/-- An output that is not written leaves the tree as it is. -/
theorem save_cases (directory input text : String) (t : FileTree) :
    (∃ e, Answers (save directory input text) t (.error e)) ∨
      ∃ base t', Path.baseName? input = some base ∧
        t.write (Path.join directory base) text = .ok t' ∧
        (save directory input text : StateM FileTree _).run t = pure (.ok (), t') := by
  unfold save
  cases hbase : Path.baseName? input with
  | none => exact .inl ⟨_, .pure⟩
  | some base =>
    have hrun := run_write (Path.join directory base) text t
    cases hwrite : t.write (Path.join directory base) text with
    | error e =>
      rw [hwrite] at hrun
      exact .inl ⟨_, Answers.bind hrun .pure⟩
    | ok t' =>
      refine .inr ⟨base, t', rfl, hwrite, ?_⟩
      rw [hwrite] at hrun
      rw [StateT.run_bind, hrun, pure_bind]
      rfl

theorem step_attempt (h : d.At t) (input : String) :
    ∃ x t', (attempt d.settings d.dumpTree d.header (some d.directory) input :
      StateM FileTree Attempt).run t = pure (x, t') ∧ d.Step t x t' := by
  have hrender := answers_renderInput d.settings d.dumpTree t input
  rw [attempt, hrender.run_bind]
  cases hread : t.read input with
  | error e => exact ⟨_, t, rfl, .failed rfl⟩
  | ok text =>
    cases hvalue : (render d.settings d.dumpTree text).value with
    | error e => exact ⟨_, t, rfl, .failed rfl⟩
    | ok output =>
      simp only
      rcases save_cases d.directory input (d.header ++ output) t with ⟨e, hsave⟩ |
        ⟨base, t', hbase, hwrite, hsave⟩
      · rw [hsave.run_bind]
        exact ⟨_, t, rfl, .failed rfl⟩
      · rw [StateT.run_bind, hsave, pure_bind]
        obtain ⟨place, hplace, rfl⟩ := FileTree.write_eq_ok hwrite
        have hwalk : t.walk (Path.join d.directory base) = .ok (d.place ++ [base]) :=
          FileTree.walk_join h.1 h.2 (Path.parts_of_baseName hbase).1
        obtain rfl : place = d.place ++ [base] := by
          have hplace' := (FileTree.resolve_eq_ok_iff.mp hplace).2
          rw [hwalk] at hplace'
          exact (Except.ok.inj hplace').symm
        exact ⟨_, _, rfl, .saved hbase hread hvalue rfl hplace⟩

namespace Step

theorem resolve_iff (h : d.Step t x t') {path : String} {place : Place} :
    t'.resolve path = .ok place ↔ t.resolve path = .ok place := by
  cases h with
  | failed _ => rfl
  | saved _ _ _ _ _ => exact FileTree.resolve_setFile

theorem at_after (h : d.Step t x t') (hat : d.At t) : d.At t' := by
  refine ⟨h.resolve_iff.mpr hat.1, ?_⟩
  cases h with
  | failed _ => exact hat.2
  | saved _ _ _ _ _ => exact hat.2

/-- An output under one name leaves the files under another as they are. -/
theorem file?_of_not_saved (h : d.Step t x t') (hx : ¬ x.SavedAs base) (parent : Place) :
    t'.file? (parent ++ [base]) = t.file? (parent ++ [base]) := by
  cases h with
  | failed _ => rfl
  | saved hbase _ _ hresult _ =>
    refine FileTree.file?_setFile_of_ne fun hsame => hx ⟨Attempt.succeeded_of_ok hresult, ?_⟩
    obtain ⟨-, hname⟩ := List.append_inj' hsame rfl
    rw [hbase, (List.cons.inj hname).1]

/-- An attempt that succeeds has written what its input becomes. -/
theorem of_ok (h : d.Step t x t') (hresult : x.result = .ok written) :
    ∃ base text output, Path.baseName? x.input = some base ∧ t.read x.input = .ok text ∧
      (render d.settings d.dumpTree text).value = .ok output ∧ written = d.header ++ output ∧
      t'.read (Path.join d.directory base) = .ok written := by
  cases h with
  | failed hx => cases hx.symm.trans (Attempt.succeeded_of_ok hresult)
  | saved hbase hread hrender hresult' hpath =>
    cases hresult.symm.trans hresult'
    exact ⟨_, _, _, hbase, hread, hrender, rfl, FileTree.read_eq_ok_iff.mpr
      ⟨_, FileTree.resolve_setFile.mpr hpath, FileTree.file?_setFile_self⟩⟩

end Step

/-! ## All attempts -/

/-- **What a run makes of a tree.** -/
theorem makes_mapM (h : d.At t) (inputs : List String) :
    ∃ xs t', (inputs.mapM (attempt d.settings d.dumpTree d.header (some d.directory)) :
      StateM FileTree (List Attempt)).run t = pure (xs, t') ∧ d.Makes t xs t' := by
  induction inputs generalizing t with
  | nil => exact ⟨[], t, rfl, .nil⟩
  | cons input inputs ih =>
    obtain ⟨x, t₁, hfirst, hstep⟩ := step_attempt h input
    obtain ⟨xs, t', hrest, hmakes⟩ := ih (hstep.at_after h)
    refine ⟨x :: xs, t', ?_, .cons hstep hmakes⟩
    rw [List.mapM_cons, StateT.run_bind, hfirst, pure_bind, StateT.run_bind, hrest, pure_bind]
    rfl

namespace Makes

variable {front back : List Attempt}

theorem split (h : d.Makes t (front ++ x :: back) t') :
    ∃ t₁ t₂, d.Makes t front t₁ ∧ d.Step t₁ x t₂ ∧ d.Makes t₂ back t' := by
  induction front generalizing t with
  | nil =>
    cases h with
    | cons hx hback => exact ⟨t, _, .nil, hx, hback⟩
  | cons y front ih =>
    cases h with
    | cons hy hrest =>
      obtain ⟨t₁, t₂, hfront, hx, hback⟩ := ih hrest
      exact ⟨t₁, t₂, .cons hy hfront, hx, hback⟩

theorem resolve_iff (h : d.Makes t xs t') {path : String} {place : Place} :
    t'.resolve path = .ok place ↔ t.resolve path = .ok place := by
  induction h with
  | nil => rfl
  | cons hx _ ih => exact ih.trans hx.resolve_iff

theorem file?_of_not_saved (h : d.Makes t xs t') (hxs : ∀ x ∈ xs, ¬ x.SavedAs base)
    (parent : Place) : t'.file? (parent ++ [base]) = t.file? (parent ++ [base]) := by
  induction h with
  | nil => rfl
  | cons hx _ ih =>
    have hlater := ih fun y hy => hxs y (List.mem_cons_of_mem _ hy)
    exact hlater.trans (hx.file?_of_not_saved (hxs _ List.mem_cons_self) parent)

/-- **A path is read as before if no output has been written under its last name**, because it leads
to a place with that name. -/
theorem read_of_not_saved (h : d.Makes t xs t') (hxs : ∀ x ∈ xs, ¬ x.SavedAs base)
    {path text : String} (hbase : Path.baseName? path = some base) :
    t'.read path = .ok text ↔ t.read path = .ok text := by
  simp only [FileTree.read_eq_ok_iff, h.resolve_iff]
  refine exists_congr fun place => and_congr_right fun hplace => ?_
  obtain ⟨parent, rfl⟩ :=
    FileTree.place_of_baseName hbase (FileTree.resolve_eq_ok_iff.mp hplace).2
  rw [h.file?_of_not_saved hxs]

end Makes

end Delivery

/-! ## Runs -/

section

variable {a : Arguments} {tree : FileTree} {settings : Settings} {header directory : String}

theorem FileTree.exists_place (h : tree.isDirectory directory) :
    ∃ place, tree.resolve directory = .ok place ∧ tree.hasDirectory place := by
  unfold FileTree.isDirectory at h
  split at h
  · exact ⟨_, ‹_›, h⟩
  · cases h

theorem answers_outputDirectory? (houtput : a.output = some directory)
    (h : tree.isDirectory directory) :
    Answers (outputDirectory? a) tree (some directory) := by
  rw [outputDirectory?, houtput]
  have hanswer : Answers (FileAccess.isDirectory directory) tree (tree.isDirectory directory) := rfl
  refine hanswer.bind ?_
  rw [if_pos h]
  exact .pure

/-- A run with a directory to write to makes its attempts, and nothing ends it. -/
theorem ending_directory [SettingsFormat] (hsettings : Answers (settingsOf a) tree (.ok settings))
    (hheader : Answers (headerOf settings) tree (.ok header)) (houtput : a.output = some directory)
    (hdirectory : tree.isDirectory directory) :
    ∃ place xs after, (ending a : StateM FileTree Ending).run tree =
        pure (({ attempts := xs, directory := some directory } : Ending), after) ∧
      Delivery.Makes ⟨settings, a.dumpTree, header, directory, place⟩ tree xs after := by
  obtain ⟨place, hplace⟩ := FileTree.exists_place hdirectory
  let d : Delivery := ⟨settings, a.dumpTree, header, directory, place⟩
  obtain ⟨xs, after, hrun, hmakes⟩ := Delivery.makes_mapM (d := d) hplace a.inputs
  refine ⟨place, xs, after, ?_, hmakes⟩
  rw [ending, hsettings.run_bind]
  dsimp only
  rw [hheader.run_bind]
  dsimp only
  rw [(answers_outputDirectory? houtput hdirectory).run_bind, StateT.run_bind, hrun, pure_bind]
  rfl

/-- **What the files in the directory hold after a run.** The file under the name of an input that
succeeded holds what it has written, if no later input with that name succeeded; and it has written
the header and what its text at the start of the run becomes, if no earlier one did. -/
theorem runBatch_directory [SettingsFormat] (hsettings : Answers (settingsOf a) tree (.ok settings))
    (hheader : Answers (headerOf settings) tree (.ok header)) (houtput : a.output = some directory)
    (hdirectory : tree.isDirectory directory) :
    let e := ((ending a : StateM FileTree Ending).run tree).run.1
    let after := ((runBatch a : StateM FileTree Outcome).run tree).run.2
    e.attempts.map Attempt.input = a.inputs ∧
    e.tally.succeeded = e.attempts.countP (·.succeeded) ∧
    ∀ front x back written, e.attempts = front ++ x :: back → x.result = .ok written →
      ∃ base, Path.baseName? x.input = some base ∧
        ((∀ y ∈ back, ¬ y.SavedAs base) →
          after.read (Path.join directory base) = .ok written) ∧
        ((∀ y ∈ front, ¬ y.SavedAs base) →
          ∃ text output, tree.read x.input = .ok text ∧
            (render settings a.dumpTree text).value = .ok output ∧ written = header ++ output) := by
  obtain ⟨place, xs, after, hrun, hmakes⟩ :=
    ending_directory hsettings hheader houtput hdirectory
  have hinputs := always_ending a tree
  have hbatch : (runBatch a : StateM FileTree Outcome).run tree =
      pure (({ attempts := xs, directory := some directory } : Ending).outcome a, after) := by
    rw [runBatch_eq, StateT.run_bind, hrun, pure_bind]
    rfl
  rw [hrun] at hinputs ⊢
  rw [hbatch]
  refine ⟨hinputs rfl, ?_, ?_⟩
  · exact (succeeded_foldl_record _ _ xs).trans (Nat.zero_add _)
  · rintro front x back written rfl hresult
    obtain ⟨t₁, t₂, hfront, hx, hback⟩ := hmakes.split
    obtain ⟨base, text, output, hbase, hread, hrender, hwritten, hfile⟩ := hx.of_ok hresult
    have hjoin : Path.baseName? (Path.join directory base) = some base :=
      Path.baseName?_join directory (Path.parts_of_baseName hbase).1
    refine ⟨base, hbase, fun hlater => ?_, fun hearlier => ?_⟩
    · exact (hback.read_of_not_saved hlater hjoin).mpr hfile
    · exact ⟨text, output, (hfront.read_of_not_saved hearlier hbase).mp hread, hrender, hwritten⟩

end

/-- An input in the directory itself, between one that goes there from elsewhere and one that cannot
be read. -/
theorem runBatch_directory_inside :
    let tree : FileTree :=
      { files :=
          [(["head"], "-- h\n"), (["x", "a"], "COMMIT;"), (["out", "b"], "DROP TABLE t;"),
            (["out", "a"], "old")]
        directories := [["x"], ["out"]] }
    let a : Arguments :=
      { inputs := ["x/a", "out/b", "gone"], output := some "out/", header := some "head" }
    let settings : Settings := { header := some "head" }
    let after := ((runBatch a : StateM FileTree Outcome).run tree).run.2
    Answers (settingsOf a) tree (.ok settings) ∧ Answers (headerOf settings) tree (.ok "-- h\n") ∧
      tree.isDirectory "out/" ∧ after.read "out/b" = .ok "-- h\nDROP TABLE t;\n" := by
  intro tree a settings after
  have hsettings : Answers (settingsOf a) tree (.ok settings) := by decide +kernel
  have hheader : Answers (headerOf settings) tree (.ok "-- h\n") := by decide +kernel
  have hdirectory : tree.isDirectory "out/" := by decide +kernel
  have hattempts : ((ending a : StateM FileTree Ending).run tree).run.1.attempts =
      [⟨"x/a", .ok "-- h\nCOMMIT;\n", []⟩] ++ ⟨"out/b", .ok "-- h\nDROP TABLE t;\n", []⟩ ::
        [⟨"gone", .error (.reading "gone" .notFound), []⟩] := by
    decide +kernel
  obtain ⟨base, hbase, hlast, -⟩ :=
    (runBatch_directory hsettings hheader rfl hdirectory).2.2 _ _ _ _ hattempts rfl
  obtain rfl : "b" = base := by
    have hb : Path.baseName? "out/b" = some "b" := by decide +kernel
    exact Option.some.inj (hb.symm.trans hbase)
  refine ⟨hsettings, hheader, hdirectory, hlast ?_⟩
  decide +kernel

/-- Two inputs with one name: both are counted as succeeded, and the output of the first is lost. -/
theorem runBatch_directory_same_name :
    let tree : FileTree :=
      { files := [(["x", "a"], "COMMIT;"), (["y", "a"], "DROP TABLE t;")]
        directories := [["x"], ["y"], ["out"]] }
    let a : Arguments := { inputs := ["x/a", "y/a"], output := some "out" }
    let e := ((ending a : StateM FileTree Ending).run tree).run.1
    let after := ((runBatch a : StateM FileTree Outcome).run tree).run.2
    e.tally.succeeded = 2 ∧ e.tally.failed = [] ∧ tree.read "x/a" = .ok "COMMIT;" ∧
      (render {} false "COMMIT;").value = .ok "COMMIT;\n" ∧
      after.read "out/a" = .ok "DROP TABLE t;\n" := by
  decide +kernel

end SchemaScript
