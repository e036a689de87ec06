import CanonicalCwl.CommandLine.Run
import CanonicalCwl.Proofs.Files.Write

/-!
# What a Run Leaves Behind

The text of a command is complete before anything is written. So a run that fails, wherever it does,
shows nothing and leaves all files as they are; only directories may have been made for the output.
A run that succeeds either shows its text or writes it to one file, and the text is the same.

- `Command.toStdout`: the same command without a file to write.
- `CommandLine.Written`: a path was written to, and nothing else.
- `CommandLine.Unwritten`: a path was not written to, and why.
- `CommandLine.allOrNothing_run`: a command is carried out as a whole or not at all.
-/

namespace CanonicalCwl.CommandLine

variable {fs fs' : Files} {c : Command} {path text : String} {failure : Failure}

/-- The same command without a file to write. -/
def Command.toStdout : Command → Command
  | canonicalize input settings json _ => canonicalize input settings json none
  | restore input _ => restore input none
  | schema input target _ => schema input target none

@[simp] theorem Command.text_toStdout (c : Command) (fs : Files) :
    c.toStdout.text fs = c.text fs := by
  cases c <;> rfl

@[simp] theorem Command.out?_toStdout (c : Command) : c.toStdout.out? = none := by
  cases c <;> rfl

/-- A text was written to the file that the path leads to, and all other files are as before. -/
def Written (fs fs' : Files) (path text : String) : Prop :=
  ∃ place, fs'.locate path = .ok place ∧ fs'.textAt place = .ok text ∧
    ∀ other ≠ place, fs'.texts.lookup other = fs.texts.lookup other

/-- The directory for a file is there; it and those around it were made where they were missing. -/
def Prepared (fs fs' : Files) (path : String) : Prop :=
  match Path.parent? path with
  | none => fs' = fs
  | some directory => fs.makePath directory = (fs', .ok ())

/-- A text was not written to a path, for the reason that the failure gives. -/
inductive Unwritten (fs : Files) (path text : String) : Failure → Files → Prop
  /-- The directory for the file cannot be made. -/
  | directory {directory : String} {cause : IoCause} {fs' : Files}
      (hparent : Path.parent? path = some directory)
      (h : fs.makePath directory = (fs', .error cause)) :
      Unwritten fs path text (.makingDirectory directory cause) fs'
  /-- The directory is there, but the file cannot be written. -/
  | file {cause : IoCause} {fs' : Files} (hprepared : Prepared fs fs' path)
      (h : fs'.write path text = .error cause) :
      Unwritten fs path text (.writingFile path cause) fs'

/-! ## Writing the output -/

theorem prepared_iff :
    Prepared fs fs' path ↔
      ((Path.parent? path).map fs.makePath).getD (fs, .ok ()) = (fs', .ok ()) := by
  rw [Prepared]
  cases Path.parent? path with
  | none => simp [eq_comm]
  | some directory => rfl

/-- For the output nothing but directories is made. -/
theorem Prepared.onlyMakes (h : Prepared fs fs' path) : fs.OnlyMakes fs' := by
  rw [Prepared] at h
  split at h
  case h_1 => exact h ▸ .refl fs
  case h_2 => exact Files.onlyMakes_of_makePath h

/-- Where the output cannot be written, nothing but directories was made before. -/
theorem Unwritten.onlyMakes (h : Unwritten fs path text failure fs') : fs.OnlyMakes fs' := by
  cases h with
  | directory _ hmake => exact Files.onlyMakes_of_makePath hmake
  | file hprepared _ => exact hprepared.onlyMakes

/-- Either writing fails before any file has changed, or it is done. -/
theorem writeFile_fails_or_writes (fs : Files) (path text : String) :
    (∃ failure fs', writeFile fs path text = ⟨.error failure, "", fs'⟩ ∧
      Unwritten fs path text failure fs') ∨
    ∃ fs', writeFile fs path text = ⟨.ok (), "", fs'⟩ ∧ Written fs fs' path text := by
  rw [writeFile]
  match hmade : ((Path.parent? path).map fs.makePath).getD (fs, .ok ()) with
  | (fs', .error cause) =>
    cases hparent : Path.parent? path with
    | none =>
      -- There was nothing to make.
      rw [hparent] at hmade
      cases hmade
    | some directory =>
      rw [hparent] at hmade
      exact .inl ⟨_, fs', rfl, .directory hparent hmade⟩
  | (fs', .ok ()) =>
    have hprepared : Prepared fs fs' path := prepared_iff.mpr hmade
    cases hwrite : fs'.write path text with
    | error cause => exact .inl ⟨_, fs', by simp only [hwrite], .file hprepared hwrite⟩
    | ok fs'' =>
      obtain ⟨place, hlocate, htext, hothers⟩ := Files.exists_of_write hwrite
      refine .inr ⟨fs'', by simp only [hwrite], place, hlocate, htext, fun other hother => ?_⟩
      rw [hothers other hother, hprepared.onlyMakes.texts]

/-! ## Runs -/

/-- What a command leaves behind. -/
inductive AllOrNothing (fs : Files) (c : Command) : Completion → Prop
  /-- The text of the command cannot be told, so that it fails without a file to write as well.
  Nothing is shown, and nothing changes. -/
  | incomplete {failure : Failure} (h : c.toStdout.run fs = ⟨.error failure, "", fs⟩) :
      AllOrNothing fs c ⟨.error failure, "", fs⟩
  /-- The file cannot be written, as the failure says. Nothing is shown, and all files are as they
  were. The same command without the file shows the text. -/
  | unwritable {path text : String} {failure : Failure} {fs' : Files} (hout : c.out? = some path)
      (h : Unwritten fs path text failure fs') (hfiles : fs.OnlyMakes fs')
      (hstdout : c.toStdout.run fs = ⟨.ok (), Text.trimEnd text ++ "\n", fs⟩) :
      AllOrNothing fs c ⟨.error failure, "", fs'⟩
  /-- The text is written to the file, and all other files are as they were. Nothing is shown. The
  same command without the file shows the text, with one line break for the blanks at the end. -/
  | written {path text : String} {fs' : Files} (hout : c.out? = some path)
      (h : Written fs fs' path text)
      (hstdout : c.toStdout.run fs = ⟨.ok (), Text.trimEnd text ++ "\n", fs⟩) :
      AllOrNothing fs c ⟨.ok (), "", fs'⟩
  /-- Without a file to write the text of the command is shown, and nothing changes. -/
  | shown {text : String} (hout : c.out? = none) (htext : c.text fs = .ok text) :
      AllOrNothing fs c ⟨.ok (), Text.trimEnd text ++ "\n", fs⟩

theorem run_of_error (h : c.text fs = .error failure) : c.run fs = ⟨.error failure, "", fs⟩ := by
  rw [Command.run, h]

theorem run_of_path (h : c.text fs = .ok text) (hout : c.out? = some path) :
    c.run fs = writeFile fs path text := by
  rw [Command.run, h]
  simp only [hout]

theorem run_of_stdout (h : c.text fs = .ok text) (hout : c.out? = none) :
    c.run fs = ⟨.ok (), Text.trimEnd text ++ "\n", fs⟩ := by
  rw [Command.run, h]
  simp only [hout, shownText]

/-- Commands are carried out as a whole or not at all. -/
theorem allOrNothing_run (fs : Files) (c : Command) : AllOrNothing fs c (c.run fs) := by
  have htoStdout : c.toStdout.text fs = c.text fs := c.text_toStdout fs
  cases htext : c.text fs with
  | error failure =>
    rw [run_of_error htext]
    exact .incomplete (run_of_error (htoStdout.trans htext))
  | ok text =>
    cases hout : c.out? with
    | none =>
      rw [run_of_stdout htext hout]
      exact .shown hout htext
    | some path =>
      have hstdout : c.toStdout.run fs = ⟨.ok (), Text.trimEnd text ++ "\n", fs⟩ :=
        run_of_stdout (htoStdout.trans htext) c.out?_toStdout
      rw [run_of_path htext hout]
      rcases writeFile_fails_or_writes fs path text with
        ⟨failure, fs', hwrite, hunwritten⟩ | ⟨fs', hwrite, hwritten⟩
      · rw [hwrite]
        exact .unwritable hout hunwritten hunwritten.onlyMakes hstdout
      · rw [hwrite]
        exact .written hout hwritten hstdout

/-- A tool in its canonical form, and no directory beside it. -/
def toolFiles : Files where
  working := ["work"]
  texts := [(["work", "tool"], "id: one\nclass: ExpressionTool\nexpression: $(1)\n")]
  directories := []

/-- The tool in its raw form. -/
def rawTool : String := "class: ExpressionTool\nid: one\nexpression: $(1)\n"

/-- The tool in both forms, the raw one in a directory of its own. -/
def restoredFiles : Files where
  working := ["work"]
  texts := toolFiles.texts ++ [(["work", "raw", "one"], rawTool)]
  directories := [["work", "raw"]]

theorem text_restore_toolFiles (out : Option String) :
    (Command.restore "tool" out).text toolFiles = .ok rawTool := by
  have hread : toolFiles.readCanonical "tool" = .ok (.process (.expressionTool
      { id := some "one", className := some "ExpressionTool", cwlVersion := none, label := none,
        doc := [], inputs := [], outputs := [], requirements := [], hints := [],
        namespaces := none, schemas := none, expression := "$(1)" })) :=
    Result.toOption_eq_some_iff.mp (by decide +kernel)
  rw [Command.text, hread]
  exact congrArg Except.ok (by decide +kernel)

/-- The raw form of the tool is written to a file. The directory for it is made. -/
theorem allOrNothing_run_toolFiles :
    (Command.restore "tool" (some "raw/one")).run toolFiles = ⟨.ok (), "", restoredFiles⟩ ∧
      Written toolFiles restoredFiles "raw/one" rawTool := by
  have hrun : (Command.restore "tool" (some "raw/one")).run toolFiles =
      ⟨.ok (), "", restoredFiles⟩ := by
    rw [run_of_path (text_restore_toolFiles _) rfl]
    rfl
  refine ⟨hrun, ?_⟩
  have hrule := allOrNothing_run toolFiles (.restore "tool" (some "raw/one"))
  generalize (Command.restore "tool" (some "raw/one")).run toolFiles = completion at hrun hrule
  cases hrule with
  | incomplete => cases hrun
  | unwritable => cases hrun
  | shown hout _ => cases hout
  | written hout hwritten _ =>
    cases hout
    cases hrun
    obtain ⟨place, hplace, -, hothers⟩ := hwritten
    have hlocate : restoredFiles.locate "raw/one" = .ok ["work", "raw", "one"] := by
      decide +kernel
    obtain rfl := Except.ok.inj (hlocate.symm.trans hplace)
    exact ⟨_, hplace, rfl, hothers⟩

end CanonicalCwl.CommandLine
