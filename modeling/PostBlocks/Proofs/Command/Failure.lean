import PostBlocks.Command.Run

/-!
# Commands that fail

A command line that ends with a code other than zero leaves nothing behind: nothing is printed, and
the folder holds what it held before (`Script.run_ofArguments_of_code_ne_zero`).

This is a fact about scripts and not about one run. In an *atomic* script every end with an error
code prints nothing, and once a file has been written there are only ends with code zero
(`Script.IsAtomic`). Running an atomic script on any folder keeps the promise
(`Script.IsAtomic.run`); the ways in which scripts are put together keep it too, so the script of
every command line is atomic (`Script.isAtomic_ofArguments`).

Two predicates are needed because a file is the one thing that cannot be taken back. Behind a file
that has been written, a script must not be able to fail any more (`Script.Succeeds`); behind one
that could not be written it may, as the folder is what it was. Both predicates are about anything a
script may read, so the inductions are on scripts, and a folder comes in only where a script is run.

Diagnostics are not output. Nothing is said of runs that end with code zero: a record that is
skipped is reported there, and the others are written.
-/

namespace PostBlocks.Script

/-- Whatever the script reads, and whether or not it can write, it ends with code zero. -/
def Succeeds : Script → Prop
  | done code _ => code = 0
  | read _ next => ∀ r, (next r).Succeeds
  | write _ _ next => ∀ written, (next written).Succeeds
  | report _ next => next.Succeeds

/-- Whatever the script reads, and whether or not it can write: an end with an error code prints
nothing and comes after no file that has been written. -/
def IsAtomic : Script → Prop
  | done code output => code ≠ 0 → output = ""
  | read _ next => ∀ r, (next r).IsAtomic
  | write _ _ next => (next true).Succeeds ∧ (next false).IsAtomic
  | report _ next => next.IsAtomic

/-! ### Runs -/

/-- Once a script can no longer fail, every run of it ends with code zero. -/
theorem Succeeds.code_run {s : Script} (h : s.Succeeds) (f : Folder) : (s.run f).code = 0 := by
  induction s generalizing f with
  | done code output => exact h
  | read path next ih => exact ih _ (h _) f
  | write path text next ih =>
    rw [run]
    split
    · exact ih true (h true) _
    · exact ih false (h false) f
  | report d next ih => exact ih h f

/-- A run of an atomic script that ends with an error code leaves nothing behind. -/
theorem IsAtomic.run {s : Script} (h : s.IsAtomic) (f : Folder) (hcode : (s.run f).code ≠ 0) :
    (s.run f).output = "" ∧ (s.run f).folder = f := by
  induction s generalizing f with
  | done code output => exact ⟨h hcode, rfl⟩
  | read path next ih => exact ih _ (h _) f hcode
  | write path text next ih =>
    rw [Script.run] at hcode ⊢
    split at hcode
    · -- the file has been written, so the end is not one with an error code
      exact absurd (h.1.code_run _) hcode
    · exact ih false h.2 f hcode
  | report d next ih => exact ih h f hcode

/-! ### Scripts put together -/

/-- A failure is told by its diagnostic, which is not part of the output. -/
theorem isAtomic_fail (d : Diagnostic) : (fail d).IsAtomic :=
  fun _ ↦ rfl

theorem isAtomic_done_zero (output : String) : (done 0 output).IsAtomic :=
  fun h ↦ absurd rfl h

/-- A file that is absent or no text ends the script, before anything is done with it. -/
theorem isAtomic_withText {path : String} {next : String → Script}
    (h : ∀ s, (next s).IsAtomic) : (withText path next).IsAtomic := by
  intro r
  match r with
  | .text s => exact h s
  | .absent => exact isAtomic_fail _
  | .binary => exact isAtomic_fail _

/-- An error ends the script, before anything is done with the result that there is not. -/
theorem isAtomic_withOk {ε α : Type} {diagnose : ε → Diagnostic} {x : Except ε α}
    {next : α → Script} (h : ∀ a, (next a).IsAtomic) : (withOk diagnose x next).IsAtomic := by
  match x with
  | .ok a => exact h a
  | .error e => exact isAtomic_fail _

/-- The output is the last thing there is, in a file or printed. -/
theorem isAtomic_finish (output : Option String) (text : String) :
    (finish output text).IsAtomic := by
  match output with
  | none => exact isAtomic_done_zero text
  | some path => exact ⟨rfl, isAtomic_fail _⟩

/-- Diagnostics of skipped records are no output, and what comes after them keeps its promise
itself. -/
theorem isAtomic_reportSkipped {kind : String} {index : Nat} {rs : List (Except ConvertError Json)}
    {next : Script} (h : next.IsAtomic) : (reportSkipped kind index rs next).IsAtomic := by
  induction rs generalizing index with
  | nil => exact h
  | cons r rs ih =>
    match r with
    | .ok _ => exact ih
    | .error _ => exact ih

/-- A settings file only adds reads, and whatever they find is handed on. -/
theorem isAtomic_withSettingsFile {path : String} {next : Reading → Script}
    (h : ∀ r, (next r).IsAtomic) : (withSettingsFile path next).IsAtomic := by
  intro r
  match r with
  | .absent =>
    -- a name that is not found is tried with its extension
    cases FileName.addExtension? path "toml" with
    | none => exact h .absent
    | some _ => exact h
  | .binary => exact h .binary
  | .text s => exact h (.text s)

/-- Settings are read before the command is looked at, so a mistake in them ends the script with
nothing done. -/
theorem isAtomic_withSettings {path : Option String} {next : Settings → Script}
    (h : ∀ s, (next s).IsAtomic) : (withSettings path next).IsAtomic := by
  refine isAtomic_withSettingsFile fun own ↦ ?_
  match path with
  | none => exact isAtomic_withOk h
  | some path => exact isAtomic_withSettingsFile fun named ↦ isAtomic_withOk h

/-! ### Commands -/

/-- All that can fail in a conversion stands in front of `finish`. -/
theorem isAtomic_convert (r : Registry) (input source target : String) (output : Option String) :
    (convert r input source target output).IsAtomic :=
  isAtomic_withOk fun _ ↦ isAtomic_withOk fun _ ↦ isAtomic_withText fun _ ↦
    isAtomic_withOk fun _ ↦ isAtomic_withOk fun result ↦ isAtomic_finish output result

theorem isAtomic_inspect (table : TagTable) (path : String) (stage : Stage) :
    (inspect table path stage).IsAtomic :=
  isAtomic_withText fun _ ↦ isAtomic_withOk fun _ ↦ isAtomic_done_zero _

/-- A record that is skipped does not make the command fail, so the others may be written after it.
-/
theorem isAtomic_finishRecords (kind : String) (output : Option String)
    (records : Except ConvertError (List (Except ConvertError Json))) :
    (finishRecords kind output records).IsAtomic :=
  isAtomic_withOk fun _ ↦ isAtomic_reportSkipped (isAtomic_finish output _)

theorem isAtomic_importRecords (defaults : RecordDefaults) (table : TagTable) (input : String)
    (pages : Bool) (output : Option String) :
    (importRecords defaults table input pages output).IsAtomic := by
  refine isAtomic_withText fun text ↦ ?_
  split
  · exact isAtomic_finishRecords "page" output _
  · exact isAtomic_finishRecords "post" output _

/-- Every command keeps the promise, and so does a command line without one. -/
theorem isAtomic_ofCommand (s : Settings) (c : Option Command) : (ofCommand s c).IsAtomic := by
  match c with
  | none => exact isAtomic_fail _
  | some (.inspect path stage) => exact isAtomic_inspect s.table path _
  | some (.convert input source target output) =>
    rw [ofCommand]
    split
    · exact isAtomic_fail _
    · exact isAtomic_convert _ input _ _ output
  | some (.importing input pages output) =>
    exact isAtomic_importRecords s.defaults s.table input pages output

/-- The script of every command line is atomic. -/
theorem isAtomic_ofArguments (args : List String) : (ofArguments args).IsAtomic := by
  rw [ofArguments]
  split
  · exact fun _ ↦ rfl
  · exact isAtomic_done_zero usageText
  · exact isAtomic_done_zero versionLine
  · next invocation _ =>
    split
    · exact isAtomic_done_zero stagesText
    · exact isAtomic_withSettings fun s ↦ isAtomic_ofCommand s invocation.command

/-- A command line that ends with a code other than zero prints nothing, and no file has been
created or changed. -/
theorem run_ofArguments_of_code_ne_zero (args : List String) (f : Folder)
    (h : ((ofArguments args).run f).code ≠ 0) :
    ((ofArguments args).run f).output = "" ∧ ((ofArguments args).run f).folder = f :=
  (isAtomic_ofArguments args).run f h

/-- The conversion is done, but there is no folder to write its result in. -/
theorem run_ofArguments_unwritable :
    ((ofArguments ["convert", "post.json", "-o", "out/post.blocks"]).run
        ⟨[(["post.json"], some "\x7b\"content\":[]\x7d")]⟩).code ≠ 0
      ∧ ((ofArguments ["convert", "post.json", "-o", "out/post.blocks"]).run
        ⟨[(["post.json"], some "\x7b\"content\":[]\x7d")]⟩).output = ""
      ∧ ((ofArguments ["convert", "post.json", "-o", "out/post.blocks"]).run
        ⟨[(["post.json"], some "\x7b\"content\":[]\x7d")]⟩).folder
          = ⟨[(["post.json"], some "\x7b\"content\":[]\x7d")]⟩ := by
  have hcode : ((ofArguments ["convert", "post.json", "-o", "out/post.blocks"]).run
      ⟨[(["post.json"], some "\x7b\"content\":[]\x7d")]⟩).code ≠ 0 := by decide +kernel
  exact ⟨hcode, run_ofArguments_of_code_ne_zero _ _ hcode⟩

end PostBlocks.Script
