import PostBlocks.Command.Folder
import PostBlocks.Format.Registry
import PostBlocks.Post.Stage
import PostBlocks.Settings.Basic

/-!
# Scripts

A script is what a command does, step by step: it reads files and goes on with what they hold,
writes files and goes on with whether that worked, reports diagnostics, and ends with an exit code
and what it prints. A script touches nothing by itself. `Script.run` carries it out on a folder; the
program carries it out on the real one.
-/

namespace PostBlocks

/-- What a command reports beside its output. -/
inductive Diagnostic where
  | settings (e : SettingsError)
  | cannotRead (path : String)
  | cannotWrite (path : String)
  /-- The file name does not tell the format. -/
  | undetected (path : String)
  | unknownFormat (e : FormatError)
  | parsing (e : FormatError)
  | serialization (e : FormatError)
  | importing (e : ConvertError)
  | inspection (e : InspectError)
  | noCommand
  /-- An entry of a response that has no record. -/
  | skipped (kind : String) (index : Nat) (e : ConvertError)
deriving Repr, BEq, Inhabited

namespace Diagnostic

/-- The lines of a diagnostic, without its detail. -/
def heads : Diagnostic → List String
  | settings _ => ["Failed to load configuration"]
  | cannotRead path => [s!"Error reading file '{path}'"]
  | cannotWrite path => [s!"Error writing file '{path}'"]
  | undetected path =>
    [s!"Error: Could not detect format from filename '{path}'", "Please specify --from explicitly"]
  | unknownFormat e => ["Error: " ++ e.message?.getD ""]
  | parsing _ => ["Parse error"]
  | serialization _ => ["Serialization error"]
  | importing _ => ["Import error"]
  | inspection _ => ["Execution error"]
  | noCommand => ["Unknown subcommand. Use --help for usage information."]
  | skipped kind index _ => [s!"skipping {kind} index={index}"]

/-- What a diagnostic says about its cause. -/
def detail? : Diagnostic → Option String
  | parsing e | serialization e => e.message?
  | importing e | skipped _ _ e => e.message?
  | inspection e => some e.message
  | _ => none

/-- The lines of a diagnostic, with its detail at the end of the last. -/
def lines (d : Diagnostic) : List String :=
  match d.detail?, d.heads.reverse with
  | some detail, last :: before => before.reverse ++ [last ++ ": " ++ detail]
  | _, _ => d.heads

end Diagnostic

/-- What a command does. -/
inductive Script where
  | done (code : Nat) (output : String)
  | read (path : String) (next : Reading → Script)
  | write (path text : String) (next : Bool → Script)
  | report (d : Diagnostic) (next : Script)

/-- What a script leaves behind. -/
structure Outcome where
  code : Nat
  output : String
  diagnostics : List Diagnostic
  folder : Folder
deriving Repr, BEq, Inhabited

namespace Script

/-- A script carried out on a folder. -/
def run : Script → Folder → Outcome
  | done code output, f => ⟨code, output, [], f⟩
  | read path next, f => (next (f.read path)).run f
  | write path text next, f =>
    match f.write? path text with
    | some f => (next true).run f
    | none => (next false).run f
  | report d next, f =>
    let o := next.run f
    { o with diagnostics := d :: o.diagnostics }

/-- Ends with a diagnostic. -/
def fail (d : Diagnostic) : Script :=
  report d (done 1 "")

/-- Goes on with the text of a file. -/
def withText (path : String) (next : String → Script) : Script :=
  read path fun
    | .text s => next s
    | _ => fail (.cannotRead path)

/-- Ends with a text, in a file or printed. -/
def finish (output : Option String) (text : String) : Script :=
  match output with
  | none => done 0 text
  | some path => write path text fun
    | true => done 0 ""
    | false => fail (.cannotWrite path)

/-- Goes on with the value of a computation, or ends with what went wrong. -/
def withOk {ε α : Type} (diagnose : ε → Diagnostic) (x : Except ε α) (next : α → Script) : Script :=
  match x with
  | .ok a => next a
  | .error e => fail (diagnose e)

end Script

end PostBlocks
