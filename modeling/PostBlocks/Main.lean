import PostBlocks.Command.Run

/-!
# The program

Carries out the script of its command line on the files of the system: reads and writes them, prints
the output and, apart from it, the diagnostics, and exits with the code of the script.
-/

namespace PostBlocks

/-- What a file of the system holds. -/
def readFile (path : String) : IO Reading := do
  try
    match String.fromUTF8? (← IO.FS.readBinFile path) with
    | some s => return .text s
    | none => return .binary
  catch _ => return .absent

/-- Writes a file of the system, if that works. -/
def writeFile (path text : String) : IO Bool := do
  try
    IO.FS.writeFile path text
    return true
  catch _ => return false

/-- A script carried out on the files of the system. -/
def Script.perform : Script → IO UInt32
  | done code output => do
    IO.print output
    return code.toUInt32
  | read path next => do (next (← readFile path)).perform
  | write path text next => do (next (← writeFile path text)).perform
  | report d next => do
    d.lines.forM IO.eprintln
    next.perform

end PostBlocks

def main (args : List String) : IO UInt32 := do
  let code ← (PostBlocks.Script.ofArguments args).perform
  if code = 2 then IO.eprint PostBlocks.usageText
  return code
