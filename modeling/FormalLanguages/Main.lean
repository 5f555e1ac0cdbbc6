import FormalLanguages.Command.Directory
import FormalLanguages.Command.Session

open FormalLanguages

/-! A file that cannot be read, or that is not text, is as good as none. -/

def readIfPossible (name : String) : IO (Option (String × String)) := do
  try
    return some (name, ← IO.FS.readFile name)
  catch _ =>
    return none

def main (arguments : List String) : IO UInt32 := do
  let names := ((Invocation.read arguments).map fun invocation => invocation.command.files).getD []
  let directory := Directory.ofFiles (← names.filterMapM readIfPossible)
  let outcome := Invocation.run arguments directory.read?
  (← IO.getStdout).putStr outcome.output
  if outcome.complaint ≠ "" then
    (← IO.getStderr).putStr (outcome.complaint ++ "\n")
  return outcome.exitCode.toUInt32
