import Reckoner.CommandLine

/-! The program: arguments in, values out. -/
open Reckoner

private def readScript (name : String) : IO (Option String) := do
  try
    return some (← IO.FS.readFile name)
  catch _ => return none

def main (args : List String) : IO UInt32 := do
  let outcome ← match CommandLine.readArguments {} none (args.map String.toList) with
    | none => pure CommandLine.misused
    | some (options, contents) =>
      if options.fromFile then
        match ← readScript (String.ofList contents) with
        | some script => pure (CommandLine.run options script.toList)
        | none => pure (CommandLine.unreadable contents)
      else pure (CommandLine.run options contents)
  (← IO.getStdout).putStr (String.ofList outcome.stdout)
  (← IO.getStderr).putStr (String.ofList outcome.stderr)
  return outcome.code.toUInt32
