import Reckoner.Session.Script
import Reckoner.Binary64.Reading

/-! The command line: a script in the arguments or in a file is executed, and its values are
printed, one line each. -/
namespace Reckoner.CommandLine

structure Options where
  /-- The script is in a file of the given name. -/
  fromFile : Bool := false
  /-- Only the last value is printed. -/
  lastOnly : Bool := false
  maxLoopRounds : Option Nat := none

structure Outcome where
  code : Nat := 0
  stdout : Text := []
  stderr : Text := []

/-- A count without a sign, or with a plus, that fits into 64 bits. -/
private def readCount (t : Text) : Option Nat := do
  guard (t.head? ≠ some '-')
  let n ← Binary64.readInt t
  guard (n ≤ 0xffffffffffffffff)
  return n.toNat

/-- The options of a cluster of letters behind one dash. -/
private def readLetters (options : Options) (letters : Text) : Option Options :=
  letters.foldlM (fun options letter => match letter with
    | 'f' => some { options with fromFile := true }
    | 'p' => some { options with lastOnly := true }
    | _ => none) options

/-- The options and the one argument that is none; behind `--` nothing is an option. -/
def readArguments (options : Options) (contents : Option Text) : List Text → Option (Options × Text)
  | [] => contents.map (options, ·)
  | arg :: args =>
    let limit := "--max-loop-iterations".toList
    if arg = "--".toList then
      match contents, args with
      | none, [t] => some (options, t)
      | some t, [] => some (options, t)
      | _, _ => none
    else if arg = "--file".toList then readArguments { options with fromFile := true } contents args
    else if arg = "--pipe-mode".toList then readArguments { options with lastOnly := true } contents args
    else if arg = limit then
      match args with
      | count :: args => do
        let n ← readCount count
        readArguments { options with maxLoopRounds := some n } contents args
      | [] => none
    else if (limit ++ ['=']).isPrefixOf arg then do
      let n ← readCount (arg.drop (limit.length + 1))
      readArguments { options with maxLoopRounds := some n } contents args
    else match arg with
      | '-' :: letter :: letters => do
        let options ← readLetters options (letter :: letters)
        readArguments options contents args
      | _ => if contents.isSome then none else readArguments options (some arg) args

private def printed (texts : Array Text) : Text := (texts.toList.map (· ++ ['\n'])).flatten

private def printValue (v : Value) (s : Session) : Session :=
  { s with supply := { s.supply with output := s.supply.output.push (s.env.format v) } }

def run (options : Options) (script : Text) : Outcome :=
  let config : Config := match options.maxLoopRounds with
    | some n => { maxLoopRounds := n }
    | none => {}
  let session : Session := { env := { config } }
  let hand : Value → Session → Session := if options.lastOnly then fun _ s => s else printValue
  let ((values, failure), s) := Session.executeLines hand (Session.logicalLines script) session
  match failure with
  | some e => { code := 1, stdout := printed s.supply.output, stderr := e.message ++ ['\n'] }
  | none =>
    let s := if options.lastOnly then values.getLast?.elim s (printValue · s) else s
    { stdout := printed s.supply.output }

def unreadable (name : Text) : Outcome where
  code := 1
  stderr :=
    "Failed to read the input file '".toList ++ name ++ "'. Perhaps this file does not exist?\n".toList

def misused : Outcome where
  code := 2
  stderr := "Usage: [--file] [--pipe-mode] [--max-loop-iterations N] CONTENTS\n".toList

end Reckoner.CommandLine
