import Reckoner.Session

/-! Scripts: the lines of a text, joined where a brace is left open, and executed one after the
other up to the first failure. -/
namespace Reckoner.Session

/-- The lines of a text without their line ends; nothing behind the last line end makes no line. -/
def lines (t : Text) : List Text :=
  let parts := Text.pieces '\n' t
  let ended := parts.dropLast.map fun line => (Text.stripLast '\r' line).getD line
  ended ++ (parts.getLast?.toList.filter fun line => !line.isEmpty)

def openBraces (t : Text) : Int :=
  (Lexeme.lex 10 0 t).foldl (fun depth lexeme => match lexeme.token with
    | .leftBrace => depth + 1
    | .rightBrace => depth - 1
    | _ => depth) 0

/-- Joins lines while a brace is open; `pending` is what is joined so far. -/
def join (pending : Text) : List Text → List Text
  | [] => if (Text.trim pending).isEmpty then [] else [pending]
  | line :: rest =>
    let joined := if pending.isEmpty then line else pending ++ '\n' :: line
    if 0 < openBraces joined then join joined rest else joined :: join [] rest

def logicalLines (source : Text) : List Text := join [] (lines source)

/-- Executes lines up to the first failure and gives the values they produce; each one is handed
over as soon as its line has been executed. -/
def executeLines (hand : Value → Session → Session) :
    List Text → Session → (List Value × Option Failure) × Session
  | [], s => (([], none), s)
  | line :: rest, s =>
    match (execute line).run.run s with
    | (.error e, s) => (([], some e), s)
    | (.ok none, s) => executeLines hand rest s
    | (.ok (some v), s) =>
      let ((values, failure), s) := executeLines hand rest (hand v s)
      ((v :: values, failure), s)

/-- Executes a script; the last value is the result. -/
def executeScript (source : Text) : Operation (Option Value) := do
  let s ← get
  let ((values, failure), s) := executeLines (fun _ s => s) (logicalLines source) s
  set s
  match failure with
  | some e => throw e
  | none => return values.getLast?

end Reckoner.Session
