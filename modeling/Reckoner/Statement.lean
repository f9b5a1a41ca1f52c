import Reckoner.ParseError
import Reckoner.Nesting
import Reckoner.Text.Blank

/-! Statements as they are written: a code block is cut into statements by its words and brackets
alone, before any expression in it is parsed. Places are byte offsets in the block's text. -/
namespace Reckoner

/-- The body of an `if`, `else` or `while`, or why there is none. -/
inductive Body
  | missing (place : Nat)
  | unclosed (brace : Nat)
  /-- A block in braces, from its brace up to the closing one. -/
  | braced (brace stop : Nat)
  /-- All up to the next semicolon. -/
  | bare (start stop : Nat)
  deriving DecidableEq, Repr

/-- The condition behind `if` or `while`, or why there is none. -/
inductive Condition
  | noParenthesis (found : Text) (place : Nat)
  | unclosed (parenthesis : Nat)
  /-- A condition from its parenthesis up to the closing one. -/
  | closed (parenthesis stop : Nat)
  deriving DecidableEq, Repr

inductive Statement
  | expression (start stop : Nat)
  | giveBack (start stop : Nat)
  /-- A `break` (or else a `continue`) and what stands behind the word. -/
  | jump (leaves : Bool) (start : Nat) (rest stop : Nat)
  | assign (name : Text) (start : Nat) (value stop : Nat)
  /-- An `if`, or a `while` when it loops. -/
  | conditional (loops : Bool) (condition : Condition) (body : Body)
  | otherwise (start : Nat) (body : Body)
  /-- An `else` directly before an `if`, which may have an `else` of its own. -/
  | otherwiseIf (start : Nat) (first : Statement) (alternative : Option Statement)
  deriving Repr

namespace Statement

open Text (byteLength dropBytes slice)

def word? (t : Text) : Option Text :=
  match Lexeme.lex 10 0 t with
  | ⟨.identifier, start, stop⟩ :: _ => some (slice t start stop)
  | _ => none

/-- The number of bytes of leading blanks and semicolons. -/
def separators (t : Text) : Nat := byteLength (t.takeWhile fun c => Text.isBlank c || c == ';')

/-- The end of a lone `=` that the text starts with. -/
def assignment? (t : Text) : Option Nat :=
  match Lexeme.lex 10 0 t with
  | ⟨.assign, _, stop⟩ :: _ => some stop
  | _ => none

/-- The body at the start of a text whose first byte is at `start`, and where it ends. -/
def readBody (start : Nat) (t : Text) : Body × Nat :=
  let blank := Text.leadingBlank t
  let start := start + blank
  let t := dropBytes blank t
  match t with
  | [] => (.missing start, start)
  | c :: _ =>
    if c = '\x7b' then
      match Text.groupEnd t with
      | some stop => (.braced start (start + stop), start + stop)
      | none => (.unclosed start, start + byteLength t)
    else
      let stop := start + Text.findOutside .semicolon t
      (.bare start stop, stop)

def readConditional (loops : Bool) (start : Nat) (t : Text) : Statement × Nat :=
  let blank := Text.leadingBlank t
  let start := start + blank
  let t := dropBytes blank t
  let failed (condition : Condition) := (conditional loops condition (.missing start), start + byteLength t)
  if t.head? ≠ some '(' then failed (.noParenthesis (Text.firstWord t) start)
  else match Text.groupEnd t with
    | none => failed (.unclosed start)
    | some stop =>
      let (body, last) := readBody (start + stop) (dropBytes stop t)
      (conditional loops (.closed start (start + stop)) body, last)

/-- A statement that ends at the next semicolon, after `skip` bytes that belong to it anyway. -/
def upToSemicolon (start skip : Nat) (t : Text) : Nat × Nat :=
  (start + skip, start + skip + Text.findOutside .semicolon (dropBytes skip t))

def readFirst (start : Nat) (t : Text) : Statement × Nat :=
  match word? t with
  | none =>
    let (first, stop) := upToSemicolon start 0 t
    (expression first stop, stop)
  | some word =>
    let size := byteLength word
    if word = "if".toList then readConditional false (start + size) (dropBytes size t)
    else if word = "while".toList then readConditional true (start + size) (dropBytes size t)
    else if word = "else".toList then
      let skip := 4 + Text.leadingBlank (dropBytes 4 t)
      if word? (dropBytes skip t) = some "if".toList then
        let (first, stop) := readConditional false (start + skip + 2) (dropBytes (skip + 2) t)
        let skip := max 4 (stop - start)
        let skip := skip + separators (dropBytes skip t)
        if _ : t ≠ [] ∧ 0 < skip ∧ word? (dropBytes skip t) = some "else".toList then
          let (alternative, stop) := readFirst (start + skip) (dropBytes skip t)
          (otherwiseIf start first (some alternative), stop)
        else (otherwiseIf start first none, stop)
      else
        let (body, stop) := readBody (start + 4) (dropBytes 4 t)
        (otherwise start body, stop)
    else if word = "return".toList then
      let (first, stop) := upToSemicolon start size t
      (giveBack first stop, stop)
    else if word = "break".toList ∨ word = "continue".toList then
      let (first, stop) := upToSemicolon start size t
      (jump (word = "break".toList) start first stop, stop)
    else match assignment? (dropBytes size t) with
      | some value =>
        let (first, stop) := upToSemicolon start (size + value) t
        (assign word start first stop, stop)
      | none =>
        let (first, stop) := upToSemicolon start 0 t
        (expression first stop, stop)
termination_by t.length
decreasing_by rename_i h; exact Text.length_dropBytes_lt h.2.1 h.1

/-- The statements of a text whose first byte is at `start`, each with its place. A statement takes
up at least one byte. -/
def readAll (start : Nat) (t : Text) : List (Nat × Statement) :=
  let first := start + separators t
  let rest := dropBytes (separators t) t
  if h : rest = [] then []
  else
    let (statement, stop) := readFirst first rest
    let size := max 1 (stop - first)
    have : (dropBytes size rest).length < t.length :=
      Nat.lt_of_lt_of_le (Text.length_dropBytes_lt (by omega) h) (Text.length_dropBytes_le _ _)
    (first, statement) :: readAll (first + size) (dropBytes size rest)
termination_by t.length

end Statement
end Reckoner
