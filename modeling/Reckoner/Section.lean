import Reckoner.Nesting

/-! Sections: the pieces that an expression is cut into before any of them is parsed. Which token a
section starts with, and what stands behind it, tells its kind. -/
namespace Reckoner

/-- What a section is; the numbers are byte offsets into the text. -/
inductive SectionKind
  | number
  | variable
  /-- A call `name(...)` with its opening parenthesis. -/
  | call (opening : Nat)
  | parenthesis
  /-- A group `[...]` with its closing bracket and the start of the base behind `_`. -/
  | square (closing : Nat) (base : Option Nat)
  | vector
  | operators
  /-- An anonymous function with its arrow; a braced body ends with its brace, any other with the
  text. -/
  | function (arrow : Nat) (braced : Bool)
  | string
  | undefined
  deriving DecidableEq, Repr

/-- A section and its place; a broken one has a bracket without its partner. -/
structure Section where
  kind : SectionKind
  start : Nat
  stop : Nat
  broken : Bool := false
  deriving DecidableEq, Repr

namespace Section

def adjacent (token : Token) (offset : Nat) (lexeme : Lexeme) : Bool :=
  lexeme.token == token && lexeme.start == offset

/-- The section of an anonymous function, of which the lexemes behind the arrow are left. -/
def function (limit start : Nat) (arrow : Lexeme) (rest : List Lexeme) : Section × List Lexeme :=
  match rest with
  | brace :: body =>
    if brace.token = .leftBrace then
      let group := (Nesting.inside .leftBrace).group limit body
      (⟨.function arrow.start true, start, group.stop, group.broken⟩, group.rest)
    else (⟨.function arrow.start false, start, limit, false⟩, [])
  | [] => (⟨.function arrow.start false, start, limit, false⟩, [])

def grouped (limit : Nat) (kind : SectionKind) (bracket : Token) (start : Nat) (rest : List Lexeme) :
    Section × List Lexeme :=
  let group := (Nesting.inside bracket).group limit rest
  (⟨kind, start, group.stop, group.broken⟩, group.rest)

def named (limit : Nat) (name : Lexeme) (rest : List Lexeme) : Section × List Lexeme :=
  match rest with
  | next :: after =>
    if adjacent .leftParen name.stop next then grouped limit (.call next.start) .leftParen name.start after
    else if next.token = .arrow then function limit name.start next after
    else (⟨.variable, name.start, name.stop, false⟩, rest)
  | [] => (⟨.variable, name.start, name.stop, false⟩, rest)

def parenthesized (limit start : Nat) (rest : List Lexeme) : Section × List Lexeme :=
  let group := (Nesting.inside .leftParen).group limit rest
  match group.rest with
  | next :: after =>
    if !group.broken && next.token == .arrow then function limit start next after
    else (⟨.parenthesis, start, group.stop, group.broken⟩, group.rest)
  | [] => (⟨.parenthesis, start, group.stop, group.broken⟩, group.rest)

/-- The end of the base behind `_`, whether it is broken, and the lexemes behind it: a number, a
name, a call or a parenthesis. -/
def baseGroup (limit start : Nat) (rest : List Lexeme) : Nesting.Group :=
  match rest with
  | first :: after =>
    match first.token with
    | .number => ⟨first.stop, false, after⟩
    | .identifier =>
      match after with
      | next :: args =>
        if adjacent .leftParen first.stop next then (Nesting.inside .leftParen).group limit args
        else ⟨first.stop, false, after⟩
      | [] => ⟨first.stop, false, after⟩
    | .leftParen => (Nesting.inside .leftParen).group limit after
    | _ => ⟨start, false, rest⟩
  | [] => ⟨start, false, rest⟩

def square (limit start : Nat) (rest : List Lexeme) : Section × List Lexeme :=
  let group := (Nesting.inside .leftBracket).group limit rest
  if group.broken then (⟨.square limit none, start, group.stop, true⟩, group.rest)
  else
    let plain : Section × List Lexeme :=
      (⟨.square (group.stop - 1) none, start, group.stop, false⟩, group.rest)
    match group.rest with
    | next :: after =>
      if adjacent .underscore group.stop next then
        let base := baseGroup limit next.stop after
        (⟨.square (group.stop - 1) (some next.stop), start, base.stop, base.broken⟩, base.rest)
      else plain
    | [] => plain

/-- Whether the lexeme goes on with a run of operators; a `<` starts a vector. -/
def continuesRun (lexeme : Lexeme) : Bool := lexeme.token.isOperator && lexeme.token != .less

def operators (first : Lexeme) (rest : List Lexeme) : Section × List Lexeme :=
  let last := ((rest.takeWhile continuesRun).getLast?).getD first
  (⟨.operators, first.start, last.stop, false⟩, rest.dropWhile continuesRun)

/-- The first section of the lexemes of a text that ends at `limit`, and the lexemes behind it.
Behind an operand a `<` compares. -/
def next (limit : Nat) (afterOperand : Bool) : List Lexeme → Option (Section × List Lexeme)
  | [] => none
  | first :: rest =>
    let single (kind : SectionKind) (broken : Bool) : Section × List Lexeme :=
      (⟨kind, first.start, first.stop, broken⟩, rest)
    some <| match first.token with
      | .number => single .number false
      | .string => single .string false
      | .openString => single .string true
      | .identifier => named limit first rest
      | .leftParen => parenthesized limit first.start rest
      | .leftBracket => square limit first.start rest
      | .less => if afterOperand then operators first rest else grouped limit .vector .less first.start rest
      | token => if token.isOperator then operators first rest else single .undefined false

theorem group_rest_suffix (limit : Nat) (n : Nesting) (ls : List Lexeme) : (n.group limit ls).rest <:+ ls := by
  fun_induction Nesting.group limit n ls with
  | case1 => exact List.suffix_refl _
  | case2 _ lexeme _ _ _ => exact List.suffix_cons lexeme _
  | case3 _ lexeme _ _ _ ih => exact ih.trans (List.suffix_cons lexeme _)

theorem function_suffix (limit start : Nat) (arrow : Lexeme) (ls : List Lexeme) :
    (function limit start arrow ls).2 <:+ ls := by
  unfold function
  split
  · rename_i brace body
    split
    · exact (group_rest_suffix _ _ body).trans (List.suffix_cons brace _)
    · exact List.nil_suffix
  · exact List.nil_suffix

theorem named_suffix (limit : Nat) (name : Lexeme) (ls : List Lexeme) : (named limit name ls).2 <:+ ls := by
  unfold named
  split
  · rename_i next after
    split
    · exact (group_rest_suffix _ _ after).trans (List.suffix_cons next _)
    · split
      · exact (function_suffix _ _ _ after).trans (List.suffix_cons next _)
      · exact List.suffix_refl _
  · exact List.suffix_refl _

theorem parenthesized_suffix (limit start : Nat) (ls : List Lexeme) :
    (parenthesized limit start ls).2 <:+ ls := by
  have hg := group_rest_suffix limit (.inside .leftParen) ls
  unfold parenthesized
  simp only
  split
  · rename_i next after h
    split
    · rw [h] at hg
      exact (function_suffix _ _ _ after).trans ((List.suffix_cons next _).trans hg)
    · exact hg
  · exact hg

theorem baseGroup_suffix (limit start : Nat) (ls : List Lexeme) : (baseGroup limit start ls).rest <:+ ls := by
  unfold baseGroup
  split
  · rename_i first after
    split
    · exact List.suffix_cons first _
    · split
      · rename_i next args
        have ha : next :: args <:+ first :: next :: args := List.suffix_cons first _
        split
        · exact (group_rest_suffix _ _ args).trans ((List.suffix_cons next _).trans ha)
        · exact ha
      · exact List.suffix_cons first _
    · exact (group_rest_suffix _ _ after).trans (List.suffix_cons first _)
    · exact List.suffix_refl _
  · exact List.suffix_refl _

theorem square_suffix (limit start : Nat) (ls : List Lexeme) : (square limit start ls).2 <:+ ls := by
  have hg := group_rest_suffix limit (.inside .leftBracket) ls
  unfold square
  simp only
  split
  · exact hg
  · split
    · rename_i next after h
      split
      · rw [h] at hg
        exact (baseGroup_suffix _ _ after).trans ((List.suffix_cons next _).trans hg)
      · exact hg
    · exact hg

/-- A section takes up lexemes from the front, and at least one. -/
theorem next_suffix {limit : Nat} {afterOperand : Bool} {first : Lexeme} {ls rest : List Lexeme} {s : Section}
    (h : next limit afterOperand (first :: ls) = some (s, rest)) : rest <:+ ls := by
  have key {r : Section × List Lexeme} (hr : r.2 <:+ ls) (he : some r = some (s, rest)) : rest <:+ ls := by
    rw [Option.some.inj he] at hr
    exact hr
  refine key ?_ h
  split
  · exact List.suffix_refl _
  · exact List.suffix_refl _
  · exact List.suffix_refl _
  · exact named_suffix ..
  · exact parenthesized_suffix ..
  · exact square_suffix ..
  · split
    · exact List.dropWhile_suffix _
    · exact group_rest_suffix ..
  · split
    · exact List.dropWhile_suffix _
    · exact List.suffix_refl _

theorem length_next_lt {limit : Nat} {afterOperand : Bool} {ls rest : List Lexeme} {s : Section}
    (h : next limit afterOperand ls = some (s, rest)) : rest.length < ls.length := by
  cases ls with
  | nil => exact nomatch h
  | cons first ls => exact Nat.lt_succ_of_le (next_suffix h).length_le

/-- The sections of the lexemes of a text that ends at `limit`, up to the first broken one. -/
def all (limit : Nat) (afterOperand : Bool) (ls : List Lexeme) : List Section :=
  match _ : next limit afterOperand ls with
  | none => []
  | some (first, rest) =>
    if first.broken then [first] else first :: all limit (first.kind ≠ .operators) rest
termination_by ls.length
decreasing_by exact length_next_lt ‹_›

def ofText (base : Nat) (afterOperand : Bool) (start : Nat) (t : Text) : List Section :=
  all (Text.byteLength t) afterOperand (Lexeme.lex base start (Text.dropBytes start t))

end Section
end Reckoner
