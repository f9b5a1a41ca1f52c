import Reckoner.Parse.Statement

/-! Parsing texts into trees and code blocks. Every piece that is parsed on its own leaves out a
byte of the text around it, so parsing ends. -/
namespace Reckoner

mutual

def parseExpression (env : Environment) (t : Text) (offset : Nat) (scope : Scope) (ambient : Ambient) :
    Parse Tree :=
  if _ : t = [] then throw (.emptyExpression offset)
  else
    Parse.expression { env, scope, ambient, text := t, offset }
      (fun before stop scope ambient =>
        parseExpression env (Text.slice t (before + 1) stop) (offset + before + 1) scope ambient)
      (fun before stop scope => parseBlock env (Text.slice t (before + 1) stop) (offset + before + 1) scope)
termination_by (t.length, 0)
decreasing_by all_goals exact Prod.Lex.left _ _ (Text.length_slice_lt _ (Nat.succ_pos _) ‹_›)

def parseBlock (env : Environment) (t : Text) (offset : Nat) (scope : Scope) : Parse (Block × Scope) :=
  if _ : t = [] then return (⟨[], [], scope.locals.length, scope.frameSize⟩, scope)
  else
    Parse.block
      { text := t
        offset
        expression := fun start stop scope =>
          parseExpression env (Text.slice t start stop) (offset + start) scope {}
        block := fun before stop scope =>
          parseBlock env (Text.slice t (before + 1) stop) (offset + before + 1) scope } scope
termination_by (t.length, 1)
decreasing_by
  · have := Text.length_slice_le t start stop
    rcases Nat.lt_or_eq_of_le this with h | h
    · exact Prod.Lex.left _ _ h
    · rw [h]
      exact Prod.Lex.right _ (by decide)
  · exact Prod.Lex.left _ _ (Text.length_slice_lt _ (Nat.succ_pos _) ‹_›)

end

end Reckoner
