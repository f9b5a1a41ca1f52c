import Reckoner.Parse
import Reckoner.Proofs.Sections

/-! The parser as one equation for expressions and one for code blocks: both are parsed by their pieces, and the
pieces are parsed in the same way. -/
namespace Reckoner

namespace Parse

def Context.piece (c : Context) : PieceParser := fun before stop scope ambient =>
  parseExpression c.env (Text.slice c.text (before + 1) stop) (c.offset + before + 1) scope ambient

def Context.blockPiece (c : Context) : BlockPieceParser := fun before stop scope =>
  parseBlock c.env (Text.slice c.text (before + 1) stop) (c.offset + before + 1) scope

def blockContext (env : Environment) (t : Text) (offset : Nat) : BlockContext where
  text := t
  offset
  expression start stop scope := parseExpression env (Text.slice t start stop) (offset + start) scope {}
  block before stop scope := parseBlock env (Text.slice t (before + 1) stop) (offset + before + 1) scope

end Parse

/-- An expression is parsed section by section. -/
theorem parseExpression_eq (c : Parse.Context) :
    parseExpression c.env c.text c.offset c.scope c.ambient = Parse.expression c c.piece c.blockPiece := by
  rw [parseExpression]
  by_cases ht : c.text = []
  · rw [dif_pos ht, Parse.expression, ht, Section.ofText, Text.dropBytes, Lexeme.lex, Section.all_nil]
    rfl
  · rw [dif_neg ht]
    rfl

/-- A code block is parsed statement by statement. -/
theorem parseBlock_eq (env : Environment) (t : Text) (offset : Nat) (scope : Scope) :
    parseBlock env t offset scope = Parse.block (Parse.blockContext env t offset) scope := by
  rw [parseBlock]
  by_cases ht : t = []
  · have hnone : Statement.readAll 0 t = [] := by
      rw [ht, Statement.readAll, dif_pos (by rfl)]
    rw [dif_pos ht, Parse.block, Parse.blockContext, hnone]
    simp only [Parse.statements, pure_bind, List.reverse_nil, List.drop_length, List.take_length]
  · rw [dif_neg ht]
    rfl

end Reckoner
