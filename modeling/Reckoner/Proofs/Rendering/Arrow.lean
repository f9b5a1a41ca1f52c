import Reckoner.Proofs.Rendering.Rereading
import Reckoner.Proofs.Rendering.Restoring

/-! Anonymous functions read again: the parameters in front of the arrow are read back, and behind it the body is an
expression up to the end or a block in braces. -/
namespace Reckoner

open Nesting (level)
open Render (parenthesized braced)
open Text (byteLength listed)

private theorem Text.IsName.isIdentifier {name : Text} (hn : name.IsName) : isIdentifier name := by
  have hlex := @Lexeme.lex_name 10 name [] hn nofun 0
  rw [List.append_nil, Lexeme.lex, Nat.zero_add] at hlex
  simp only [Reckoner.isIdentifier, hlex, BEq.rfl, Bool.and_self]

/-- Names that are taken in one after the other, each one new. -/
private theorem foldlM_new {f : List Text → Text → Except ParseError (List Text)} {seen names : List Text}
    (hf : ∀ seen name, name ∈ names → name ∉ seen → f seen name = .ok (seen ++ [name])) (hn : (seen ++ names).Nodup) :
    names.foldlM f seen = .ok (seen ++ names) := by
  induction names generalizing seen with
  | nil =>
    rw [List.append_nil]
    rfl
  | cons name names ih =>
    have hnew : name ∉ seen := fun hmem => (List.nodup_append.mp hn).2.2 name hmem name List.mem_cons_self rfl
    rw [List.append_cons] at hn ⊢
    rw [List.foldlM_cons, hf seen name List.mem_cons_self hnew]
    exact ih (fun seen name hmem => hf seen name (List.mem_cons_of_mem _ hmem)) hn

section
variable {params : List Text}

/-- The parameters in front of an arrow are read back. -/
private theorem readParams_parenthesized (hp : ∀ param ∈ params, param.Nameable) (hn : params.Nodup) (position : Nat) :
    readParams position (parenthesized (listed params)) = .ok params := by
  have hfirst : ∀ c ∈ (parenthesized (listed params)).head?, Text.isBlank c = false := by
    intro c hc
    exact Option.some.inj hc ▸ rfl
  have hlast : (parenthesized (listed params)).EndsVisibly := ⟨'(' :: listed params, ')', rfl, by decide⟩
  have hstrip : Text.stripLast ')' (listed params ++ [')']) = some (listed params) := by
    rw [Text.stripLast, List.getLast?_concat, if_pos rfl, List.dropLast_concat]
  unfold readParams
  rw [Text.trim_eq_self hfirst hlast, parenthesized, List.cons_append]
  simp only [hstrip]
  cases params with
  | nil => rfl
  | cons param others =>
    have hvisible : (Text.trim (listed (param :: others))).isEmpty = false := by
      obtain ⟨c, rest, hname⟩ := List.exists_cons_of_ne_nil (hp param List.mem_cons_self).1.ne_nil
      have hc : Lexeme.isNameChar c := (hp param List.mem_cons_self).1.isNameChar c (hname ▸ List.mem_cons_self)
      refine Text.trim_isEmpty ⟨c, ?_, Text.isBlank_of_isNameChar hc⟩
      obtain ⟨behind, hbehind⟩ : ∃ behind, listed (param :: others) = param ++ behind := by
        cases others with
        | nil => exact ⟨[], by rw [listed, Text.join_singleton, List.append_nil]⟩
        | cons other others => exact ⟨_, Text.join_cons ..⟩
      rw [hbehind, hname]
      exact List.mem_cons_self
    simp only [pure_bind, hvisible, Bool.false_eq_true, if_false]
    rw [Text.pieces_listed (List.cons_ne_nil _ _) fun param hparam => (hp param hparam).1.not_mem rfl]
    refine (foldlM_new (fun seen name hmem hnew => ?_) hn).trans (congrArg Except.ok (List.nil_append _))
    have hname := hp name hmem
    have hcontains : seen.contains name = false := by simpa using hnew
    simp only [hname.1.trim, hname.1.isIdentifier, hname.2, hcontains]
    rfl

def Render.arrow (params : List Text) (w : Text) : Text := parenthesized (listed params) ++ "=>".toList ++ w

namespace Section
variable {w : Text}

/-- The section of an anonymous function is found from its parameters on. -/
private theorem next_arrow (hp : ∀ param ∈ params, param.IsName) (limit : Nat) (w : Text) :
    next limit false (Lexeme.lex 10 0 (Render.arrow params w)) =
      some (function limit 0 ⟨.arrow, byteLength (Render.parenthesized (listed params)),
        byteLength (Render.parenthesized (listed params)) + 2⟩
          (Lexeme.lex 10 (byteLength (Render.parenthesized (listed params)) + 2) w)) := by
  have hsteady := Text.steady_listed hp
  have hwhole := hsteady.whole
  obtain ⟨b, hleads⟩ := hsteady
  rw [← Text.tokens_eq 1] at hleads
  have hgroup (start stop : Nat) (rest : List Lexeme) : (Nesting.inside .leftParen).group limit
      (Lexeme.lex 10 1 (listed params) ++ ⟨.rightParen, start, stop⟩ :: rest) = ⟨stop, false, rest⟩ :=
    Nesting.group_inside (by decide) rfl limit hleads start stop rest
  have hlex := Text.lex_group .parentheses hwhole 0 ('=' :: '>' :: w)
  rw [Lexeme.lex_pair (show Lexeme.pair '=' '>' = some .arrow from rfl) (by decide), Nat.zero_add, Nat.zero_add] at hlex
  have hwritten : Render.arrow params w = '(' :: listed params ++ [')'] ++ '=' :: '>' :: w := by
    simp [Render.arrow, Render.parenthesized]
  rw [hwritten, hlex]
  simp only [next, Lexeme.single, parenthesized, hgroup, Bool.not_false, BEq.rfl, Bool.and_self, if_true]
  rfl

/-- A function whose body is no block goes on to the end. -/
private theorem ofText_arrow (hp : ∀ param ∈ params, param.IsName) (hw : w.tokens.head? ≠ some .leftBrace) :
    ofText 10 false 0 (Render.arrow params w) =
      [⟨.function (byteLength (Render.parenthesized (listed params))) false, 0,
        byteLength (Render.arrow params w), false⟩] := by
  have hbody (limit start : Nat) (arrow : Lexeme) (offset : Nat) :
      function limit start arrow (Lexeme.lex 10 offset w) = (⟨.function arrow.start false, start, limit, false⟩, []) := by
    rw [← Text.tokens_eq offset, List.head?_map] at hw
    unfold function
    split
    · rename_i brace body hlex
      rw [if_neg fun hbrace => hw (by rw [hlex]; exact congrArg some hbrace)]
    · rfl
  have hnext := next_arrow hp (byteLength (Render.arrow params w)) w
  rw [hbody] at hnext
  rw [ofText, Text.dropBytes, all_next hnext, all_nil]

/-- A function whose body is a block ends with the block. -/
private theorem ofText_arrow_braced (hp : ∀ param ∈ params, param.IsName) (hw : w.Steady false) :
    ofText 10 false 0 (Render.arrow params (braced w)) =
      [⟨.function (byteLength (Render.parenthesized (listed params))) true, 0,
        byteLength (Render.arrow params (braced w)), false⟩] := by
  have hwhole := hw.whole
  obtain ⟨b, hleads⟩ := hw
  have hbody (limit start : Nat) (arrow : Lexeme) (offset : Nat) :
      function limit start arrow (Lexeme.lex 10 offset (braced w)) =
        (⟨.function arrow.start true, start, offset + byteLength (braced w), false⟩, []) := by
    have hlex := Text.lex_group .braces hwhole offset []
    rw [List.append_nil, Lexeme.lex] at hlex
    rw [← Text.tokens_eq (offset + 1)] at hleads
    have hgroup (start stop : Nat) :=
      Nesting.group_inside (show Token.leftBrace ≠ .less by decide) rfl limit hleads start stop []
    simp only [braced, hlex, function, Lexeme.single, hgroup, if_true]
  have hnext := next_arrow hp (byteLength (Render.arrow params (braced w))) (braced w)
  have hsize : byteLength (Render.arrow params (braced w)) =
      byteLength (Render.parenthesized (listed params)) + 2 + byteLength (braced w) := by
    rw [Render.arrow, Text.byteLength_append, Text.byteLength_append]
    rfl
  rw [hbody, ← hsize] at hnext
  rw [ofText, Text.dropBytes, all_next hnext, all_nil]

end Section

end

private theorem Parse.freshLabel_yields {n : Nat} : Parse.Yields n Parse.freshLabel fun _ => True := fun _ hsupply =>
  ⟨Nat.le_succ_of_le hsupply, trivial⟩

namespace Render
variable {n : Nat} {env : Environment} {s : Scope} {params : List Text} {w : Text} {code : Block}

private theorem slice_arrow (params : List Text) (w : Text) :
    Text.slice (arrow params w) 0 (byteLength (parenthesized (listed params))) = parenthesized (listed params) := by
  rw [arrow, List.append_assoc, Text.slice_front]

private theorem at_arrow (params : List Text) (w : Text) :
    (arrow params w).At (byteLength (parenthesized (listed params)) + 2) w := by
  have hright := (Text.at_self (arrow params w)).right
  rw [Text.byteLength_append, Nat.zero_add] at hright
  exact hright

private theorem byteLength_arrow (params : List Text) (w : Text) :
    byteLength (arrow params w) = byteLength (parenthesized (listed params)) + 2 + byteLength w := by
  rw [arrow, Text.byteLength_append, Text.byteLength_append]
  rfl

/-- A function is parsed with a label of its own. -/
private theorem function_yields {body : Parse Block} (h : Parse.Yields n body fun b => b.unlabelled = code.unlabelled)
    (label width : Nat) :
    Parse.Yields n (do
      let body ← body
      return Tree.function { label := ← Parse.freshLabel, params, body } width)
      fun u => u.unlabelled = (Tree.function ⟨label, params, code⟩ width).unlabelled :=
  h.bind fun b hb => Parse.freshLabel_yields.bind fun fresh _ => .pure (by simp only [Tree.unlabelled, hb])

section
variable (hp : ∀ param ∈ params, param.Nameable) (hn : params.Nodup) (label : Nat)
include hp hn

/-- A function whose body is an expression. -/
theorem rereads_arrow {t : Tree} (h : Rereads n env (.lambda params s) w t) :
    Rereads n env s (arrow params w) (.function ⟨label, params, .returning t⟩ s.captureWidth) := by
  have hfirst : w.tokens.head? ≠ some .leftBrace := of_yields h (parseExpression_unbraced env w 0 _ {})
  have hsections := Section.ofText_arrow (fun param hparam => (hp param hparam).1) hfirst
  have hbody : Text.slice (arrow params w) (byteLength (parenthesized (listed params)) + 1 + 1)
      (byteLength (arrow params w)) = w := by
    rw [byteLength_arrow, (at_arrow params w).slice]
  rw [Rereads, parseExpression_plain, Parse.expression_single hsections rfl (by simp)]
  simp only [Parse.operand, Parse.lambda, slice_arrow, readParams_parenthesized hp hn, Bool.false_eq_true, if_false,
    Parse.Context.piece, hbody]
  refine function_yields (.map ((h.anywhere _).mono fun u hu => ?_)) label s.captureWidth
  simp only [Block.returning, Block.unlabelled, Action.allUnlabelled, Action.unlabelled, hu]

/-- A function whose body is a block. -/
theorem rereads_arrow_braced (hw : w.Steady false) (h : ∀ offset,
      Parse.Yields n (parseBlock env w offset (.lambda params s)) fun p => p.1.unlabelled = code.unlabelled) :
    Rereads n env s (arrow params (braced w)) (.function ⟨label, params, code⟩ s.captureWidth) := by
  have hsections := Section.ofText_arrow_braced (fun param hparam => (hp param hparam).1) hw
  have hbody : Text.slice (arrow params (braced w)) (byteLength (parenthesized (listed params)) + 2)
      (byteLength (arrow params (braced w))) = braced w := by
    rw [byteLength_arrow, (at_arrow params (braced w)).slice]
  have hinner : Text.slice (arrow params (braced w)) (byteLength (parenthesized (listed params)) + 2 + 1)
      (byteLength (arrow params (braced w)) - 1) = w := by
    rw [byteLength_arrow]
    exact (at_arrow params (braced w)).between rfl rfl
  have hblank : Text.leadingBlank (braced w) = 0 := Text.leadingBlank_eq_zero (braced_head w)
  rw [Rereads, parseExpression_plain, Parse.expression_single hsections rfl (by simp)]
  simp only [Parse.operand, Parse.lambda, slice_arrow, readParams_parenthesized hp hn, if_true,
    Parse.Context.blockPiece, hbody, hblank, Nat.add_zero, hinner]
  exact function_yields (.map (h _)) label s.captureWidth

end
end Render
end Reckoner
