import Reckoner.Proofs.Rendering.Blocks
import Reckoner.Proofs.Rendering.Heading
import Reckoner.Proofs.Scoping.Reachable

/-! The line that a function is rendered as, executed again. It gives the function the body that it has, unless an
expression that a block gives back reads differently behind the word `return`: then the braces of the body are not
closed, and the line is refused. -/
namespace Reckoner

open Nesting (level)
open Render (Names ReadsBehindReturn Reparses braced inside tree)
open Text (byteLength)

/-- A group that is not broken is closed. -/
private theorem Nesting.survives_of_group {n : Nesting} {limit : Nat} {ls : List Lexeme}
    (h : (n.group limit ls).broken = false) :
    n.Survives (ls.map Lexeme.token) := by
  fun_induction group limit n ls with
  | case1 => cases h
  | case2 n lexeme rest next ho =>
    rw [List.map_cons, Survives, if_pos ho]
    exact h
  | case3 n lexeme rest next ho ih =>
    rw [List.map_cons, Survives, if_neg ho]
    exact ih h

namespace Text
variable {p : Prop} {w : Text}

/-- The braces around a text that closes what it opens are partners. -/
private theorem Decides.groupEnd_of (h : w.Decides p true) (hp : p) :
    groupEnd (braced w) = some (byteLength (braced w)) := by
  have hgroup := groupEnd_group .braces (h.steady hp) []
  rwa [List.append_nil] at hgroup

/-- The braces around any other text are not. -/
private theorem Decides.groupEnd_eq_none (h : w.Decides p true) (hp : ¬p) : groupEnd (braced w) = none := by
  obtain ⟨-, hfails⟩ := h.decides.resolve_left fun hsteady => hp hsteady.1
  have hlex := lex_group .braces h.whole 0 []
  rw [List.append_nil] at hlex
  have hcloser : (Lexeme.single '\x7b').closer = some (Lexeme.single '\x7d') := rfl
  unfold groupEnd
  rw [show braced w = '\x7b' :: w ++ ['\x7d'] from rfl, hlex]
  simp only [hcloser, Option.bind_eq_bind, Option.bind_some]
  split
  · rfl
  · rename_i hbroken
    have hsurvives := Nesting.survives_of_group (Bool.not_eq_true _ ▸ hbroken)
    rw [List.map_append, tokens_eq, List.map_cons, tokens_eq, tokens_nil] at hsurvives
    exact absurd hsurvives (hfails [] [.rightBrace] fun _ => rfl)

/-- The last `<` opens a bracket where the first one compares. -/
example : groupEnd (braced "<1,2><3".toList) = some 9 ∧ groupEnd (braced "return <1,2><3".toList) = none := by
  with_unfolding_all exact ⟨rfl, rfl⟩

end Text

/-- What stands behind a blank is the body of a function: a block when it is a group of braces, and an expression
otherwise. -/
private theorem Session.parseBody_space {env : Environment} {scope : Scope} {t : Text}
    (hfirst : ∀ c ∈ t.head?, Text.isBlank c = false) (hlast : t.EndsVisibly) :
    parseBody env scope (' ' :: t) =
      if t.head? = some '\x7b' ∧ Text.groupEnd t = some (byteLength t) then
        Prod.fst <$> parseBlock env (Text.slice t 1 (byteLength t - 1)) 2 scope
      else Block.returning <$> parseExpression env (' ' :: t) 0 scope {} := by
  have htrim : Text.trimEnd (' ' :: t) = ' ' :: t := (hlast.append [' ']).trimEnd
  have hblank : Text.leadingBlank (' ' :: t) = 1 := by
    have htake : t.takeWhile Text.isBlank = [] := by
      cases t with
      | nil => rfl
      | cons c rest => exact List.takeWhile_cons_of_neg (by rw [hfirst c rfl]; decide)
    rw [Text.leadingBlank, List.takeWhile_cons_of_pos (by decide), htake]
    rfl
  have hdrop (n : Nat) : Text.dropBytes (1 + n) (' ' :: t) = Text.dropBytes n t := Text.dropBytes_append [' '] t n
  have hdrop0 : Text.dropBytes 1 (' ' :: t) = t := by
    rw [hdrop 0, Text.dropBytes]
  have hslice : Text.slice (' ' :: t) (1 + 1) (byteLength (' ' :: t) - 1) = Text.slice t 1 (byteLength t - 1) := by
    have hsize : byteLength (' ' :: t) = 1 + byteLength t := rfl
    have hstop : byteLength (' ' :: t) - 1 - (1 + 1) = byteLength t - 1 - 1 := by omega
    rw [Text.slice, Text.slice, hstop, hdrop]
  unfold parseBody
  simp only [htrim, hblank, hdrop0, hslice]

/-- A body that only gives back an expression is the block that does that. -/
theorem Block.IsBody.eq_returning {names : List Text} {b : Block} {t : Tree} (hb : b.IsBody names)
    (ht : b.singleReturn? = some t) : b = .returning t := by
  obtain ⟨list, locals, firstSlot, frameSize⟩ := b
  obtain ⟨pending, last, final, ha, rfl, -, rfl, -⟩ := hb
  unfold Block.singleReturn? at ht
  split at ht
  · rename_i u hu hl
    obtain rfl := Option.some.inj ht
    obtain rfl : list = [.giveBack u] := hu
    obtain rfl : locals = [] := hl
    obtain ⟨-, next, hu, rfl⟩ := ha
    rw [hu.2]
    rfl
  · exact nomatch ht

namespace Render
variable {env : Environment} {params : List Text} {pending : Option Pending} {b : Block} {t : Tree} {n : Nat}

section
variable {names : Names}

/-- A body that only gives back an expression is rendered as the expression. -/
theorem body_of_singleReturn (h : b.singleReturn? = some t) : body env names b = tree env names t := by
  obtain ⟨list, locals, firstSlot, frameSize⟩ := b
  unfold Block.singleReturn? at h
  split at h
  · rename_i u hu hl
    obtain rfl := Option.some.inj h
    obtain rfl : list = [.giveBack u] := hu
    obtain rfl : locals = [] := hl
    rw [body]
  · exact nomatch h

/-- Any other body is rendered in braces. -/
theorem body_of_block (h : b.singleReturn? = none) : body env names b = braced (inside env names b) := by
  obtain ⟨list, locals, firstSlot, frameSize⟩ := b
  rw [body]
  · rfl
  · rintro t rfl rfl
    exact nomatch h

end

private theorem braced_endsVisibly (w : Text) : (braced w).EndsVisibly := ⟨'\x7b' :: w, '\x7d', rfl, by decide⟩

theorem braced_head (w : Text) : ∀ c ∈ (braced w).head?, Text.isBlank c = false := by
  intro c hc
  obtain rfl := Option.some.inj hc
  decide

private theorem slice_braced (w : Text) : Text.slice (braced w) 1 (byteLength (braced w) - 1) = w := by
  have hbetween := (Text.at_self (braced w)).between rfl rfl
  rwa [Nat.zero_add, Nat.zero_add] at hbetween

theorem cover_function (params : List Text) (pending : Option Pending) :
    Names.Cover { arguments := params } (.function params pending) := ⟨rfl, List.prefix_refl _⟩

/-- The text of the body is the text of a body: it is an expression, or its braces are closed. -/
def Recoverable (env : Environment) (params : List Text) (b : Block) : Prop :=
  b.singleReturn?.isSome ∨ b.Every (ReadsBehindReturn env) { arguments := params }

section
variable (hs : Scope.Tidy env (.function params pending)) (hb : b.IsBody params)
include hs hb

private theorem expression_framed (ht : b.singleReturn? = some t) : (tree env { arguments := params } t).Framed :=
  tree_framed hs.legible t ((hb.singleReturn ht).congr (by rfl) (by rfl))

/-- The text of a function body does not end with a blank. -/
private theorem body_endsVisibly : (body env { arguments := params } b).EndsVisibly := by
  cases ht : b.singleReturn? with
  | none =>
    rw [body_of_block ht]
    exact braced_endsVisibly _
  | some t =>
    rw [body_of_singleReturn ht]
    exact (expression_framed hs hb ht).last

variable (hr : b.Every (Reparses n env pending) { arguments := params })
include hr

/-- A body that only gives back an expression is parsed to itself from the text of the expression. -/
private theorem parseBody_expression (ht : b.singleReturn? = some t) :
    Parse.Yields n (Session.parseBody env (.function params pending) (' ' :: body env { arguments := params } b))
      fun code => code.unlabelled = b.unlabelled := by
  have hframed := expression_framed hs hb ht
  have hfirst := hframed.first.head []
  rw [List.append_nil] at hfirst
  obtain rfl := hb.eq_returning ht
  have hreparses : Reparses n env pending { arguments := params } (.giveBack t) := hr.1
  have hparse : Parse.Yields n (parseExpression env (tree env { arguments := params } t) 0 (.function params pending) {})
      fun u => u.unlabelled = t.unlabelled := Reparses.parse (s := .function params pending) hreparses rfl 0
  have hsight : (Scope.function params pending).SameSight (.function params pending) := ⟨rfl, rfl, rfl⟩
  have hsame := parseExpression_space env hframed.first.ne_nil 0 0 hsight {}
  rw [body_of_singleReturn ht, Session.parseBody_space (fun c hc => (hfirst c hc).blank) hframed.last,
    if_neg fun h => (hfirst _ h.1).brace rfl]
  refine .map ((hparse.of_same hsame).mono fun u hu => ?_)
  simp only [Block.returning, Block.unlabelled, Action.allUnlabelled, Action.unlabelled, hu]

/-- Whether its expressions read alike behind the word `return` decides whether the braces of a block are closed. -/
theorem braced_decides :
    (inside env { arguments := params } b).Decides (b.Every (ReadsBehindReturn env) { arguments := params }) true := by
  obtain ⟨_, _, hscoped⟩ := hb
  have hcover := cover_function params pending
  exact inside_decides b (hscoped.withPending pending) hcover hcover hs hr

/-- A block whose braces are closed is parsed to itself. -/
private theorem parseBody_block (hnone : b.singleReturn? = none)
    (hg : b.Every (ReadsBehindReturn env) { arguments := params }) :
    Parse.Yields n (Session.parseBody env (.function params pending) (' ' :: body env { arguments := params } b))
      fun code => code.unlabelled = b.unlabelled := by
  have hclosed := (braced_decides hs hb hr).groupEnd_of hg
  have hcover := cover_function params pending
  obtain ⟨_, _, hscoped⟩ := hb
  rw [body_of_block hnone, Session.parseBody_space (braced_head _) (braced_endsVisibly _), if_pos ⟨rfl, hclosed⟩,
    slice_braced]
  exact .map ((inside_parses b (hscoped.withPending pending) hcover hcover hs hr hg).mono fun p hp => hp.1)

private theorem parseBody_recovers (hg : Recoverable env params b) :
    Parse.Yields n (Session.parseBody env (.function params pending) (' ' :: body env { arguments := params } b))
      fun code => code.unlabelled = b.unlabelled := by
  cases ht : b.singleReturn? with
  | some t => exact parseBody_expression hs hb hr ht
  | none => exact parseBody_block hs hb hr ht (hg.resolve_left (by rw [ht]; nofun))

/-- A block whose braces are not closed is no body. -/
private theorem parseBody_refused (hg : ¬Recoverable env params b) :
    Always (fun _ => True)
      (Session.parseBody env (.function params pending) (' ' :: body env { arguments := params } b)) fun _ => False := by
  have hnone : b.singleReturn? = none := Option.not_isSome_iff_eq_none.mp fun h => hg (.inl h)
  have hopen := (braced_decides hs hb hr).groupEnd_eq_none fun h => hg (.inr h)
  rw [body_of_block hnone, Session.parseBody_space (braced_head _) (braced_endsVisibly _), hopen,
    if_neg fun h => nomatch h.2]
  -- a brace starts no expression
  refine .map ((parseExpression_unbraced env _ _ _ _).mono fun t ht => ht ?_)
  rw [Text.tokensIn, Lexeme.lex_space, braced, List.cons_append, Lexeme.lex_bracket (by simp)]
  rfl

end
end Render

namespace Session

/-- Where a function that may be defined is defined again, the names in sight are tidy. -/
theorem tidy_function {env : Environment} (h : env.Registered) {name : Text} {params : List Text}
    (hn : checkDefinable name = .ok ()) (hp : checkParams [] params = .ok ()) (id : Nat) :
    Scope.Tidy env (.function params (some ⟨name, id, params.length⟩)) where
  params := nameable_of_checkParams hp
  locals := nofun
  pending known hknown := by
    obtain rfl := Option.some.inj hknown
    exact (nameable_of_checkDefinable hn).2
  env := h.tidy

/-- In every session that can be reached, a function whose expressions are parsed to themselves from their texts is
rendered as a line. When its body is an expression, or every expression that it gives back closes its brackets also
behind the word `return`, executing the line succeeds: the function keeps its slot and its parameters and gets the
body that it has. Otherwise the line is refused, and the environment stays as it is. -/
theorem execute_renderFunction {h : Host} (hr : h.Reachable) {name : Text} {id : Nat} {f : Function}
    (hid : h.session.env.functions.lookup name = some id) (hf : h.session.env.functions.get? id = some f)
    (hreparses : f.body.Every
      (Reparses h.session.supply.nextLabel h.session.env (some ⟨name, id, f.params.length⟩))
      { arguments := f.params }) :
    ∃ line, renderFunction h.session.env name = some line ∧
      (Render.Recoverable h.session.env f.params f.body →
        ∃ code supply, code.unlabelled = f.body.unlabelled ∧ (execute line).run.run h.session =
          (.ok none, ⟨{ h.session.env with
            functions := h.session.env.functions.insert id name { f with body := code } }, supply⟩)) ∧
      (¬Render.Recoverable h.session.env f.params f.body →
        ∃ e supply, (execute line).run.run h.session = (.error (.parse e), { h.session with supply })) := by
  have hregistered := hr.registered
  have hbody : f.body.IsBody f.params := hr.sound.env.functions.get? hf
  have hname := hregistered.functions.lookup hid
  have hparams := hregistered.params.get? hf
  have htidy := tidy_function hregistered hname hparams id
  have hrendered : renderFunction h.session.env name = some (Render.function h.session.env name f) := by
    rw [renderFunction, Registry.find?, hid]
    exact congrArg _ hf
  have hreserve : h.session.env.functions.reserve name = id := by
    rw [Registry.reserve, hid]
    rfl
  have hrun := run_execute_definition hname hparams (Render.body_endsVisibly htidy hbody) h.session
  rw [definedBody, hreserve] at hrun
  rcases hparse : (parseBody h.session.env (.function f.params (some ⟨name, id, f.params.length⟩))
    (' ' :: Render.body h.session.env { arguments := f.params } f.body)).run.run h.session.supply with ⟨result, supply⟩
  rw [hparse] at hrun
  refine ⟨_, hrendered, fun hg => ?_, fun hg => ?_⟩
  · have hends := (Render.parseBody_recovers htidy hbody hreparses hg h.session.supply (Nat.le_refl _)).2
    rw [hparse] at hends
    cases result with
    | error e => exact hends.elim
    | ok code => exact ⟨code, supply, hends, hrun⟩
  · have hends := (Render.parseBody_refused htidy hbody hreparses hg h.session.supply trivial).2
    rw [hparse] at hends
    cases result with
    | error e => exact ⟨e, supply, hrun⟩
    | ok code => exact hends.elim

end Session
end Reckoner
