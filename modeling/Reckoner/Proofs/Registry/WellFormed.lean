import Reckoner.Proofs.Registry.History

/-! Trees and bodies as they come from the parser: all that a node refers to is live in the session behind it, its
shape is the one its kind asks for, and statements stand only where they mean something. -/
namespace Reckoner

section
variable (calls : Nat → Nat → Prop) (globals : Nat → Prop) (vectors : Nat → Nat → List Tree → Prop)

mutual

/-- At every depth operators have a number of operands that they accept, calls are of a function and with a number of
arguments in `calls`, global variables are in `globals`, and vectors have the cells of their shape and are in
`vectors`; no literal holds a function, and a function has a well formed body of its own. -/
def Tree.WellFormed : Tree → Prop
  | .literal v => v.kind ≠ .function
  | .builtin op args => op.arity.accepts args.length ∧ Tree.AllWellFormed args
  | .call id args => calls id args.length ∧ Tree.AllWellFormed args
  | .argument _ | .localVariable _ => True
  | .globalVariable slot => globals slot
  | .vector width height cells => cells.length = width * height ∧ vectors width height cells ∧ Tree.AllWellFormed cells
  | .function ⟨_, _, body⟩ _ => Block.WellFormed false body

def Tree.AllWellFormed : List Tree → Prop
  | [] => True
  | t :: ts => Tree.WellFormed t ∧ Tree.AllWellFormed ts

/-- The statement stands directly behind `previous`: an `else` behind an `if`; and a `break` or `continue` in a loop
of the same function body. -/
def Action.WellFormed (inLoop : Bool) (previous : Option Action) : Action → Prop
  | .compute t | .giveBack t | .assign _ t => Tree.WellFormed t
  | .when condition body => Tree.WellFormed condition ∧ Block.WellFormed inLoop body
  | .otherwise body => (∃ condition code, previous = some (.when condition code)) ∧ Block.WellFormed inLoop body
  | .loop condition body => Tree.WellFormed condition ∧ Block.WellFormed true body
  | .leaveLoop | .nextRound => inLoop = true

/-- The statements stand one behind the other, and none behind one that gives back. -/
def Action.AllWellFormed (inLoop : Bool) (previous : Option Action) : List Action → Prop
  | [] => True
  | a :: rest => (∀ t, previous ≠ some (.giveBack t)) ∧ Action.WellFormed inLoop previous a ∧
    Action.AllWellFormed inLoop (some a) rest

def Block.WellFormed (inLoop : Bool) : Block → Prop
  | ⟨actions, _, _, _⟩ => Action.AllWellFormed inLoop none actions

end

def Tree.NodeWellFormed : Tree → Prop
  | .literal v => v.kind ≠ .function
  | .call id args => calls id args.length
  | .globalVariable slot => globals slot
  | .vector width height cells => vectors width height cells
  | _ => True

end

section
variable {calls : Nat → Nat → Prop} {globals : Nat → Prop} {vectors : Nat → Nat → List Tree → Prop}

mutual

/-- Where the nodes refer to what there is, a tree that stands in a scope is well formed. -/
private theorem Tree.Scoped.wellFormed {s : Scope} :
    {t : Tree} → t.Scoped s → t.Each (Tree.NodeWellFormed calls globals vectors) → t.WellFormed calls globals vectors
  | .literal _, hs, _ => hs
  | .builtin _ _, hs, h => ⟨hs.1, Tree.AllScoped.wellFormed hs.2 h.2⟩
  | .call _ _, hs, h => ⟨h.1, Tree.AllScoped.wellFormed hs h.2⟩
  | .argument _, _, _ | .localVariable _, _, _ => trivial
  | .globalVariable _, _, h => h
  | .vector _ _ _, hs, h => ⟨hs.1, h.1, Tree.AllScoped.wellFormed hs.2 h.2⟩
  | .function ⟨_, _, _⟩ _, hs, h => by
    obtain ⟨-, pending, last, hbody⟩ := hs
    exact Block.Scoped.wellFormed hbody h.2

theorem Tree.AllScoped.wellFormed {s : Scope} :
    {ts : List Tree} → Tree.AllScoped s ts → Tree.AllEach (Tree.NodeWellFormed calls globals vectors) ts →
      Tree.AllWellFormed calls globals vectors ts
  | [], _, _ => trivial
  | _ :: _, hs, h => ⟨Tree.Scoped.wellFormed hs.1 h.1, Tree.AllScoped.wellFormed hs.2 h.2⟩

theorem Action.Scoped.wellFormed {s s' : Scope} {previous : Option Action} :
    {a : Action} → a.Scoped s previous s' → a.Each (Tree.NodeWellFormed calls globals vectors) →
      a.WellFormed calls globals vectors s.inLoop previous
  | .compute _, hs, h | .giveBack _, hs, h | .assign _ _, hs, h => Tree.Scoped.wellFormed hs.1 h
  | .when _ _, hs, h => ⟨Tree.Scoped.wellFormed hs.1 h.1, Block.Scoped.wellFormed hs.2 h.2⟩
  | .otherwise _, hs, h => by
    refine ⟨?_, Block.Scoped.wellFormed hs.2 h⟩
    have hwhen := hs.1
    unfold Parse.isWhen at hwhen
    split at hwhen
    · exact ⟨_, _, rfl⟩
    · exact nomatch hwhen
  | .loop _ _, hs, h => by
    obtain ⟨hcondition, inner, hbody, -⟩ := hs
    exact ⟨Tree.Scoped.wellFormed hcondition h.1, Block.Scoped.wellFormed hbody h.2⟩
  | .leaveLoop, hs, _ | .nextRound, hs, _ => hs.1

theorem Action.AllScoped.wellFormed {s s' : Scope} {previous : Option Action} :
    {list : List Action} → Action.AllScoped s previous list s' →
      Action.AllEach (Tree.NodeWellFormed calls globals vectors) list →
      Action.AllWellFormed calls globals vectors s.inLoop previous list
  | [], _, _ => trivial
  | _ :: _, hs, h => by
    obtain ⟨hgives, next, ha, hrest⟩ := hs
    refine ⟨?_, Action.Scoped.wellFormed ha h.1, ?_⟩
    · rintro t rfl
      exact nomatch hgives
    · rw [← ha.extends.inLoop]
      exact Action.AllScoped.wellFormed hrest h.2

private theorem Block.Scoped.wellFormed {s s' : Scope} :
    {b : Block} → b.Scoped s s' → b.Each (Tree.NodeWellFormed calls globals vectors) →
      b.WellFormed calls globals vectors s.inLoop
  | ⟨_, _, _, _⟩, hs, h => by
    obtain ⟨last, hactions, -⟩ := hs
    exact Action.AllScoped.wellFormed hactions h

end

end

/-- The vector is a section of a part of the input, and it is laid out as it is written there. -/
def Parse.WritesVector (env : Environment) (input : Text) (width height : Nat) (cells : List Tree) : Prop :=
  ∃ (c : Context) (s : Section), c.env = env ∧ c.text <:+: input ∧
    s ∈ Section.ofText c.ambient.base false 0 c.text ∧ s.kind = .vector ∧ s.broken = false ∧
    c.LaysOut s.start (s.stop - 1) width height cells

/-- The parser makes well formed nodes. -/
private theorem Environment.Offers.makesWellFormed {env : Environment} {pending : Option Pending}
    {calls : Nat → Nat → Prop}
    {globals : Nat → Prop} (h : env.Offers pending calls globals) (input : Text) :
    Parse.Makes env pending input (Tree.NodeWellFormed calls globals (Parse.WritesVector env input)) where
  literal _ hv := hv
  builtin _ _ _ := trivial
  call name id args := h.function name id args.length
  argument _ := trivial
  localVariable _ := trivial
  globalVariable := h.global
  vector c s _ _ _ henv hinput hs hkind hb hlaid := ⟨c, s, henv, hinput, hs, hkind, hb, hlaid⟩
  function _ _ := trivial

namespace Session
variable {s : Session}

/-- What a definition registers: the slot of the name holds the parameters and the body that the parser makes. -/
private theorem defineFunction_registered {env : Environment} (name : Text) (params : List Text) (body : Text) :
    Commits env (defineFunction name params body) fun id env' => id = env.functions.reserve name ∧
      ∃ supply code, ((parseBody env (.function params (some { name, id, arity := params.length })) body).run.run
        supply).1 = .ok code ∧
      env' = { env with functions := env.functions.insert id name { params, body := code } } := by
  unfold defineFunction
  refine (liftParse_reads _).bind fun _ hname => (liftParse_reads _).bind fun _ hparams => ?_
  refine environment_reads.bind fun env₁ henv => ?_
  subst henv
  refine (parsing_reads _).bind fun code ⟨supply, hcode⟩ => ?_
  refine .answer ((update_commits _).mono fun _ env' he => ?_)
  exact ⟨rfl, supply, code, hcode, he⟩

/-- In every session, whatever requests and scripts it has carried out, an expression that is parsed and the body of a
function that is defined are well formed at every depth: they refer to functions and global variables that are live
then, the function itself among them, with the number of arguments that these take, and each vector is laid out row by
row as it is written, with zeros on the right of the shorter rows. -/
theorem Later.parsed_wellFormed {deleted : Deleted} {units : UnitTable} {config : Config}
    (hs : Later deleted { env := { units, config } } s) :
    (∀ text t after, (parse text).run.run s = (.ok t, after) →
      t.WellFormed after.env.HoldsFunction after.env.HoldsGlobal (Parse.WritesVector s.env text)) ∧
    ∀ name params body id after, (defineFunction name params body).run.run s = (.ok id, after) →
      ∃ code, after.env.functions.lookup name = some id ∧
        after.env.functions.entry? id = some (name, { params, body := code }) ∧
        code.WellFormed after.env.HoldsFunction after.env.HoldsGlobal (Parse.WritesVector s.env body) false := by
  have hnew : Environment.Exact { units, config } := ⟨.empty, .empty⟩
  have hexact : s.env.Exact := hs.exact hnew
  have hall : Parse.Admits s.env fun _ => True := .of_forall fun _ => trivial
  constructor
  · intro text t after hparse
    have hreads := parsing_reads (fun env => parseExpression env text 0 .top {}) hexact s rfl
    rw [show (parsing _).run.run s = _ from hparse] at hreads
    obtain ⟨⟨supply, hok⟩, henv⟩ := hreads
    have htop : Scope.top.pending = none := rfl
    have hscoped := (parseExpression_scoped hall text 0 .top {} supply trivial).2
    have hmakes := hexact.offers.makesWellFormed text
    have hnodes := (parseExpression_each hmakes text (List.infix_refl text) 0 htop {} supply trivial).2
    rw [hok] at hscoped hnodes
    rw [show after.env = s.env from henv]
    exact hscoped.wellFormed hnodes
  · intro name params body id after hdefine
    have hcommits := defineFunction_registered name params body hexact s rfl
    rw [hdefine] at hcommits
    obtain ⟨rfl, supply, code, hcode, henv⟩ := hcommits
    have hmakes := (hexact.offers_pending name { params, body := code }).makesWellFormed body
    have hbody := (parseBody_scoped hall params _ body).and (parseBody_each hmakes params body (List.infix_refl body))
    have hboth := (hbody supply trivial).2
    rw [hcode] at hboth
    obtain ⟨⟨pending, last, hscoped⟩, hnodes⟩ := hboth
    have hentry := Registry.entry?_insert (hexact.functions.reserve_le name) name { params, body := code }
      (s.env.functions.reserve name)
    rw [if_pos rfl] at hentry
    have hlookup := ((hexact.functions.insert name { params, body := code }).lookup_iff name _).mpr
      (Registry.name?_eq_some_iff.mpr ⟨_, hentry⟩)
    rw [show after.env = _ from henv]
    exact ⟨code, hlookup, hentry, hscoped.wellFormed hnodes⟩

/-- A vector with a short row, and a function that calls itself in a loop that it may leave. -/
theorem parsed_wellFormed_of_recursion :
    let t : Tree := .vector 2 2 [.literal (.string ['a']), .number .zero, .literal (.string ['b']),
      .literal (.string ['c'])]
    Later .any {} {} ∧ (parse "<\"a\";\"b\",\"c\">".toList).run.run {} = (.ok t, {}) ∧
      t.WellFormed (Environment.HoldsFunction {}) (Environment.HoldsGlobal {}) (Parse.WritesVector {} "<\"a\";\"b\",\"c\">".toList) ∧
      ∃ code after, (defineFunction ['f'] [['x']]
          "\x7bwhile(x)\x7bif(x)break;else x=f(x)\x7d;return x\x7d".toList).run.run {} = (.ok 0, after) ∧
        after.env.functions.entry? 0 = some (['f'], { params := [['x']], body := code }) ∧
        code.WellFormed after.env.HoldsFunction after.env.HoldsGlobal
          (Parse.WritesVector {} "\x7bwhile(x)\x7bif(x)break;else x=f(x)\x7d;return x\x7d".toList) false := by
  intro t
  have hparse : (parse "<\"a\";\"b\",\"c\">".toList).run.run {} = (.ok t, {}) := by
    unfold parse parseExpression parseExpression
    with_unfolding_all rfl
  have hdefine : ∃ after, (defineFunction ['f'] [['x']]
      "\x7bwhile(x)\x7bif(x)break;else x=f(x)\x7d;return x\x7d".toList).run.run {} = (.ok 0, after) := by
    unfold defineFunction parseBody parseBlock parseBlock parseBlock parseExpression parseExpression
    exact ⟨_, by with_unfolding_all rfl⟩
  obtain ⟨after, hdefine⟩ := hdefine
  obtain ⟨hparsed, hdefined⟩ := @Later.parsed_wellFormed {} .any .si {} .refl
  obtain ⟨code, -, hentry, hcode⟩ := hdefined _ _ _ _ _ hdefine
  exact ⟨.refl, hparse, hparsed _ _ _ hparse, code, after, hdefine, hentry, hcode⟩

end Session
end Reckoner
