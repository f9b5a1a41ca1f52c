import Reckoner.Proofs.LateBinding
import Reckoner.Proofs.Registry.History
import Reckoner.Proofs.Rendering.Faithful
import Reckoner.Proofs.Rendering.Restoring

/-! Rendered trees of the parser. A name that was resolved where a text was parsed is written for what it was resolved
to, and resolves to that again: in the same environment, and in the one with the function whose body was parsed. -/
namespace Reckoner

open Render (Names Faithful Spells Recoverable)
open Session (checkDefinable)

namespace Render

/-- The environment in which a tree is rendered is as good as the one in which it was parsed: a name in sight stands for
the same, functions and global variables are written with the names that they were found by, and the names of
builtins are still theirs. -/
structure Agrees (env env' : Environment) (pending : Option Pending) : Prop where
  slot? (s : Scope) (name : Text) : s.slot? env' name = s.slot? env name
  function? {s : Scope} (name : Text) : s.pending = pending → s.function? env' name = s.function? env name
  globalNamed {name : Text} {slot : Nat} : env.globals.lookup name = some slot → globalName env' slot = name
  functionNamed {s : Scope} {name : Text} {id count : Nat} : s.pending = pending →
    s.function? env name = some (id, count) → functionName env' id = name
  builtin {s : Scope} {name : Text} {op : Builtin} : s.pending = pending → Builtin.ofName? name = some op →
    env'.globals.lookup name = none ∧ s.function? env' name = none

namespace Agrees
variable {env : Environment} {s : Scope} {name other : Text} {id count : Nat} {pending : Pending}

private theorem function?_pending (hs : s.pending = some pending) : s.function? env name =
    if pending.name = name then some (pending.id, pending.arity) else Scope.top.function? env name := by
  rw [Scope.function?, hs]
  rfl

private theorem function?_top (hs : s.pending = none) : s.function? env name = Scope.top.function? env name := by
  rw [Scope.function?, hs]
  rfl

private theorem lookup_of_function? (h : Scope.top.function? env name = some (id, count)) :
    env.functions.lookup name = some id := by
  obtain ⟨slot, hslot, h⟩ := Option.bind_eq_some_iff.mp h
  obtain ⟨f, -, h⟩ := Option.bind_eq_some_iff.mp h
  obtain ⟨rfl, -⟩ := Prod.mk.inj (Option.some.inj h)
  exact hslot

private theorem function?_builtin (hr : env.Registered) {op : Builtin} (hname : Builtin.ofName? name = some op) :
    Scope.top.function? env name = none := by
  show (env.functions.lookup name).bind _ = none
  rw [hr.functions.lookup_builtin hname]
  rfl

private theorem function?_insert (h : env.Exact) (hne : other ≠ name) (f : Function) :
    Scope.top.function? { env with functions := env.functions.insert (env.functions.reserve name) name f } other =
      Scope.top.function? env other := by
  show ((env.functions.insert _ name f).lookup other).bind _ = (env.functions.lookup other).bind _
  rw [Registry.lookup_insert_of_ne hne]
  refine Option.bind_congr fun slot hslot => ?_
  simp only [Registry.get?]
  rw [Registry.entry?_insert (h.functions.reserve_le name), if_neg (h.functions.ne_reserve hne hslot)]

/-- A text outside of all functions. -/
private theorem here (h : env.Exact) (hr : env.Registered) : Agrees env env none where
  slot? _ _ := rfl
  function? _ _ := rfl
  globalNamed hl := by rw [globalName, (h.globals.lookup_iff _ _).mp hl]; rfl
  functionNamed hs hl := by
    rw [function?_top hs] at hl
    rw [functionName, (h.functions.lookup_iff _ _).mp (lookup_of_function? hl)]
    rfl
  builtin hs hname := ⟨hr.globals.lookup_builtin hname, (function?_top hs).trans (function?_builtin hr hname)⟩

/-- The body of a function, and the environment in which the function is defined. -/
private theorem defined (h : env.Exact) (hr : env.Registered) (hn : checkDefinable name = .ok ()) (f : Function) :
    Agrees env { env with functions := env.functions.insert (env.functions.reserve name) name f }
      (some ⟨name, env.functions.reserve name, f.params.length⟩) where
  slot? _ _ := rfl
  function? other hs := by
    rw [function?_pending hs, function?_pending hs]
    by_cases hne : name = other
    · rw [if_pos hne, if_pos hne]
    · rw [if_neg hne, if_neg hne, function?_insert h (Ne.symm hne)]
  globalNamed hl := by rw [globalName, (h.globals.lookup_iff _ _).mp hl]; rfl
  functionNamed {s} other id count hs hl := by
    rw [functionName, h.functions.name?_insert]
    rw [function?_pending hs] at hl
    by_cases hne : name = other
    · rw [if_pos hne] at hl
      obtain ⟨rfl, -⟩ := Prod.mk.inj (Option.some.inj hl)
      rw [if_pos rfl, hne]
      rfl
    · rw [if_neg hne] at hl
      have hslot := lookup_of_function? hl
      rw [if_neg (h.functions.ne_reserve (Ne.symm hne) hslot), (h.functions.lookup_iff _ _).mp hslot]
      rfl
  builtin {s} other op hs hname := by
    have hne : name ≠ other := by
      rintro rfl
      rw [Session.ofName?_of_checkDefinable hn] at hname
      exact nomatch hname
    refine ⟨hr.globals.lookup_builtin hname, ?_⟩
    rw [function?_pending hs, if_neg hne, function?_insert h hne.symm, function?_builtin hr hname]

end Agrees

/-- What is written for the node is not taken for something else: a number is spelled by a decimal or by a word that no
name hides, no name hides `run`, a sign stands in front of no number that would take it, no vector stands in front of
`==`, and the body of a function closes its brackets. -/
def Plain (env : Environment) (pending : Option Pending) (names : Names) : Tree → Prop
  | .literal (.number n) => Spells env (names.scope pending) (number n) (.number n)
  | .builtin .run _ => Builtin.run.name ∉ names.arguments ++ names.locals
  | .builtin .negate args => ∀ t ∈ args, t.number? = none
  | .builtin .equal args => ∀ t ∈ args.head?, t.isVector = false
  | .function f _ => Recoverable env (f.params ++ names.arguments ++ names.locals) f.body
  | _ => True

namespace Agrees
variable {env env' : Environment} {pending : Option Pending} {s : Scope} {names : Names} {op : Builtin}
  {name written : Text} {t : Tree} {count : Nat}

private theorem slot?_eq_none :
    s.slot? env name = none ↔ name ∉ s.params ++ s.locals ∧ env.globals.lookup name = none := by
  have hparams : s.argument? name = none ↔ name ∉ s.params := List.idxOf?_eq_none_iff
  have hlocals : s.local? name = none ↔ name ∉ s.locals := by
    rw [Scope.local?, Option.map_eq_none_iff, List.idxOf?_eq_none_iff, List.mem_reverse]
  simp only [Scope.slot?, Option.orElse_eq_orElse, Option.orElse_eq_or, Option.or_eq_none_iff, Option.map_eq_none_iff,
    hparams, hlocals, List.mem_append, not_or, and_assoc]

section
variable (h : Agrees env env' pending)
include h

private theorem resolve_slot (ht : s.slot? env name = some t) (hw : written = name) (position : Nat) :
    (s.names.scope pending).resolve env' {} written position = .ok t := by
  have hslot : (s.names.scope pending).slot? env' written = some t := by
    rw [h.slot?, hw, ← ht]
    rfl
  unfold Scope.resolve
  simp [hslot]

/-- An argument or a variable is written with the name that it was found by. -/
private theorem slot_faithful (ht : s.slot? env name = some t) : Faithful env' pending s.names t := by
  have hfound := ht
  simp only [Scope.slot?, Option.orElse_eq_orElse, Option.orElse_eq_or, Option.or_eq_some_iff,
    Option.map_eq_some_iff] at ht
  rcases ht with ⟨index, hindex, rfl⟩ | ⟨-, ⟨slot, hslot, rfl⟩ | ⟨-, slot, hslot, rfl⟩⟩
  · refine h.resolve_slot hfound ?_
    rw [Names.argument, named, Scope.names, Scope.getElem?_argument hindex]
    rfl
  · refine h.resolve_slot hfound ?_
    rw [Names.localVariable, named, Scope.names, Scope.getElem?_local hslot]
    rfl
  · exact h.resolve_slot hfound (h.globalNamed hslot)

private theorem callee_function {id : Nat} (hs : s.pending = pending) (hslot : s.slot? env name = none)
    (hid : s.function? env name = some (id, count)) (position : Nat) :
    (s.names.scope pending).callee env' (functionName env' id) count position = .ok (.function id) := by
  have hslot' : (s.names.scope pending).slot? env' name = none := by
    rw [h.slot?, ← hslot]
    rfl
  have hid' : (s.names.scope pending).function? env' name = some (id, count) := by
    rw [h.function? (s := s.names.scope pending) name rfl, ← hid, Scope.function?, Scope.function?, hs]
    rfl
  unfold Scope.callee
  rw [h.functionNamed hs hid, hslot', hid']
  exact if_pos rfl

/-- A builtin is found by its name wherever no argument and no local variable hides it. -/
private theorem callee_builtin (hname : Builtin.ofName? name = some op) (hfree : name ∉ names.arguments ++ names.locals)
    (hcount : op.arity.accepts count) (position : Nat) :
    (names.scope pending).callee env' name count position = .ok (.builtin op) := by
  obtain ⟨hglobal, hfunction⟩ := h.builtin (s := names.scope pending) rfl hname
  unfold Scope.callee
  rw [slot?_eq_none.mpr ⟨hfree, hglobal⟩, hfunction, hname]
  exact if_pos hcount

private theorem builtin_faithful {args : List Tree} (hname : Builtin.ofName? name = some op)
    (hfree : name ∉ names.arguments ++ names.locals) (hcount : op.arity.accepts args.length)
    (hplain : Plain env' pending names (.builtin op args)) : Faithful env' pending names (.builtin op args) := by
  have hfound : (!op.isInfix && op.name == name) = true :=
    List.find?_some (p := fun op : Builtin => !op.isInfix && op.name == name) hname
  simp only [Bool.and_eq_true, Bool.not_eq_true', beq_iff_eq] at hfound
  obtain ⟨hcalled, rfl⟩ := hfound
  unfold Faithful
  simp only
  by_cases hnegate : op = .negate
  · subst hnegate
    rw [if_pos rfl]
    exact hplain
  · rw [if_neg hnegate, if_neg (by rw [hcalled]; decide)]
    exact h.callee_builtin hname hfree hcount

/-- What the parser makes of a text is written faithfully where it is plain. -/
private theorem shows :
    Parse.Shows env pending fun names t => Plain env' pending names t → Faithful env' pending names t where
  number names n hplain := hplain
  string names {_} ht _ := .string ht
  slot hs ht _ := h.slot_faithful ht
  call hs hslot hid _ := h.callee_function hs hslot hid
  builtin hs hslot _ hname hcount := h.builtin_faithful hname (slot?_eq_none.mp hslot).1 hcount
  run names t args hfree := h.builtin_faithful (by decide) hfree rfl hfree
  operator names {_} args hop hplain := by
    unfold Faithful
    simp only
    rcases hop with hop | rfl
    · rw [if_neg (by rintro rfl; exact absurd hop (by decide)), if_pos hop]
      rintro rfl
      exact hplain
    · rw [if_pos rfl]
      exact hplain
  vector names {_ _} cells hwidth hheight _ := ⟨hwidth, hheight⟩
  function names {_} width hparams hnodup hplain := ⟨hparams, hnodup, hplain⟩

end

end Agrees

section
variable {env env' : Environment} {s : Scope} (h : Agrees env env' s.pending)
include h

/-- What is parsed with nothing but plain nodes reads back from the text it is rendered as. -/
private theorem parseExpression_readsBack (hs : s.Tidy env') (t : Text) (offset : Nat) :
    Always (fun _ => True) (parseExpression env t offset s {}) fun u =>
      u.Throughout (Plain env' s.pending) s.names → ∀ n, ReadsBack n env' s u := by
  have hshows := parseExpression_shows h.shows t offset rfl {}
  have hscoped := parseExpression_scoped (@Parse.Admits.of_forall env _ fun _ => trivial) t offset s {}
  refine (hshows.and hscoped).mono fun u hu hplain n => tree_readsBack hs u hu.2 ?_
  exact .and (fun _ _ hfaithful hplain => hfaithful hplain) hu.1 hplain

end

/-- So does the body of a function. -/
private theorem parseBody_shows {env : Environment} {pending : Option Pending} {P : Names → Tree → Prop}
    (h : Parse.Shows env pending P) (params : List Text) (t : Text) :
    Always (fun _ => True) (Session.parseBody env (.function params pending) t)
      (Block.Throughout P { arguments := params }) := by
  unfold Session.parseBody
  refine .ite (fun _ => ?_) fun _ => ?_
  · exact .map (parseBlock_shows h _ _ rfl)
  · exact .map ((parseExpression_shows h _ _ rfl {}).mono fun u hu => ⟨hu, trivial⟩)

private theorem parseBody_reparses {env env' : Environment} {pending : Option Pending} (h : Agrees env env' pending)
    {params : List Text} (hs : Scope.Tidy env' (.function params pending)) (t : Text) :
    Always (fun _ => True) (Session.parseBody env (.function params pending) t) fun b =>
      b.Throughout (Plain env' pending) { arguments := params } →
        ∀ n, b.Every (Reparses n env' pending) { arguments := params } := by
  have hshows := parseBody_shows h.shows params t
  have hscoped := Session.parseBody_scoped (@Parse.Admits.of_forall env _ fun _ => trivial) params pending t
  refine (hshows.and hscoped).mono fun b hb hplain n => ?_
  obtain ⟨hfaithful, _, _, hscoped⟩ := hb
  refine block_reparses hs (cover_function params pending) b (hscoped.withPending pending) ?_
  exact .and (fun _ _ hfaithful hplain => hfaithful hplain) hfaithful hplain

end Render

private theorem Parse.Yields.exists_ok {α : Type} {n : Nat} {x : Parse α} {Q : α → Prop} (h : Parse.Yields n x Q)
    {supply : Supply} (hn : n ≤ supply.nextLabel) : ∃ a after, x.run.run supply = (.ok a, after) ∧ Q a := by
  have hends := (h supply hn).2
  rcases hrun : x.run.run supply with ⟨e | a, after⟩ <;> rw [hrun] at hends
  · exact hends.elim
  · exact ⟨a, after, rfl, hends⟩

/-- What all successful parses tell, told of one that succeeded. -/
private theorem Parse.of_ok {α : Type} {x : Parse α} {Q : α → Prop} (h : Always (fun _ => True) x Q)
    {supply after : Supply}
    {a : α} (hrun : x.run.run supply = (.ok a, after)) : Q a := by
  have hends := (h supply trivial).2
  rwa [hrun] at hends

namespace Session

private theorem run_parsing_ok {α : Type} {p : Environment → Parse α} {s s' : Session} {a : α} :
    (parsing p).run.run s = (.ok a, s') ↔
      ∃ supply, (p s.env).run.run s.supply = (.ok a, supply) ∧ s' = { s with supply } := by
  rw [run_parsing]
  rcases (p s.env).run.run s.supply with ⟨e | a', supply⟩
  · constructor
    · intro h
      cases h
    · rintro ⟨_, h, -⟩
      cases h
  · constructor
    · intro h
      cases h
      exact ⟨supply, rfl, rfl⟩
    · rintro ⟨_, h, rfl⟩
      cases h
      rfl

/-- What a successful definition did. -/
private theorem defineFunction_ok {name : Text} {params : List Text} {body : Text} {s s' : Session} {id : Nat}
    (h : (defineFunction name params body).run.run s = (.ok id, s')) :
    checkDefinable name = .ok () ∧ checkParams [] params = .ok () ∧ s.env.functions.reserve name = id ∧
      ∃ code supply, (definedBody s.env name params body).run.run s.supply = (.ok code, supply) ∧
        s' = ⟨{ s.env with functions := s.env.functions.insert id name ⟨params, code⟩ }, supply⟩ := by
  cases hn : checkDefinable name with
  | error e =>
    rw [defineFunction, hn] at h
    cases h
  | ok =>
    cases hp : checkParams [] params with
    | error e =>
      rw [defineFunction, hn, hp] at h
      cases h
    | ok =>
      rw [run_defineFunction hn hp] at h
      rcases hrun : (definedBody s.env name params body).run.run s.supply with ⟨e | code, supply⟩ <;> rw [hrun] at h
      · cases h
      · obtain ⟨hid, rfl⟩ := Prod.mk.inj h
        obtain rfl := Except.ok.inj hid
        exact ⟨rfl, rfl, rfl, code, supply, rfl, rfl⟩

variable {h : Host} (hr : h.Reachable)
include hr

/-- In every session that can be reached, the text that a tree of the parser is rendered as is parsed to that tree, all
but the labels of anonymous functions, as long as all its nodes are plain. The environment stays as it is. -/
theorem parse_rendered {text : Text} {t : Tree} {s : Session} (hparse : (parse text).run.run h.session = (.ok t, s))
    (hplain : t.Throughout (Render.Plain s.env none) {}) :
    ∃ u supply, u.unlabelled = t.unlabelled ∧
      (parse (Render.tree s.env {} t)).run.run s = (.ok u, { s with supply }) := by
  obtain ⟨supply, hrun, rfl⟩ := run_parsing_ok.mp hparse
  have hregistered := hr.registered
  have htidy : Scope.Tidy h.session.env .top := ⟨nofun, nofun, nofun, hregistered.tidy⟩
  have hreads := Parse.of_ok (Render.parseExpression_readsBack (.here hr.exact hregistered) htidy text 0) hrun
  obtain ⟨u, after, hagain, hsame⟩ := (hreads hplain 0).whole.exists_ok (Nat.zero_le supply.nextLabel)
  exact ⟨u, after, hsame, run_parsing_ok.mpr ⟨after, hagain, rfl⟩⟩

/-- A function whose nodes are plain is rendered as a line right where it was defined. When its body is an expression, or
every expression that it gives back closes its brackets also behind the word `return`, executing the line gives it the
body that it has, all but the labels of anonymous functions. Otherwise the line is refused. -/
theorem execute_rendered {name : Text} {params : List Text} {body : Text} {id : Nat} {f : Function} {s : Session}
    (hdefine : (defineFunction name params body).run.run h.session = (.ok id, s))
    (hf : s.env.functions.get? id = some f)
    (hplain : f.body.Throughout (Render.Plain s.env (some ⟨name, id, f.params.length⟩)) { arguments := f.params }) :
    ∃ line, renderFunction s.env name = some line ∧
      (Recoverable s.env f.params f.body → ∃ code supply, code.unlabelled = f.body.unlabelled ∧
        (execute line).run.run s = (.ok none, ⟨{ s.env with
          functions := s.env.functions.insert id name { f with body := code } }, supply⟩)) ∧
      (¬Recoverable s.env f.params f.body →
        ∃ e supply, (execute line).run.run s = (.error (.parse e), { s with supply })) := by
  have hreachable : (h.after (.defineFunction name params body)).Reachable := hr.after _ trivial
  have hsession : (h.after (.defineFunction name params body)).session = s := by
    rw [Host.session_after, Request.perform, run_bind, hdefine]
    rfl
  obtain ⟨hn, hp, rfl, code, supply, hrun, hs⟩ := defineFunction_ok hdefine
  have henv : s.env = { h.session.env with
      functions := h.session.env.functions.insert (h.session.env.functions.reserve name) name ⟨params, code⟩ } := by
    rw [hs]
  have hlookup : s.env.functions.lookup name = some (h.session.env.functions.reserve name) := by
    rw [henv, (hr.exact.functions.insert name _).lookup_iff, hr.exact.functions.name?_insert, if_pos rfl]
  obtain rfl : f = ⟨params, code⟩ := by
    rw [henv, Registry.get?, Registry.entry?_insert (hr.exact.functions.reserve_le name), if_pos rfl] at hf
    exact (Option.some.inj hf).symm
  have hregistered : s.env.Registered := hsession ▸ hreachable.registered
  have htidy := tidy_function hregistered hn hp (h.session.env.functions.reserve name)
  have hagrees := Render.Agrees.defined hr.exact hr.registered hn ⟨params, code⟩
  rw [← henv] at hagrees
  have hreparses := Parse.of_ok (Render.parseBody_reparses hagrees htidy body) hrun
  subst hsession
  exact execute_renderFunction hreachable hlookup hf (hreparses hplain _)

end Session
end Reckoner
