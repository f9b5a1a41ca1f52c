import Reckoner.Proofs.Cutting.Matched
import Reckoner.Proofs.Nodes
import Reckoner.Proofs.Rendering.Recovery
import Reckoner.Proofs.Rendering.Registered

/-! The nodes of trees with the names in sight at each of them. Whatever holds of the nodes that the parser makes, where
it makes them, holds throughout what it builds. -/
namespace Reckoner

open Render (Names)

section
variable (P : Names → Tree → Prop)

mutual

/-- The property holds of every node of the tree, however deep, with the names in sight there. -/
def Tree.Throughout (names : Names) : Tree → Prop
  | .literal v => P names (.literal v)
  | .builtin op args => P names (.builtin op args) ∧ Tree.AllThroughout names args
  | .call id args => P names (.call id args) ∧ Tree.AllThroughout names args
  | .argument index => P names (.argument index)
  | .localVariable slot => P names (.localVariable slot)
  | .globalVariable slot => P names (.globalVariable slot)
  | .vector width height cells => P names (.vector width height cells) ∧ Tree.AllThroughout names cells
  | .function ⟨label, params, body⟩ width =>
    P names (.function ⟨label, params, body⟩ width) ∧ Block.Throughout (names.lambda params width) body

def Tree.AllThroughout (names : Names) : List Tree → Prop
  | [] => True
  | t :: ts => Tree.Throughout names t ∧ Tree.AllThroughout names ts

def Block.Throughout (names : Names) : Block → Prop
  | ⟨actions, locals, firstSlot, _⟩ => Action.AllThroughout (names.block firstSlot locals) firstSlot actions

def Action.AllThroughout (names : Names) (visible : Nat) : List Action → Prop
  | [] => True
  | a :: rest => Action.Throughout names visible a ∧ Action.AllThroughout names (a.visible visible) rest

def Action.Throughout (names : Names) (visible : Nat) : Action → Prop
  | .compute t | .giveBack t | .assign _ t => Tree.Throughout (names.upTo visible) t
  | .when condition body | .loop condition body =>
    Tree.Throughout (names.upTo visible) condition ∧ Block.Throughout names body
  | .otherwise body => Block.Throughout names body
  | .leaveLoop | .nextRound => True

end

end

private theorem Tree.allThroughout_iff {P : Names → Tree → Prop} {names : Names} {ts : List Tree} :
    Tree.AllThroughout P names ts ↔ ∀ t ∈ ts, t.Throughout P names := by
  induction ts with
  | nil => simp [Tree.AllThroughout]
  | cons t ts ih => simp [Tree.AllThroughout, ih]

section
variable {P Q R : Names → Tree → Prop}

mutual

/-- Where two properties hold throughout, so does what follows from them. -/
theorem Tree.Throughout.and (hr : ∀ names t, P names t → Q names t → R names t) {names : Names} : {t : Tree} →
    t.Throughout P names → t.Throughout Q names → t.Throughout R names
  | .literal _, h, h' => hr _ _ h h'
  | .builtin _ _, h, h' => ⟨hr _ _ h.1 h'.1, Tree.AllThroughout.and hr h.2 h'.2⟩
  | .call _ _, h, h' => ⟨hr _ _ h.1 h'.1, Tree.AllThroughout.and hr h.2 h'.2⟩
  | .argument _, h, h' => hr _ _ h h'
  | .localVariable _, h, h' => hr _ _ h h'
  | .globalVariable _, h, h' => hr _ _ h h'
  | .vector _ _ _, h, h' => ⟨hr _ _ h.1 h'.1, Tree.AllThroughout.and hr h.2 h'.2⟩
  | .function ⟨_, _, _⟩ _, h, h' => ⟨hr _ _ h.1 h'.1, Block.Throughout.and hr h.2 h'.2⟩

theorem Tree.AllThroughout.and (hr : ∀ names t, P names t → Q names t → R names t) {names : Names} : {ts : List Tree} →
    Tree.AllThroughout P names ts → Tree.AllThroughout Q names ts → Tree.AllThroughout R names ts
  | [], _, _ => trivial
  | _ :: _, h, h' => ⟨Tree.Throughout.and hr h.1 h'.1, Tree.AllThroughout.and hr h.2 h'.2⟩

theorem Block.Throughout.and (hr : ∀ names t, P names t → Q names t → R names t) {names : Names} : {b : Block} →
    b.Throughout P names → b.Throughout Q names → b.Throughout R names
  | ⟨_, _, _, _⟩, h, h' => Action.AllThroughout.and hr h h'

theorem Action.AllThroughout.and (hr : ∀ names t, P names t → Q names t → R names t) {names : Names} {visible : Nat} :
    {list : List Action} → Action.AllThroughout P names visible list → Action.AllThroughout Q names visible list →
      Action.AllThroughout R names visible list
  | [], _, _ => trivial
  | _ :: _, h, h' => ⟨Action.Throughout.and hr h.1 h'.1, Action.AllThroughout.and hr h.2 h'.2⟩

theorem Action.Throughout.and (hr : ∀ names t, P names t → Q names t → R names t) {names : Names} {visible : Nat} :
    {a : Action} → a.Throughout P names visible → a.Throughout Q names visible → a.Throughout R names visible
  | .compute _, h, h' => Tree.Throughout.and hr h h'
  | .giveBack _, h, h' => Tree.Throughout.and hr h h'
  | .assign _ _, h, h' => Tree.Throughout.and hr h h'
  | .when _ _, h, h' => ⟨Tree.Throughout.and hr h.1 h'.1, Block.Throughout.and hr h.2 h'.2⟩
  | .loop _ _, h, h' => ⟨Tree.Throughout.and hr h.1 h'.1, Block.Throughout.and hr h.2 h'.2⟩
  | .otherwise _, h, h' => Block.Throughout.and hr h h'
  | .leaveLoop, _, _ => trivial
  | .nextRound, _, _ => trivial

end

end

/-- In an anonymous function its parameters are in sight, and all names around it. -/
theorem Render.lambda_names (s : Scope) (params : List Text) :
    s.names.lambda params s.captureWidth = (Scope.lambda params s).names := by
  rw [Names.lambda, Scope.names, Scope.captureWidth, ← List.length_append, List.take_length]
  simp only [Scope.names, Scope.lambda, List.append_assoc]

structure Parse.Shows (env : Environment) (pending : Option Pending) (P : Names → Tree → Prop) : Prop where
  number (names : Names) (n : Number) : P names (.number n)
  string (names : Names) {t : Text} : '"' ∉ t → P names (.literal (.string t))
  slot {s : Scope} {name : Text} {t : Tree} : s.pending = pending → s.slot? env name = some t → P s.names t
  call {s : Scope} {name : Text} {id : Nat} {args : List Tree} : s.pending = pending → s.slot? env name = none →
    s.function? env name = some (id, args.length) → P s.names (.call id args)
  builtin {s : Scope} {name : Text} {op : Builtin} {args : List Tree} : s.pending = pending →
    s.slot? env name = none → s.function? env name = none → Builtin.ofName? name = some op →
    op.arity.accepts args.length → P s.names (.builtin op args)
  run (names : Names) (t : Tree) (args : List Tree) : P names (.builtin .run (t :: args))
  operator (names : Names) {op : Builtin} (args : List Tree) : op.isInfix ∨ op = .negate → P names (.builtin op args)
  vector (names : Names) {width height : Nat} (cells : List Tree) : 0 < width → 0 < height →
    P names (.vector width height cells)
  function (names : Names) {f : Lambda} (width : Nat) : (∀ param ∈ f.params, param.Nameable) → f.params.Nodup →
    P names (.function f width)

namespace Section
variable {base limit : Nat} {t : Text} {s : Section} {ls rest : List Lexeme}

private theorem function_kind (limit start : Nat) (arrow : Lexeme) (ls : List Lexeme) :
    (function limit start arrow ls).1.kind ≠ .string := by
  unfold function
  split
  · split <;> nofun
  · nofun

private theorem named_kind (limit : Nat) (name : Lexeme) (ls : List Lexeme) :
    (named limit name ls).1.kind ≠ .string := by
  unfold named
  split
  · split
    · nofun
    · split
      · exact function_kind _ _ _ _
      · nofun
  · nofun

private theorem parenthesized_kind (limit start : Nat) (ls : List Lexeme) :
    (parenthesized limit start ls).1.kind ≠ .string := by
  unfold parenthesized
  simp only
  split
  · split
    · exact function_kind _ _ _ _
    · nofun
  · nofun

private theorem square_kind (limit start : Nat) (ls : List Lexeme) : (square limit start ls).1.kind ≠ .string := by
  unfold square
  simp only
  split
  · nofun
  · split
    · split <;> nofun
    · nofun

/-- A string is one lexeme. -/
private theorem next_string {a : Bool} (h : next limit a ls = some (s, rest)) (hk : s.kind = .string)
    (hb : s.broken = false) :
    ∃ l, ls = l :: rest ∧ l.token = .string ∧ s.start = l.start ∧ s.stop = l.stop := by
  cases ls with
  | nil => exact nomatch h
  | cons l ls =>
    have h := Option.some.inj h
    have hother {r : Section × List Lexeme} (hr : r = (s, rest)) (hkind : r.1.kind ≠ .string) : False := by
      rw [hr] at hkind
      exact hkind hk
    split at h
    · exact (hother h nofun).elim
    · rename_i ht
      obtain ⟨rfl, rfl⟩ := Prod.mk.inj h
      exact ⟨l, rfl, ht, rfl, rfl⟩
    · obtain ⟨rfl, rfl⟩ := Prod.mk.inj h
      cases hb
    · exact (hother h (named_kind _ _ _)).elim
    · exact (hother h (parenthesized_kind _ _ _)).elim
    · exact (hother h (square_kind _ _ _)).elim
    · split at h <;> exact (hother h nofun).elim
    · split at h <;> exact (hother h nofun).elim

/-- No quote stands in a string. -/
private theorem quote_notMem (hs : s ∈ ofText base false 0 t) (hb : s.broken = false) (hk : s.kind = .string) :
    '"' ∉ Text.slice t (s.start + 1) (s.stop - 1) := by
  have hall {a : Bool} {place : Nat} {ls : List Lexeme} (h : Lexeme.Remain base t place ls)
      (hs : s ∈ all (Text.byteLength t) a ls) : '"' ∉ Text.slice t (s.start + 1) (s.stop - 1) := by
    fun_induction all (Text.byteLength t) a ls generalizing place with
    | case1 => cases hs
    | case2 a ls first rest hnext hbroken =>
      rw [List.mem_singleton.mp hs, hbroken] at hb
      cases hb
    | case3 a ls first rest hnext hbroken ih =>
      rcases List.mem_cons.mp hs with rfl | hs
      · obtain ⟨l, rfl, ht, hstart, hstop⟩ := next_string hnext hk hb
        obtain ⟨inside, hquote, hat, hend⟩ := h.at_string ht
        rw [hstart, hstop, hend, hat.between rfl rfl]
        exact hquote
      · exact ih (next_reads h hnext (Bool.not_eq_true _ ▸ hbroken)).rest hs
  rw [ofText, Text.dropBytes] at hs
  exact hall (.all base t) hs

end Section

namespace Parse
variable {env : Environment} {pending : Option Pending} {P : Names → Tree → Prop}

namespace Shows
variable (h : Shows env pending P)
include h

private theorem operates (names : Names) : Tree.Operates (Tree.Throughout P names) where
  number := h.number names
  negate ht := ⟨h.operator names _ (.inr rfl), ht, trivial⟩
  between hop ha hb := ⟨h.operator names _ (.inl hop), ha, hb, trivial⟩

private theorem slot?_shows {s : Scope} (hs : s.pending = pending) {name : Text} {t : Tree}
    (ht : s.slot? env name = some t) :
    t.Throughout P s.names := by
  have hnode := h.slot hs ht
  simp only [Scope.slot?, Option.orElse_eq_orElse, Option.orElse_eq_or, Option.or_eq_some_iff,
    Option.map_eq_some_iff] at ht
  rcases ht with ⟨index, -, rfl⟩ | ⟨-, ⟨slot, -, rfl⟩ | ⟨-, slot, -, rfl⟩⟩ <;> exact hnode

private theorem resolve_shows {s : Scope} (hs : s.pending = pending) (ambient : Ambient) (name : Text)
    (position : Nat) :
    Ends (fun _ => True) (s.resolve env ambient name position) (Tree.Throughout P s.names) := by
  unfold Scope.resolve
  simp only
  split
  · rename_i t ht
    simp only [Option.orElse_eq_orElse, Option.orElse_eq_or, Option.or_eq_some_iff] at ht
    rcases ht with ht | ⟨-, ht | ⟨hslot, ht | ⟨-, ht⟩⟩⟩
    · split at ht
      · obtain ⟨m, -, rfl⟩ := Option.map_eq_some_iff.mp ht
        exact h.number _ _
      · exact nomatch ht
    · exact h.slot?_shows hs ht
    · split at ht
      · rename_i id hid
        obtain rfl := Option.some.inj ht
        exact ⟨h.call hs hslot hid, trivial⟩
      · exact nomatch ht
    · obtain ⟨n, -, rfl⟩ := Option.map_eq_some_iff.mp ht
      exact h.number _ _
  · trivial

private theorem callee_shows {s : Scope} (hs : s.pending = pending) (name : Text) (count position : Nat) :
    Ends (fun _ => True) (s.callee env name count position) fun callee => ∀ args : List Tree, args.length = count →
      (∀ t ∈ args, t.Throughout P s.names) → (callee.apply args).Throughout P s.names := by
  unfold Scope.callee
  split
  · rename_i t _ _ ht
    exact fun args _ hargs => ⟨h.run _ _ _, h.slot?_shows hs ht, Tree.allThroughout_iff.mpr hargs⟩
  · rename_i id arity _ hslot hid
    refine .ite (fun harity args hlength hargs => ⟨?_, Tree.allThroughout_iff.mpr hargs⟩) fun _ => trivial
    refine h.call hs hslot ?_
    rw [hlength, ← harity]
    exact hid
  · rename_i op hslot hfunction hname
    refine .ite (fun hop args hlength hargs => ⟨?_, Tree.allThroughout_iff.mpr hargs⟩) fun _ => trivial
    exact h.builtin hs hslot hfunction hname (hlength ▸ hop)
  · trivial

end Shows

structure Context.PiecesShow (c : Context) (P : Names → Tree → Prop) : Prop where
  expression (before stop : Nat) (scope : Scope) (ambient : Ambient) : scope.pending = c.scope.pending →
    Always (fun _ => True) (c.piece before stop scope ambient) (Tree.Throughout P scope.names)
  block (before stop : Nat) (scope : Scope) : scope.pending = c.scope.pending →
    Always (fun _ => True) (c.blockPiece before stop scope) fun r => r.1.Throughout P scope.names

section Expression
variable {c : Context} (hp : c.PiecesShow P)
include hp

private theorem square_shows (start closing : Nat) (base : Option Nat) (stop : Nat) :
    Always (fun _ => True) (square c c.piece start closing base stop) (Tree.Throughout P c.scope.names) := by
  unfold square
  cases base with
  | none => exact hp.expression _ _ _ _ rfl
  | some first =>
    refine (hp.expression _ _ _ _ rfl).bind fun t _ => ?_
    exact (Keeps.returned _).bind fun _ _ => hp.expression _ _ _ _ rfl

variable (h : Shows c.env c.scope.pending P)
include h

private theorem call_shows (start opening stop : Nat) :
    Always (fun _ => True) (call c c.piece start opening stop) (Tree.Throughout P c.scope.names) := by
  unfold call
  refine (Keeps.lift (h.callee_shows rfl _ _ _)).bind fun callee hcallee => ?_
  refine (Keeps.mapM fun p _ => hp.expression p.1 p.2 _ _ rfl).bind fun args hargs => .pure ?_
  exact hcallee args hargs.1 hargs.2

private theorem cell_shows (place : Option (Nat × Nat)) :
    Always (fun _ => True) (cell c c.piece place) (Tree.Throughout P c.scope.names) := by
  cases place with
  | none => exact .pure (h.number _ _)
  | some place => exact .ite (fun _ => .pure (h.number _ _)) fun _ => hp.expression _ _ _ _ rfl

private theorem vector_shows (before stop : Nat) :
    Always (fun _ => True) (vector c c.piece before stop) (Tree.Throughout P c.scope.names) := by
  unfold vector
  refine (Keeps.mapM fun row _ => Keeps.mapM fun x _ => cell_shows hp h row[x]?).bind fun cells hcells => .pure ?_
  have hrows := cellPieces_ne_nil c before stop
  obtain ⟨⟨row, hrow, hwidth⟩, -⟩ := widest_row hrows
  refine ⟨h.vector _ _ ?_ (List.length_pos_iff.mpr hrows), Tree.allThroughout_iff.mpr fun t ht => ?_⟩
  · rw [← hwidth]
    exact List.length_pos_iff.mpr (ne_nil_of_mem_cellPieces hrow)
  · obtain ⟨row, hrow, ht⟩ := List.mem_flatten.mp ht
    exact (hcells.2 row hrow).2 t ht

private theorem lambda_shows (start arrow : Nat) (braced : Bool) (stop : Nat) :
    Always (fun _ => True) (lambda c c.piece c.blockPiece start arrow braced stop) (Tree.Throughout P c.scope.names) := by
  unfold lambda
  have hparams : Ends (fun _ => True) (readParams (c.offset + start) (Text.slice c.text start arrow))
      fun params => (∀ param ∈ params, param.Nameable) ∧ params.Nodup :=
    readParams_has ⟨nofun, List.nodup_nil⟩ (fun params name hparams hidentifier hkeyword hfresh => by
      refine ⟨fun param hparam => ?_, List.concat_eq_append ▸ List.Nodup.concat hfresh hparams.2⟩
      rcases List.mem_append.mp hparam with hparam | hparam
      · exact hparams.1 param hparam
      · exact List.mem_singleton.mp hparam ▸ ⟨Text.isName_of_isIdentifier hidentifier, hkeyword⟩) trivial
      (fun _ => trivial) _
  refine (Keeps.lift hparams).bind fun params hparams => ?_
  have hfunction (body : Block) (hbody : body.Throughout P (Scope.lambda params c.scope).names) :
      Always (fun _ => True) (do return Tree.function { label := ← freshLabel, params, body } c.scope.captureWidth)
        (Tree.Throughout P c.scope.names) := by
    refine freshLabel_always.bind fun label _ => .pure ⟨h.function _ _ hparams.1 hparams.2, ?_⟩
    rw [Render.lambda_names]
    exact hbody
  cases braced with
  | true => exact (Keeps.map (hp.block _ _ (.lambda params c.scope) rfl)).bind hfunction
  | false =>
    have hbody := hp.expression (arrow + 1) stop (.lambda params c.scope) { base := c.ambient.base } rfl
    exact (Keeps.map (hbody.mono fun t ht => ⟨ht, trivial⟩)).bind hfunction

private theorem operand_shows {s : Section} (hs : s ∈ Section.ofText c.ambient.base false 0 c.text)
    (hb : s.broken = false) :
    Always (fun _ => True) (operand c c.piece c.blockPiece s) (Tree.Throughout P c.scope.names) := by
  unfold operand
  simp only
  split
  · split
    · exact .pure (h.number _ _)
    · exact .throw trivial
  · exact .lift (h.resolve_shows rfl _ _ _)
  · exact call_shows hp h _ _ _
  · exact hp.expression _ _ _ _ rfl
  · exact square_shows hp _ _ _ _
  · exact vector_shows hp h _ _
  · rename_i hkind
    exact .pure (h.string _ (Section.quote_notMem hs hb hkind))
  · exact lambda_shows hp h _ _ _ _
  · exact .throw trivial
  · exact .throw trivial

private theorem expression_shows :
    Always (fun _ => True) (expression c c.piece c.blockPiece) (Tree.Throughout P c.scope.names) :=
  expression_has (.of_forall fun _ => trivial) (h.operates c.scope.names) fun _ hs hb => operand_shows hp h hs hb

end Expression

structure BlockContext.PartsShow (c : BlockContext) (pending : Option Pending) (P : Names → Tree → Prop) : Prop where
  inScope : c.Scoped fun _ => True
  expression (start stop : Nat) (scope : Scope) : scope.pending = pending →
    Always (fun _ => True) (c.expression start stop scope) (Tree.Throughout P scope.names)
  block (before stop : Nat) (scope : Scope) : scope.pending = pending →
    Always (fun _ => True) (c.block before stop scope) fun r => r.1.Throughout P scope.names

/-- A statement has the property throughout, whatever else is declared behind it. -/
def Showing (P : Names → Tree → Prop) (scope : Scope) (r : Action × Scope) : Prop :=
  ∀ names : Names, names.Cover r.2 → r.1.Throughout P names scope.locals.length

section Statement
variable {c : BlockContext}

/-- In a block only the names in sight in front of it matter. -/
private theorem throughout_of_cover {b : Block} {scope scope' : Scope} {names : Names} (hb : b.Scoped scope scope')
    (hn : names.Cover scope) (h : b.Throughout P scope.names) : b.Throughout P names := by
  obtain ⟨list, locals, firstSlot, frameSize⟩ := b
  obtain ⟨last, ha, rfl, rfl, -, -⟩ := hb
  rw [Block.Throughout] at h ⊢
  rw [hn.block ha.extends]
  rwa [(Names.Cover.self scope).block ha.extends] at h

section
variable (hc : c.PartsShow pending P) {scope : Scope} (hs : scope.pending = pending)
include hc hs

private theorem body_shows : (code : Body) →
    Always (fun _ => True) (body c scope code) fun r => r.1.Scoped scope r.2 ∧ r.1.Throughout P scope.names
  | .missing _ | .unclosed _ => .throw trivial
  | .braced _ _ | .bare _ _ => (hc.inScope.block _ _ _).and (hc.block _ _ _ hs)

private theorem condition_shows : (head : Condition) →
    Always (fun _ => True) (condition c scope head) (Tree.Throughout P scope.names)
  | .noParenthesis _ _ | .unclosed _ => .throw trivial
  | .closed _ _ => hc.expression _ _ _ hs

private theorem assign_shows (name : Text) (start value stop : Nat) :
    Always (fun _ => True) (assign c scope name start value stop) (Showing P scope) := by
  unfold assign
  refine .ite (fun _ => .throw trivial) fun _ => (hc.expression _ _ _ hs).bind fun t ht => ?_
  have hshows {target : Target} {scope' : Scope} (he : scope.Extends scope') :
      Showing P scope (.assign target t, scope') := by
    intro names hn
    rw [Action.Throughout, (hn.of_extends he).upTo]
    exact ht
  split
  · exact .pure (hshows (.refl scope))
  · exact .pure (hshows (.refl scope))
  · exact .pure (hshows (.declare scope name))

private theorem conditional_shows (previous : Option Action) (loops : Bool) (head : Condition) (code : Body) :
    Always (fun _ => True) (statement c scope previous (.conditional loops head code)) (Showing P scope) := by
  unfold statement
  refine (condition_shows hc hs head).bind fun t ht => ?_
  have hinner : { scope with inLoop := scope.inLoop || loops }.pending = pending := hs
  refine (body_shows hc hinner code).bind fun r hr => .pure fun names hn => ?_
  obtain ⟨block, inner⟩ := r
  obtain ⟨hscoped, hblock⟩ := hr
  have hcover : names.Cover { scope with inLoop := scope.inLoop || loops } :=
    Names.Cover.of_extends (show names.Cover inner from ⟨hn.arguments, hn.locals⟩) hscoped.extends
  have hbody := throughout_of_cover hscoped hcover hblock
  have ht : t.Throughout P (names.upTo scope.locals.length) := by
    rw [Names.Cover.upTo (s := scope) ⟨hcover.arguments, hcover.locals⟩]
    exact ht
  cases loops with
  | true => exact ⟨ht, hbody⟩
  | false => exact ⟨ht, hbody⟩

end

private theorem jump_shows (scope : Scope) (leaves : Bool) (start rest stop : Nat) :
    Ends (fun _ => True) (jump c scope leaves start rest stop) fun a => Showing P scope (a, scope) := by
  unfold jump
  refine .ite (fun _ => trivial) fun _ => .ite (fun _ => ?_) fun _ => trivial
  cases leaves <;> exact fun _ _ => trivial

/-- A statement is parsed with the property throughout. -/
private theorem statement_shows (hc : c.PartsShow pending P) {scope : Scope} (hs : scope.pending = pending)
    (previous : Option Action) (s : Statement) (hread : s.AsRead) :
    Always (fun _ => True) (statement c scope previous s) fun r => Becomes scope previous s r ∧ Showing P scope r := by
  refine (statement_becomes (@Admits.of_forall {} _ fun _ => trivial) hc.inScope scope previous s hread).and ?_
  cases s with
  | expression start stop | giveBack start stop =>
    unfold statement
    refine (hc.expression _ _ _ hs).bind fun t ht => .pure fun names hn => ?_
    rw [Action.Throughout, Names.Cover.upTo hn]
    exact ht
  | jump leaves start rest stop =>
    unfold statement
    exact (Keeps.lift (jump_shows scope _ _ _ _)).bind fun a ha => .pure ha
  | assign name start value stop =>
    unfold statement
    exact assign_shows hc hs _ _ _ _
  | conditional loops head code => exact conditional_shows hc hs _ _ _ _
  | otherwise start code =>
    unfold statement
    refine .ite (fun _ => .throw trivial) fun _ => ?_
    refine (body_shows hc hs _).bind fun r hr => .pure fun names hn => ?_
    obtain ⟨hscoped, hblock⟩ := hr
    exact throughout_of_cover hscoped (hn.of_extends hscoped.extends) hblock
  | otherwiseIf start first alternative =>
    unfold statement
    refine .ite (fun _ => .throw trivial) fun _ => ?_
    have hif : first.isIf := by
      cases alternative with
      | none => exact hread
      | some second => exact hread.1
    obtain ⟨head, code, rfl⟩ := Statement.eq_conditional hif
    have hfirst := (conditional_becomes (@Admits.of_forall {} _ fun _ => trivial) hc.inScope scope none false head code).and
      (conditional_shows hc hs none false head code)
    refine hfirst.bind fun r hr => ?_
    obtain ⟨action, next⟩ := r
    obtain ⟨hbecomes, hshows⟩ := hr
    obtain ⟨condition, block, rfl⟩ := hbecomes.isIf rfl
    have hscoped := hbecomes.inScope.2
    have hlocals : next.locals = scope.locals := hscoped.locals_eq
    have hcover : scope.names.Cover next := ⟨hscoped.extends.params.symm, hlocals ▸ List.prefix_refl _⟩
    -- behind an `else` without braces the names are those in front of it
    have hinside {names : Names} (hn : names.Cover scope) : names.block scope.locals.length [] = scope.names := by
      rw [← hn.block (.refl scope), List.drop_length]
    cases alternative with
    | none =>
      refine .pure fun names hn => ?_
      rw [Action.Throughout, Block.Throughout, hinside (hn.of_extends hscoped.extends)]
      exact ⟨hshows _ hcover, trivial⟩
    | some second =>
      have hpending : next.pending = pending := hscoped.extends.pending.trans hs
      refine (statement_shows hc hpending (some (.when condition block)) second hread.2.2).bind fun r' hr' => ?_
      obtain ⟨other, last⟩ := r'
      obtain ⟨hbecomes', hshows'⟩ := hr'
      obtain ⟨alternative, rfl⟩ := hbecomes'.isElse hread.2.1
      have hscoped' := hbecomes'.inScope.2
      have hcover' : scope.names.Cover last :=
        ⟨(hscoped'.extends.params.trans hscoped.extends.params).symm, by
          rw [hscoped'.locals_eq, hlocals]
          exact List.prefix_refl _⟩
      refine .pure fun names hn => ?_
      rw [Action.Throughout, Block.Throughout,
        hinside ((hn.of_extends hscoped'.extends).of_extends hscoped.extends)]
      have hother := hshows' _ hcover'
      rw [hlocals] at hother
      exact ⟨hshows _ hcover, hother, trivial⟩

private theorem statements_shows (hc : c.PartsShow pending P) {scope : Scope} (hs : scope.pending = pending)
    (done : List Action) (rest : List (Nat × Statement)) (hread : ∀ s ∈ rest, s.2.AsRead) :
    Always (fun _ => True) (statements c scope done rest) fun r =>
      ∃ list, r.1 = done.reverse ++ list ∧ Action.AllScoped scope done.head? list r.2 ∧
        ∀ names : Names, names.Cover r.2 → Action.AllThroughout P names scope.locals.length list := by
  induction rest generalizing scope done with
  | nil => exact .pure ⟨[], (List.append_nil _).symm, rfl, fun _ _ => trivial⟩
  | cons s rest ih =>
    obtain ⟨hfirst, hothers⟩ := List.forall_mem_cons.mp hread
    unfold statements
    refine .ite (fun _ => .throw trivial) fun hg => ?_
    refine (statement_shows hc hs _ _ hfirst).bind fun r hr => ?_
    obtain ⟨action, next⟩ := r
    obtain ⟨hbecomes, hshows⟩ := hr
    have hscoped := hbecomes.inScope
    refine (ih (hscoped.extends.pending.trans hs) (action :: done) hothers).mono fun r hlist => ?_
    obtain ⟨list, hr, hall, hlist⟩ := hlist
    refine ⟨action :: list, by simp [hr], ⟨by simpa using hg, next, hscoped, hall⟩, fun names hn => ?_⟩
    refine ⟨hshows names (hn.of_extends hall.extends), ?_⟩
    rw [hscoped.visible]
    exact hlist names hn

private theorem block_shows (hc : c.PartsShow pending P) {scope : Scope} (hs : scope.pending = pending) :
    Always (fun _ => True) (block c scope) fun r => r.1.Throughout P scope.names := by
  unfold block
  refine (statements_shows hc hs [] _ (Statement.readAll_asRead 0 c.text)).bind fun r hlist => .pure ?_
  obtain ⟨list, hr, hall, hlist⟩ := hlist
  obtain ⟨actions, last⟩ := r
  obtain rfl : actions = list := hr
  show Action.AllThroughout P _ _ _
  rw [(Names.Cover.self scope).block hall.extends]
  exact hlist last.names (.self last)

end Statement
end Parse

section
variable {env : Environment} {pending : Option Pending} {P : Names → Tree → Prop}

mutual

/-- Whatever holds of the nodes that the parser makes holds throughout an expression. -/
theorem parseExpression_shows (h : Parse.Shows env pending P) (t : Text) (offset : Nat) {scope : Scope}
    (hs : scope.pending = pending) (ambient : Ambient) :
    Always (fun _ => True) (parseExpression env t offset scope ambient) (Tree.Throughout P scope.names) := by
  by_cases hnil : t = []
  · rw [parseExpression, dif_pos hnil]
    exact .throw trivial
  · let c : Parse.Context := { env, scope, ambient, text := t, offset }
    rw [parseExpression_eq c]
    refine Parse.expression_shows ⟨fun before stop scope ambient hscope => ?_, fun before stop scope hscope => ?_⟩ (hs ▸ h)
    · exact parseExpression_shows h _ _ (hscope.trans hs) ambient
    · exact parseBlock_shows h _ _ (hscope.trans hs)
termination_by (t.length, 0)
decreasing_by all_goals exact Prod.Lex.left _ _ (Text.length_slice_lt _ (Nat.succ_pos _) hnil)

/-- Whatever holds of the nodes that the parser makes holds throughout a block. -/
theorem parseBlock_shows (h : Parse.Shows env pending P) (t : Text) (offset : Nat) {scope : Scope}
    (hs : scope.pending = pending) :
    Always (fun _ => True) (parseBlock env t offset scope) fun r => r.1.Throughout P scope.names := by
  by_cases hnil : t = []
  · rw [parseBlock, dif_pos hnil]
    exact .pure trivial
  · rw [parseBlock_eq]
    refine Parse.block_shows ⟨⟨fun start stop scope => ?_, fun before stop scope => ?_⟩, fun start stop scope hscope => ?_,
      fun before stop scope hscope => ?_⟩ hs
    · exact parseExpression_scoped (@Parse.Admits.of_forall env _ fun _ => trivial) _ _ scope _
    · exact parseBlock_scoped (@Parse.Admits.of_forall env _ fun _ => trivial) _ _ scope
    · exact parseExpression_shows h _ _ hscope {}
    · exact parseBlock_shows h _ _ hscope
termination_by (t.length, 1)
decreasing_by
  · rcases Nat.lt_or_eq_of_le (Text.length_slice_le t start stop) with h | h
    · exact Prod.Lex.left _ _ h
    · rw [h]
      exact Prod.Lex.right _ (by decide)
  · exact Prod.Lex.left _ _ (Text.length_slice_lt _ (Nat.succ_pos _) hnil)

end

end
end Reckoner
