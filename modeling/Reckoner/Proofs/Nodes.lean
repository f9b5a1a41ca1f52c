import Reckoner.Proofs.Pieces
import Reckoner.Proofs.Scoping.Statement
import Reckoner.Session

/-! The nodes of trees and blocks. Whatever holds of the nodes that the parser makes one by one holds of every node,
however deep, of what it builds. -/
namespace Reckoner

section
variable (N : Tree → Prop)

mutual

/-- The property holds of every node of the tree, also in the bodies of anonymous functions. -/
def Tree.Each : Tree → Prop
  | .literal v => N (.literal v)
  | .builtin op args => N (.builtin op args) ∧ Tree.AllEach args
  | .call id args => N (.call id args) ∧ Tree.AllEach args
  | .argument index => N (.argument index)
  | .localVariable slot => N (.localVariable slot)
  | .globalVariable slot => N (.globalVariable slot)
  | .vector width height cells => N (.vector width height cells) ∧ Tree.AllEach cells
  | .function ⟨label, params, body⟩ width => N (.function ⟨label, params, body⟩ width) ∧ Block.Each body

def Tree.AllEach : List Tree → Prop
  | [] => True
  | t :: ts => Tree.Each t ∧ Tree.AllEach ts

def Action.Each : Action → Prop
  | .compute t | .giveBack t | .assign _ t => Tree.Each t
  | .when condition body | .loop condition body => Tree.Each condition ∧ Block.Each body
  | .otherwise body => Block.Each body
  | .leaveLoop | .nextRound => True

def Action.AllEach : List Action → Prop
  | [] => True
  | a :: rest => Action.Each a ∧ Action.AllEach rest

def Block.Each : Block → Prop
  | ⟨actions, _, _, _⟩ => Action.AllEach actions

end

end

section
variable {N : Tree → Prop}

private theorem Tree.allEach_iff {ts : List Tree} : Tree.AllEach N ts ↔ ∀ t ∈ ts, t.Each N := by
  induction ts with
  | nil => simp [Tree.AllEach]
  | cons t ts ih => simp [Tree.AllEach, ih]

private theorem Action.allEach_iff {list : List Action} : Action.AllEach N list ↔ ∀ a ∈ list, a.Each N := by
  induction list with
  | nil => simp [Action.AllEach]
  | cons a list ih => simp [Action.AllEach, ih]

private theorem Block.returning_each {t : Tree} (h : t.Each N) : (Block.returning t).Each N := ⟨h, trivial⟩

end

namespace Parse

/-- What a cell of a vector becomes: zero if it is missing or blank, else what its text is parsed into. -/
def Context.FillsCell (c : Context) (place : Option (Nat × Nat)) (t : Tree) : Prop :=
  match place with
  | none => t = .number .zero
  | some (before, stop) =>
    if (Text.trim (Text.slice c.text (before + 1) stop)).isEmpty then t = .number .zero
    else ∃ supply, ((c.piece before stop c.scope c.ambient).run.run supply).1 = .ok t

/-- The cells stand row after row as they are written between the byte `before` and the byte `stop`; each row is as
wide as the widest one. -/
structure Context.LaysOut (c : Context) (before stop width height : Nat) (cells : List Tree) : Prop where
  rows : (cellPieces c before stop).length = height
  length : cells.length = width * height
  widest : ∃ row ∈ cellPieces c before stop, row.length = width
  within : ∀ row ∈ cellPieces c before stop, row.length ≤ width
  cell (y : Nat) (row : List (Nat × Nat)) (x : Nat) : (cellPieces c before stop)[y]? = some row → x < width →
    ∃ t, cells[y * width + x]? = some t ∧ c.FillsCell row[x]? t

/-- What holds of the nodes that the parser makes: of literals, operators, slots and functions of every kind, of calls
of the functions and of the global variables that names are found to be, and of the vectors written in the input. -/
structure Makes (env : Environment) (pending : Option Pending) (input : Text) (N : Tree → Prop) : Prop where
  literal (v : Value) : v.kind ≠ .function → N (.literal v)
  builtin (op : Builtin) (args : List Tree) : op.arity.accepts args.length → N (.builtin op args)
  call (name : Text) (id : Nat) (args : List Tree) :
    Scope.function? { pending } env name = some (id, args.length) → N (.call id args)
  argument (index : Nat) : N (.argument index)
  localVariable (slot : Nat) : N (.localVariable slot)
  globalVariable (name : Text) (slot : Nat) : env.globals.lookup name = some slot → N (.globalVariable slot)
  vector (c : Context) (s : Section) (width height : Nat) (cells : List Tree) : c.env = env → c.text <:+: input →
    s ∈ Section.ofText c.ambient.base false 0 c.text → s.kind = .vector → s.broken = false →
    c.LaysOut s.start (s.stop - 1) width height cells → N (.vector width height cells)
  function (f : Lambda) (width : Nat) : N (.function f width)

variable {env : Environment} {pending : Option Pending} {input : Text} {N : Tree → Prop}

namespace Makes
variable (h : Makes env pending input N)
include h

private theorem number (n : Number) : (Tree.number n).Each N := h.literal _ nofun

private theorem composes : Tree.Composes (Tree.Each N) where
  number := h.number
  builtin hop hargs := ⟨h.builtin _ _ hop, Tree.allEach_iff.mpr hargs⟩

private theorem slot? {s : Scope} {name : Text} {t : Tree} (ht : s.slot? env name = some t) : t.Each N := by
  simp only [Scope.slot?, Option.orElse_eq_orElse, Option.orElse_eq_or, Option.or_eq_some_iff,
    Option.map_eq_some_iff] at ht
  rcases ht with ⟨index, -, rfl⟩ | ⟨-, ⟨slot, -, rfl⟩ | ⟨-, slot, hslot, rfl⟩⟩
  · exact h.argument index
  · exact h.localVariable slot
  · exact h.globalVariable name slot hslot

private theorem resolve {s : Scope} (hs : s.pending = pending) (ambient : Ambient) (name : Text) (position : Nat) :
    Ends (fun _ => True) (s.resolve env ambient name position) (Tree.Each N) := by
  subst hs
  unfold Scope.resolve
  simp only
  split
  · rename_i t ht
    simp only [Option.orElse_eq_orElse, Option.orElse_eq_or, Option.or_eq_some_iff] at ht
    rcases ht with ht | ⟨-, ht | ⟨-, ht | ⟨-, ht⟩⟩⟩
    · split at ht
      · obtain ⟨m, -, rfl⟩ := Option.map_eq_some_iff.mp ht
        exact h.number _
      · exact nomatch ht
    · exact h.slot? ht
    · split at ht
      · rename_i id hid
        obtain rfl := Option.some.inj ht
        exact ⟨h.call name id [] hid, trivial⟩
      · exact nomatch ht
    · obtain ⟨n, -, rfl⟩ := Option.map_eq_some_iff.mp ht
      exact h.number n
  · trivial

/-- A call is a node that is made of what the name in front of it is found to be. -/
private theorem callee {s : Scope} (hs : s.pending = pending) (name : Text) (count position : Nat) :
    Ends (fun _ => True) (s.callee env name count position) fun callee =>
      ∀ args : List Tree, args.length = count → (∀ t ∈ args, t.Each N) → (callee.apply args).Each N := by
  subst hs
  unfold Scope.callee
  split
  · rename_i t _ _ ht
    refine fun args _ hargs => ⟨h.builtin _ _ rfl, h.slot? ht, Tree.allEach_iff.mpr hargs⟩
  · rename_i id arity _ hid
    refine .ite (fun harity args hlength hargs => ⟨?_, Tree.allEach_iff.mpr hargs⟩) fun _ => trivial
    refine h.call name id args ?_
    rw [hlength, ← harity]
    exact hid
  · refine .ite (fun hop args hlength hargs => ?_) fun _ => trivial
    exact ⟨h.builtin _ _ (hlength ▸ hop), Tree.allEach_iff.mpr hargs⟩
  · trivial

end Makes

structure Context.PiecesEach (c : Context) (N : Tree → Prop) : Prop where
  expression (before stop : Nat) (scope : Scope) (ambient : Ambient) : scope.pending = c.scope.pending →
    Always (fun _ => True) (c.piece before stop scope ambient) (Tree.Each N)
  block (before stop : Nat) (scope : Scope) : scope.pending = c.scope.pending →
    Always (fun _ => True) (c.blockPiece before stop scope) fun r => r.1.Each N ∧ r.2.pending = c.scope.pending

section Expression
variable {c : Context}

private theorem splitOutside_ne_nil (base : Nat) (separator : Token) (t : Text) :
    Text.splitOutside base separator t ≠ [] := by
  have hsplit (n : Nesting) (limit start : Nat) (ls : List Lexeme) : n.split separator limit start ls ≠ [] := by
    induction ls generalizing n start with
    | nil => exact List.cons_ne_nil _ _
    | cons l ls ih =>
      rw [Nesting.split]
      split
      · exact List.cons_ne_nil _ _
      · exact ih _ _
  exact hsplit _ _ _ _

theorem cellPieces_ne_nil (c : Context) (before stop : Nat) : cellPieces c before stop ≠ [] :=
  List.map_eq_nil_iff.not.mpr (splitOutside_ne_nil _ _ _)

/-- Each row of a vector has a cell. -/
theorem ne_nil_of_mem_cellPieces {before stop : Nat} {row : List (Nat × Nat)} (h : row ∈ cellPieces c before stop) :
    row ≠ [] := by
  obtain ⟨p, -, rfl⟩ := List.mem_map.mp h
  exact List.map_eq_nil_iff.not.mpr (splitOutside_ne_nil _ _ _)

/-- Rows of one width stand one behind the other. -/
private theorem getElem?_flatten {α : Type} {rows : List (List α)} {width : Nat} (h : ∀ row ∈ rows, row.length = width)
    {y x : Nat} (hx : x < width) {row : List α} (hrow : rows[y]? = some row) :
    rows.flatten[y * width + x]? = row[x]? := by
  induction rows generalizing y with
  | nil => exact nomatch hrow
  | cons first rows ih =>
    obtain ⟨hfirst, hrows⟩ := List.forall_mem_cons.mp h
    rw [List.flatten_cons]
    cases y with
    | zero =>
      obtain rfl := Option.some.inj hrow
      rw [Nat.zero_mul, Nat.zero_add, List.getElem?_append_left (by omega)]
    | succ y =>
      rw [Nat.succ_mul, List.getElem?_append_right (by omega)]
      rw [show y * width + width + x - first.length = y * width + x by omega]
      exact ih hrows hrow

private theorem cell_fills (h : c.PiecesEach N) (hzero : (Tree.number .zero).Each N) (place : Option (Nat × Nat)) :
    Always (fun _ => True) (cell c c.piece place) fun t => c.FillsCell place t ∧ t.Each N := by
  cases place with
  | none => exact .pure ⟨rfl, hzero⟩
  | some place =>
    obtain ⟨before, stop⟩ := place
    simp only [cell, Context.FillsCell]
    refine .ite (fun hblank => .pure ?_) fun hblank => ?_
    · rw [if_pos hblank]
      exact ⟨rfl, hzero⟩
    · simp only [if_neg hblank]
      exact (Keeps.returned _).and (h.expression before stop _ _ rfl)

/-- What stands at a place of one of two lists has a partner at that place of the other. -/
private theorem lookup_forall₂ {α β : Type} {R : α → β → Prop} {as : List α} {bs : List β} (h : List.Forall₂ R as bs)
    {i : Nat}
    {a : α} (ha : as[i]? = some a) : ∃ b, bs[i]? = some b ∧ R a b := by
  induction h generalizing i with
  | nil => exact nomatch ha
  | cons hfirst _ ih =>
    cases i with
    | zero => exact ⟨_, rfl, Option.some.inj ha ▸ hfirst⟩
    | succ i => exact ih ha

/-- The width of a vector is that of its widest row. -/
theorem widest_row {rows : List (List (Nat × Nat))} (h : rows ≠ []) :
    (∃ row ∈ rows, row.length = (rows.map List.length).max?.getD 1) ∧
      ∀ row ∈ rows, row.length ≤ (rows.map List.length).max?.getD 1 := by
  cases hmax : (rows.map List.length).max? with
  | none => exact absurd (List.map_eq_nil_iff.mp (List.max?_eq_none_iff.mp hmax)) h
  | some width =>
    obtain ⟨hmem, hle⟩ := List.max?_eq_some_iff.mp hmax
    obtain ⟨row, hrow, hwidth⟩ := List.mem_map.mp hmem
    exact ⟨⟨row, hrow, hwidth⟩, fun row hrow => hle _ (List.mem_map_of_mem hrow)⟩

/-- A vector is laid out as it is written, and its cells are the trees that its pieces are parsed into. -/
private theorem vector_laysOut (h : c.PiecesEach N) (hzero : (Tree.number .zero).Each N) (before stop : Nat) :
    Always (fun _ => True) (vector c c.piece before stop) fun t => ∃ width height cells,
      t = .vector width height cells ∧ c.LaysOut before stop width height cells ∧ ∀ t ∈ cells, t.Each N := by
  unfold vector
  obtain ⟨hwidest, hwithin⟩ := widest_row (cellPieces_ne_nil c before stop)
  have hlines (width : Nat) := Keeps.mapM_forall₂ fun row (_ : row ∈ cellPieces c before stop) =>
    Keeps.mapM_forall₂ fun x (_ : x ∈ List.range width) => cell_fills h hzero row[x]?
  refine (hlines _).bind fun lines hlines => .pure ?_
  have hwide : ∀ line ∈ lines, line.length = ((cellPieces c before stop).map List.length).max?.getD 1 := by
    intro line hline
    obtain ⟨y, hy⟩ := List.mem_iff_getElem?.mp hline
    obtain ⟨row, -, hcells⟩ := lookup_forall₂ hlines.flip hy
    rw [← hcells.length_eq, List.length_range]
  refine ⟨_, _, _, rfl, ⟨rfl, ?_, hwidest, hwithin, fun y row x hrow hx => ?_⟩, fun t ht => ?_⟩
  · rw [length_flatten_of_forall hwide, hlines.length_eq]
  · obtain ⟨line, hline, hcells⟩ := lookup_forall₂ hlines hrow
    obtain ⟨t, ht, hfills, -⟩ := lookup_forall₂ hcells (List.getElem?_range hx)
    exact ⟨t, (getElem?_flatten hwide hx hline).trans ht, hfills⟩
  · obtain ⟨line, hline, ht⟩ := List.mem_flatten.mp ht
    obtain ⟨y, hy⟩ := List.mem_iff_getElem?.mp hline
    obtain ⟨x, hx⟩ := List.mem_iff_getElem?.mp ht
    obtain ⟨row, -, hcells⟩ := lookup_forall₂ hlines.flip hy
    obtain ⟨-, -, -, hnodes⟩ := lookup_forall₂ hcells.flip hx
    exact hnodes

section
variable (hp : c.PiecesEach N)
include hp

private theorem square_each (start closing : Nat) (base : Option Nat) (stop : Nat) :
    Always (fun _ => True) (square c c.piece start closing base stop) (Tree.Each N) := by
  unfold square
  cases base with
  | none => exact hp.expression _ _ _ _ rfl
  | some first =>
    refine (hp.expression _ _ _ _ rfl).bind fun t _ => ?_
    exact (Keeps.returned _).bind fun _ _ => hp.expression _ _ _ _ rfl

variable (h : Makes c.env c.scope.pending input N)
include h

private theorem call_each (start opening stop : Nat) :
    Always (fun _ => True) (call c c.piece start opening stop) (Tree.Each N) := by
  unfold call
  refine (Keeps.lift (h.callee rfl _ _ _)).bind fun callee hcallee => ?_
  refine (Keeps.mapM fun p _ => hp.expression p.1 p.2 _ _ rfl).bind fun args hargs => .pure ?_
  exact hcallee args hargs.1 hargs.2

private theorem lambda_each (start arrow : Nat) (braced : Bool) (stop : Nat) :
    Always (fun _ => True) (lambda c c.piece c.blockPiece start arrow braced stop) (Tree.Each N) := by
  unfold lambda
  refine (Keeps.returned _).bind fun params _ => ?_
  have hfunction (body : Block) (hbody : body.Each N) :
      Always (fun _ => True) (do return Tree.function { label := ← freshLabel, params, body } c.scope.captureWidth)
        (Tree.Each N) :=
    freshLabel_always.bind fun label _ => .pure ⟨h.function _ _, hbody⟩
  cases braced with
  | true => exact (Keeps.map ((hp.block _ _ (.lambda params c.scope) rfl).mono fun r hr => hr.1)).bind hfunction
  | false =>
    have hbody := hp.expression (arrow + 1) stop (.lambda params c.scope) { base := c.ambient.base } rfl
    exact (Keeps.map (hbody.mono fun t => Block.returning_each)).bind hfunction

/-- A section of the text, which is a part of the input. -/
private theorem operand_each (hinput : c.text <:+: input) {s : Section}
    (hs : s ∈ Section.ofText c.ambient.base false 0 c.text) (hb : s.broken = false) :
    Always (fun _ => True) (operand c c.piece c.blockPiece s) (Tree.Each N) := by
  unfold operand
  simp only
  split
  · split
    · exact .pure (h.number _)
    · exact .throw trivial
  · exact .lift (h.resolve rfl _ _ _)
  · exact call_each hp h _ _ _
  · exact hp.expression _ _ _ _ rfl
  · exact square_each hp _ _ _ _
  · rename_i hkind
    refine (vector_laysOut hp (h.number _) _ _).mono ?_
    rintro t ⟨width, height, cells, rfl, hlaid, hcells⟩
    exact ⟨h.vector c s width height cells rfl hinput hs hkind hb hlaid, Tree.allEach_iff.mpr hcells⟩
  · exact .pure (h.literal _ nofun)
  · exact lambda_each hp h _ _ _ _
  · exact .throw trivial
  · exact .throw trivial

private theorem expression_each (hinput : c.text <:+: input) :
    Always (fun _ => True) (expression c c.piece c.blockPiece) (Tree.Each N) :=
  expression_has (.of_forall fun _ => trivial) h.composes.operates fun _ hs hb => operand_each hp h hinput hs hb

end
end Expression

section Statement
variable {c : BlockContext}

structure BlockContext.PartsEach (c : BlockContext) (pending : Option Pending) (N : Tree → Prop) : Prop where
  expression (start stop : Nat) (scope : Scope) : scope.pending = pending →
    Always (fun _ => True) (c.expression start stop scope) (Tree.Each N)
  block (before stop : Nat) (scope : Scope) : scope.pending = pending →
    Always (fun _ => True) (c.block before stop scope) fun r => r.1.Each N ∧ r.2.pending = pending

private theorem jump_each (scope : Scope) (leaves : Bool) (start rest stop : Nat) :
    Ends (fun _ => True) (jump c scope leaves start rest stop) (Action.Each N) := by
  unfold jump
  refine .ite (fun _ => trivial) fun _ => .ite (fun _ => ?_) fun _ => trivial
  cases leaves <;> trivial

section
variable (hc : c.PartsEach pending N) {scope : Scope} (hs : scope.pending = pending)
include hc hs

private theorem body_each : (code : Body) →
    Always (fun _ => True) (body c scope code) fun r => r.1.Each N ∧ r.2.pending = pending
  | .missing _ | .unclosed _ => .throw trivial
  | .braced _ _ | .bare _ _ => hc.block _ _ _ hs

private theorem condition_each : (head : Condition) →
    Always (fun _ => True) (condition c scope head) (Tree.Each N)
  | .noParenthesis _ _ | .unclosed _ => .throw trivial
  | .closed _ _ => hc.expression _ _ _ hs

private theorem assign_each (name : Text) (start value stop : Nat) :
    Always (fun _ => True) (assign c scope name start value stop) fun r => r.1.Each N ∧ r.2.pending = pending := by
  unfold assign
  refine .ite (fun _ => .throw trivial) fun _ => (hc.expression _ _ _ hs).bind fun t ht => ?_
  split <;> exact .pure ⟨ht, hs⟩

end

private theorem statement_each (hc : c.PartsEach pending N) {scope : Scope} (hs : scope.pending = pending)
    (previous : Option Action) (s : Statement) :
    Always (fun _ => True) (statement c scope previous s) fun r => r.1.Each N ∧ r.2.pending = pending := by
  cases s with
  | expression start stop | giveBack start stop =>
    unfold statement
    exact (hc.expression _ _ _ hs).bind fun t ht => .pure ⟨ht, hs⟩
  | jump leaves start rest stop =>
    unfold statement
    exact (Keeps.lift (jump_each scope _ _ _ _)).bind fun a ha => .pure ⟨ha, hs⟩
  | assign name start value stop =>
    unfold statement
    exact assign_each hc hs _ _ _ _
  | conditional loops head code =>
    unfold statement
    refine (condition_each hc hs _).bind fun t ht => ?_
    have hinner : { scope with inLoop := scope.inLoop || loops }.pending = pending := hs
    refine (body_each hc hinner _).bind fun r hr => .pure ?_
    cases loops <;> exact ⟨⟨ht, hr.1⟩, hr.2⟩
  | otherwise start code =>
    unfold statement
    refine .ite (fun _ => .throw trivial) fun _ => ?_
    exact (body_each hc hs _).bind fun r hr => .pure hr
  | otherwiseIf start first alternative =>
    unfold statement
    refine .ite (fun _ => .throw trivial) fun _ => ?_
    refine (statement_each hc hs none first).bind fun r hr => ?_
    cases alternative with
    | none => exact .pure ⟨⟨hr.1, trivial⟩, hr.2⟩
    | some second =>
      refine (statement_each hc hr.2 (some r.1) second).bind fun r' hr' => ?_
      exact .pure ⟨⟨hr.1, hr'.1, trivial⟩, hr'.2⟩

private theorem statements_each (hc : c.PartsEach pending N) {scope : Scope} (hs : scope.pending = pending)
    {done : List Action} (hdone : ∀ a ∈ done, a.Each N) (rest : List (Nat × Statement)) :
    Always (fun _ => True) (statements c scope done rest) fun r => Action.AllEach N r.1 ∧ r.2.pending = pending := by
  induction rest generalizing scope done with
  | nil => exact .pure ⟨Action.allEach_iff.mpr (by simpa using hdone), hs⟩
  | cons s rest ih =>
    unfold statements
    refine .ite (fun _ => .throw trivial) fun _ => ?_
    refine (statement_each hc hs _ _).bind fun r hr => ?_
    exact ih hr.2 (List.forall_mem_cons.mpr ⟨hr.1, hdone⟩)

private theorem block_each (hc : c.PartsEach pending N) {scope : Scope} (hs : scope.pending = pending) :
    Always (fun _ => True) (block c scope) fun r => r.1.Each N ∧ r.2.pending = pending := by
  unfold block
  have hnone : ∀ a ∈ [], Action.Each N a := nofun
  exact (statements_each hc hs hnone _).bind fun r hr => .pure hr

end Statement
end Parse

namespace Text

private theorem isPrefix_takeBytes (n : Nat) (t : Text) : takeBytes n t <+: t := by
  fun_induction takeBytes n t with
  | case1 => exact List.nil_prefix
  | case2 => exact List.nil_prefix
  | case3 n c t ih => exact List.cons_prefix_cons.mpr ⟨rfl, ih⟩

private theorem isSuffix_dropBytes (n : Nat) (t : Text) : dropBytes n t <:+ t := by
  fun_induction dropBytes n t with
  | case1 => exact List.suffix_refl _
  | case2 => exact List.suffix_refl _
  | case3 n c t ih => exact ih.trans (List.suffix_cons c t)

private theorem isInfix_slice (t : Text) (start stop : Nat) : slice t start stop <:+: t :=
  (isPrefix_takeBytes _ _).isInfix.trans (isSuffix_dropBytes start t).isInfix

end Text

section
variable {env : Environment} {pending : Option Pending} {input : Text} {N : Tree → Prop}

mutual

/-- Every node of an expression in the input is one that the parser makes of it. -/
theorem parseExpression_each (h : Parse.Makes env pending input N) (t : Text) (ht : t <:+: input) (offset : Nat)
    {scope : Scope} (hs : scope.pending = pending) (ambient : Ambient) :
    Always (fun _ => True) (parseExpression env t offset scope ambient) (Tree.Each N) := by
  by_cases hnil : t = []
  · rw [parseExpression, dif_pos hnil]
    exact .throw trivial
  · let c : Parse.Context := { env, scope, ambient, text := t, offset }
    rw [parseExpression_eq c]
    refine Parse.expression_each ⟨fun before stop scope ambient hscope => ?_, fun before stop scope hscope => ?_⟩
      (hs ▸ h) ht
    · exact parseExpression_each h _ ((Text.isInfix_slice ..).trans ht) _ (hscope.trans hs) ambient
    · refine (parseBlock_each h _ ((Text.isInfix_slice ..).trans ht) _ (hscope.trans hs)).mono fun r hr => ?_
      exact ⟨hr.1, hr.2.trans hs.symm⟩
termination_by (t.length, 0)
decreasing_by all_goals exact Prod.Lex.left _ _ (Text.length_slice_lt _ (Nat.succ_pos _) hnil)

/-- Every node of a block in the input is one that the parser makes of it. -/
private theorem parseBlock_each (h : Parse.Makes env pending input N) (t : Text) (ht : t <:+: input) (offset : Nat)
    {scope : Scope} (hs : scope.pending = pending) :
    Always (fun _ => True) (parseBlock env t offset scope) fun r => r.1.Each N ∧ r.2.pending = pending := by
  by_cases hnil : t = []
  · rw [parseBlock, dif_pos hnil]
    exact .pure ⟨trivial, hs⟩
  · rw [parseBlock_eq]
    refine Parse.block_each ⟨fun start stop scope hscope => ?_, fun before stop scope hscope => ?_⟩ hs
    · exact parseExpression_each h _ ((Text.isInfix_slice ..).trans ht) _ hscope {}
    · exact parseBlock_each h _ ((Text.isInfix_slice ..).trans ht) _ hscope
termination_by (t.length, 1)
decreasing_by
  · rcases Nat.lt_or_eq_of_le (Text.length_slice_le t start stop) with h | h
    · exact Prod.Lex.left _ _ h
    · rw [h]
      exact Prod.Lex.right _ (by decide)
  · exact Prod.Lex.left _ _ (Text.length_slice_lt _ (Nat.succ_pos _) hnil)

end

/-- Every node of the body of a function is one that the parser makes of it. -/
theorem Session.parseBody_each (h : Parse.Makes env pending input N) (params : List Text) (text : Text)
    (ht : text <:+: input) :
    Always (fun _ => True) (parseBody env (.function params pending) text) (Block.Each N) := by
  have htrimmed : Text.trimEnd text <:+: input := (Text.isPrefix_trimEnd text).isInfix.trans ht
  unfold parseBody
  refine .ite (fun _ => ?_) fun _ => ?_
  · exact Keeps.map ((parseBlock_each h _ ((Text.isInfix_slice ..).trans htrimmed) _ rfl).mono fun r hr => hr.1)
  · exact Keeps.map ((parseExpression_each h _ htrimmed _ rfl _).mono fun t => Block.returning_each)

end
end Reckoner
