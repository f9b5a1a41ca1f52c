import Reckoner.Proofs.Rendering.Heading
import Reckoner.Proofs.Rendering.Operands

/-! Expressions put together from operands, read again: a sign and its operand, two operands with an operator between
them, calls, vectors and anonymous functions are parsed to trees of what their parts are parsed to. -/
namespace Reckoner

open Nesting (level)
open Parse (Context)
open Render (parenthesized braced application)
open Text (byteLength listed places)

private theorem Tree.allUnlabelled_eq (ts : List Tree) : Tree.allUnlabelled ts = ts.map Tree.unlabelled := by
  induction ts with
  | nil => rfl
  | cons t ts ih => rw [Tree.allUnlabelled, ih, List.map_cons]

private theorem Flat.negate_unlabelled (t : Tree) : (Flat.negate t).unlabelled = Flat.negate t.unlabelled := by
  cases t with
  | literal v => cases v <;> rfl
  | function f width =>
    obtain ⟨label, params, body⟩ := f
    rfl
  | argument | localVariable | globalVariable | builtin | call | vector => rfl

/-- An operator between two operands is applied to them. -/
private theorem Flat.fold_pair {op : Builtin} (hop : op.isInfix) (t u : Tree) (position : Nat) :
    Flat.fold none [.operand t, .operator op position, .operand u] = .ok (.builtin op [t, u]) := by
  have hgrouped : Flat.Grouped ([.operand t] ++ .operator op position :: [.operand u])
      (.node op (.operand t) (.operand u)) :=
    .split hop (by simp [Flat.Binds]) (by simp [Flat.Binds]) (.run t []) (.run u [])
  exact hgrouped.fold none

private theorem Scope.Callee.apply_unlabelled (callee : Scope.Callee) {ts us : List Tree}
    (h : ts.map Tree.unlabelled = us.map Tree.unlabelled) :
    (callee.apply ts).unlabelled = (callee.apply us).unlabelled := by
  cases callee with
  | value | function | builtin => simp only [Scope.Callee.apply, Tree.unlabelled, Tree.allUnlabelled_eq, List.map_cons, h]

namespace Render
variable {n : Nat} {env : Environment} {s : Scope}

/-- The text is parsed as the tree, but for the labels of anonymous functions. -/
def Rereads (n : Nat) (env : Environment) (s : Scope) (v : Text) (t : Tree) : Prop :=
  Parse.Yields n (parseExpression env v 0 s {}) fun u => u.unlabelled = t.unlabelled

/-- Where an operand is expected the text is one section, which is parsed as the tree, but for the labels of anonymous
functions. -/
def Stands (n : Nat) (env : Environment) (s : Scope) (v : Text) (t : Tree) : Prop :=
  ∃ kind, v.IsOperand kind ∧ ∀ (c : Context) (start : Nat), c.env = env → c.scope = s → c.ambient = {} →
    c.text.At start v → Parse.Yields n
      (Parse.operand c c.piece c.blockPiece ⟨kind start, start, start + byteLength v, false⟩)
      fun u => u.unlabelled = t.unlabelled

namespace Rereads
variable {v : Text} {t : Tree}

theorem anywhere (h : Rereads n env s v t) (offset : Nat) :
    Parse.Yields n (parseExpression env v offset s {}) fun u => u.unlabelled = t.unlabelled :=
  .of_same (parseExpression_same env v offset 0 ⟨rfl, rfl, rfl⟩ {}) h

private theorem acceptable (h : Rereads n env s v t) : Parse.Acceptable 10 v :=
  of_yields h (parseExpression_acceptable env v 0 s {})

private theorem steady (h : Rereads n env s v t) : v.Steady false :=
  have hclosed : v.Closed := h.acceptable.closed .semicolon rfl
  hclosed.steady

theorem parenthesized (h : Rereads n env s v t) : Stands n env s (Render.parenthesized v) t := by
  refine ⟨_, .parenthesized h.steady, fun c start henv hs hambient hat => ?_⟩
  subst henv hs
  have hpiece : Parse.operand c c.piece c.blockPiece
      ⟨.parenthesis, start, start + byteLength (Render.parenthesized v), false⟩ =
        parseExpression c.env (Text.slice c.text (start + 1) (start + byteLength (Render.parenthesized v) - 1))
          (c.offset + start + 1) c.scope c.ambient := rfl
  have hinner := hat.between rfl rfl
  rw [hpiece, Render.parenthesized, hinner, hambient]
  exact h.anywhere _

end Rereads
end Render

namespace Section
variable {limit i j : Nat} {a : Bool} {token : Token} {kind : Nat → SectionKind} {v w : Text}

/-- An operator before an operand. -/
private theorem next_operator (ht : token.isOperator) (ha : token = .less → a = true) {rest : List Lexeme}
    (hrest : ∀ l ∈ rest.head?, continuesRun l = false) :
    next limit a (⟨token, i, j⟩ :: rest) = some (⟨.operators, i, j, false⟩, rest) := by
  have hrun : operators ⟨token, i, j⟩ rest = (⟨.operators, i, j, false⟩, rest) := by
    cases rest with
    | nil => rfl
    | cons l rest =>
      have hl : ¬continuesRun l := by rw [hrest l rfl]; decide
      rw [operators, List.takeWhile_cons_of_neg hl, List.dropWhile_cons_of_neg hl]
      rfl
  rw [← hrun]
  cases token <;> first | exact absurd ht (by decide) | rfl | simp only [next, ha rfl, if_true]

/-- The sections of one operand. -/
private theorem all_operand (hv : v.IsOperand kind) (limit i : Nat) :
    all limit false (Lexeme.lex 10 i v) = [⟨kind i, i, i + byteLength v, false⟩] := by
  have hnext := hv.next limit i [] nofun
  rw [List.append_nil] at hnext
  rw [all_next hnext, all_nil]

/-- The sections of an operator and the operand behind it. -/
private theorem all_operator (ht : token.isOperator) (ha : token = .less → a = true) (hv : v.IsOperand kind)
    (limit i : Nat) :
    all limit a (⟨token, i, j⟩ :: Lexeme.lex 10 j v) =
      [⟨.operators, i, j, false⟩, ⟨kind j, j, j + byteLength v, false⟩] := by
  have hrest : ∀ l ∈ (Lexeme.lex 10 j v).head?, continuesRun l = false := by
    intro l hl
    have hhead : l.token ∈ v.tokens.head? := by
      rw [← Text.tokens_eq j, List.head?_map, hl]
      rfl
    rw [continuesRun]
    rcases hv.head l.token hhead with h | h <;> rw [h] <;> rfl
  rw [all_next (next_operator ht ha hrest), ← all_operand hv limit j]
  rfl

end Section

namespace Parse
variable {c : Context} {piece : PieceParser} {blockPiece : BlockPieceParser} {kind : SectionKind} {i j n : Nat}
  {items : List Flat.Item} {leading : Option Nat}

private theorem step_operand (hk : kind ≠ .operators) :
    step c piece blockPiece ⟨items, false, leading⟩ ⟨kind, i, j, false⟩ = (do
      let t ← operand c piece blockPiece ⟨kind, i, j, false⟩
      return ⟨.operand t :: items, false, leading⟩) := by
  simp only [step, Bool.false_eq_true, if_false, if_neg hk]

/-- A minus in front of all is kept until the end. -/
private theorem step_minus (h : Text.slice c.text i j = ['-']) :
    step c piece blockPiece {} ⟨.operators, i, j, false⟩ = pure ⟨[], false, some (c.offset + i)⟩ := by
  have hrun : Flat.readRun ((Lexeme.lex 10 0 ['-']).map Lexeme.token) = some (.sub, false) := by
    rw [Lexeme.lex_alone (Lexeme.alone_of_mark (by decide)), Lexeme.lex]
    rfl
  simp only [step, Bool.false_eq_true, if_false, if_true, operators, h, hrun]
  rfl

end Parse

structure Builtin.Symbol (op : Builtin) (token : Token) : Prop where
  isOperator : token.isOperator
  lex {offset : Nat} {t : Text} : (∀ d ∈ t.head?, Text.Firm d) →
    Lexeme.lex 10 offset (op.name ++ t) =
      ⟨token, offset, offset + byteLength op.name⟩ :: Lexeme.lex 10 (offset + byteLength op.name) t
  stops (t : Text) : Text.Stops (op.name ++ t)
  equals {t : Text} : (op.name ++ t).head? = some '=' → op = .equal
  read : Flat.readRun [token] = some (op, false)

namespace Builtin
variable {op : Builtin} {token : Token} {c d : Char}

private theorem symbol_sign (hname : op.name = [c]) (hc : c ∈ ['+', '-', '*', '/', '%', '^', '<', '>'])
    (hoperator : (Lexeme.single c).isOperator) (hread : Flat.readRun [Lexeme.single c] = some (op, false)) :
    op.Symbol (Lexeme.single c) := by
  have hall : ∀ c ∈ ['+', '-', '*', '/', '%', '^', '<', '>'], c.utf8Size = 1 ∧ c ≠ '=' ∧
      c ∈ ['+', '-', '*', '/', '%', '^', '<', '>', '='] ∧ c ∈ Text.stops := Text.forall_of_all (by decide)
  obtain ⟨hsize, hequals, hsign, hstops⟩ := hall c hc
  refine ⟨hoperator, fun hfirm => ?_, fun t d hd => ?_, fun heq => ?_, hread⟩
  · have hpair := fun d hd => Lexeme.pair_eq_none (c := c) (hfirm d hd).equals (hfirm d hd).greater
    rw [hname, List.singleton_append, Lexeme.lex_sign hsign hpair, Text.byteLength_cons, hsize]
    rfl
  · rw [hname] at hd
    exact Option.some.inj hd ▸ hstops
  · rw [hname] at heq
    exact absurd (Option.some.inj heq) hequals

private theorem symbol_pair (hname : op.name = [c, d]) (hc : c ∈ ['=', '!', '<', '>'])
    (hpair : Lexeme.pair c d = some token)
    (hoperator : token.isOperator) (hread : Flat.readRun [token] = some (op, false))
    (hequals : c = '=' → op = .equal) : op.Symbol token := by
  have hall : ∀ c ∈ ['=', '!', '<', '>'], c ∈ Text.stops := Text.forall_of_all (by decide)
  refine ⟨hoperator, fun _ => ?_, fun t d hd => ?_, fun heq => ?_, hread⟩
  · rw [hname]
    exact Lexeme.lex_pair hpair hc _ _
  · rw [hname] at hd
    exact Option.some.inj hd ▸ hall c hc
  · rw [hname] at heq
    exact hequals (Option.some.inj heq)

private theorem exists_symbol (hop : op.isInfix) : ∃ token, op.Symbol token := by
  cases op <;> first
    | exact absurd hop (by decide)
    | exact ⟨_, symbol_sign rfl (by decide) rfl rfl⟩
    | exact ⟨_, symbol_pair rfl (by decide) rfl rfl rfl (by decide)⟩

private theorem Symbol.readRun (h : op.Symbol token) :
    Flat.readRun ((Lexeme.lex 10 0 op.name).map Lexeme.token) = some (op, false) := by
  have hlex : Lexeme.lex 10 0 (op.name ++ []) = _ := h.lex nofun
  rw [List.append_nil, Lexeme.lex] at hlex
  rw [hlex]
  exact h.read

end Builtin

namespace Render
variable {n : Nat} {env : Environment} {s : Scope} {v w : Text} {t u : Tree}

/-- How an expression is parsed that stands by itself. -/
theorem parseExpression_plain (env : Environment) (v : Text) (s : Scope) :
    parseExpression env v 0 s {} =
      Parse.expression ⟨env, s, {}, v, 0⟩ (Context.piece ⟨env, s, {}, v, 0⟩) (Context.blockPiece ⟨env, s, {}, v, 0⟩) :=
  parseExpression_eq ⟨env, s, {}, v, 0⟩

namespace Stands

/-- An operand by itself. -/
theorem rereads (h : Stands n env s v t) : Rereads n env s v t := by
  obtain ⟨kind, hv, hparse⟩ := h
  have hsections : Section.ofText 10 false 0 v = [⟨kind 0, 0, 0 + byteLength v, false⟩] := by
    rw [Section.ofText, Text.dropBytes, Section.all_operand hv]
  rw [Rereads, parseExpression_plain, Parse.expression_single hsections rfl (hv.kind_ne 0)]
  exact hparse _ 0 rfl rfl rfl (Text.at_self v)

/-- A sign and an operand. -/
theorem minus (h : Stands n env s v t) : Rereads n env s ('-' :: v) (Flat.negate t) := by
  obtain ⟨kind, hv, hparse⟩ := h
  have hminus : Lexeme.Alone '-' := Lexeme.alone_of_mark (by decide)
  have hsections : Section.ofText 10 false 0 ('-' :: v) =
      [⟨.operators, 0, 1, false⟩, ⟨kind 1, 1, 1 + byteLength v, false⟩] := by
    have hless : Token.minus ≠ .less := by decide
    rw [Section.ofText, Text.dropBytes, Lexeme.lex_alone hminus]
    exact Section.all_operator rfl (fun h => absurd h hless) hv _ 0
  have hsign : Text.slice ('-' :: v) 0 1 = ['-'] := Text.slice_front ['-'] v
  have hat : Text.At ('-' :: v) 1 v := ⟨['-'], [], (List.append_nil _).symm, rfl⟩
  rw [Rereads, parseExpression_plain, Parse.expression, hsections, List.foldlM_cons, Parse.step_minus hsign, pure_bind,
    List.foldlM_cons, Parse.step_operand (hv.kind_ne 1)]
  simp only [bind_assoc, pure_bind, List.foldlM_nil]
  refine (hparse _ 1 rfl rfl rfl hat).bind fun u hu => .pure ?_
  show (Flat.negate u).unlabelled = _
  rw [Flat.negate_unlabelled, Flat.negate_unlabelled, hu]

/-- Two operands with an operator between them. -/
theorem operator {op : Builtin} (hop : op.isInfix) (h : Stands n env s v t) (h' : Stands n env s w u)
    (hends : op = .equal → v.getLast? ≠ some '>') : Rereads n env s (v ++ op.name ++ w) (.builtin op [t, u]) := by
  obtain ⟨kind, hv, hparse⟩ := h
  obtain ⟨kind', hw, hparse'⟩ := h'
  obtain ⟨token, htoken⟩ := Builtin.exists_symbol hop
  have hfirm : ∀ d ∈ w.head?, Text.Firm d := fun d hd => hw.framed.first.head [] d (by rwa [List.append_nil])
  have hapart : v.Apart (op.name ++ w) := ⟨htoken.stops w, fun hlast heq => hends (htoken.equals heq) hlast⟩
  have hsections : Section.ofText 10 false 0 (v ++ op.name ++ w) =
      [⟨kind 0, 0, byteLength v, false⟩, ⟨.operators, byteLength v, byteLength v + byteLength op.name, false⟩,
        ⟨kind' (byteLength v + byteLength op.name), byteLength v + byteLength op.name,
          byteLength v + byteLength op.name + byteLength w, false⟩] := by
    have hoperator : ∀ l ∈ (⟨token, byteLength v, byteLength v + byteLength op.name⟩ ::
        Lexeme.lex 10 (byteLength v + byteLength op.name) w).head?, l.token.isOperator := fun l hl =>
      Option.some.inj hl ▸ htoken.isOperator
    rw [Section.ofText, Text.dropBytes, List.append_assoc, hv.lex 0 _ hapart, htoken.lex hfirm, Nat.zero_add,
      Section.all_next (hv.next _ 0 _ hoperator), decide_eq_true (hv.kind_ne 0),
      Section.all_operator htoken.isOperator (fun _ => rfl) hw, Nat.zero_add]
  have hat : Text.At (v ++ op.name ++ w) 0 v := (Text.at_self _).left.left
  have hat' : Text.At (v ++ op.name ++ w) (byteLength v + byteLength op.name) w :=
    ⟨v ++ op.name, [], (List.append_nil _).symm, Text.byteLength_append v op.name⟩
  have hfirst := hparse ⟨env, s, {}, v ++ op.name ++ w, 0⟩ 0 rfl rfl rfl hat
  have hsecond := hparse' ⟨env, s, {}, v ++ op.name ++ w, 0⟩ _ rfl rfl rfl hat'
  rw [Nat.zero_add] at hfirst
  rw [Rereads, parseExpression_plain, Parse.expression, hsections, List.foldlM_cons, Parse.step_operand (hv.kind_ne 0)]
  simp only [bind_assoc, pure_bind]
  refine hfirst.bind fun t' ht => ?_
  rw [List.foldlM_cons, Parse.step_run htoken.readRun rfl (List.cons_ne_nil _ _), pure_bind, List.foldlM_cons,
    Parse.step_operand (hw.kind_ne _)]
  simp only [bind_assoc, pure_bind, List.foldlM_nil]
  refine hsecond.bind fun u' hu => ?_
  simp only [List.reverse_cons, List.reverse_nil, List.nil_append, List.cons_append, Flat.fold_pair hop]
  refine .pure ?_
  simp only [Tree.unlabelled, Tree.allUnlabelled, ht, hu]

theorem name {word : Text} (hn : word.IsName) (h : ∀ position, s.resolve env {} word position = .ok t) :
    Stands n env s word t := by
  refine ⟨_, .name hn, fun c start henv hs hambient hat => ?_⟩
  subst henv hs
  have hoperand : Parse.operand c c.piece c.blockPiece ⟨.variable, start, start + byteLength word, false⟩ =
      Parse.ofExcept (c.scope.resolve c.env c.ambient (Text.slice c.text start (start + byteLength word))
        (c.offset + start)) := rfl
  rw [hoperand, hat.slice, hambient, h]
  exact .pure rfl

theorem decimal (hw : w.IsDecimal) {x : Float} (h : Numeral.read 10 w = some x) :
    Stands n env s w (.number (.real x)) := by
  refine ⟨_, .decimal hw, fun c start henv hs hambient hat => ?_⟩
  unfold Parse.operand
  simp only [hat.slice, hambient, h]
  exact .pure rfl

theorem string (ht : '"' ∉ w) : Stands n env s ('"' :: w ++ ['"']) (.literal (.string w)) := by
  refine ⟨_, .string ht, fun c start henv hs hambient hat => ?_⟩
  have hinner := hat.between rfl rfl
  unfold Parse.operand
  simp only [hinner]
  exact .pure rfl

end Stands
end Render

namespace Parse
variable {n : Nat} {γ : Type}

/-- Pieces that are parsed one after the other. -/
private theorem Yields.mapM {α δ : Type} {f : γ → Parse α} {g : α → δ} {l : List γ} {ts : List α}
    (h : List.Forall₂ (fun c t => Yields n (f c) fun u => g u = g t) l ts) :
    Yields n (l.mapM f) fun us => us.map g = ts.map g := by
  induction h with
  | nil => exact .pure rfl
  | cons hfirst _ ih =>
    rw [List.mapM_cons]
    refine hfirst.bind fun u hu => ih.bind fun us hus => .pure ?_
    rw [List.map_cons, List.map_cons, hu, hus]

end Parse

namespace Render
variable {n : Nat} {env : Environment} {s : Scope} {v w : Text} {t u : Tree} {es : List Text} {ts : List Tree}

private theorem Rereads.all_acceptable (h : List.Forall₂ (Rereads n env s) es ts) : ∀ e ∈ es, Parse.Acceptable 10 e :=
  ((List.forall₂_and_left _ _).mp (h.imp fun _ _ he => ⟨he.acceptable, he⟩)).1

private theorem Rereads.steady_listed (h : List.Forall₂ (Rereads n env s) es ts) : (listed es).Steady false := by
  have hclosed := Text.closedIn_listed fun e he => (Rereads.all_acceptable h e he).closed
  obtain ⟨b, hcrosses⟩ := hclosed
  exact ⟨b, hcrosses.leads⟩

/-- The parts of a list are cut out as they were put in. -/
private theorem slices_places {t : Text} {before : Nat} (hat : t.At (before + 1) (listed es)) :
    (places 0 es).map (fun p => Text.slice t (before + p.1 + 1) (before + 1 + p.2)) = es := by
  have hat : t.At (before + 1 + 0) (listed es) := hat
  rw [← List.forall₂_eq_eq_eq, List.forall₂_map_left_iff]
  refine (Text.at_places .comma hat).imp fun p e hp => ?_
  obtain ⟨hpart, hend⟩ := hp
  have hfirst : before + p.1 + 1 = before + 1 + p.1 := by omega
  have hlast : before + 1 + p.2 = before + 1 + p.1 + byteLength e := by omega
  rw [hfirst, hlast, hpart.slice]

private theorem argumentPieces_slices {c : Context} {before stop : Nat} (hambient : c.ambient = {})
    (hes : ∀ e ∈ es, Parse.Acceptable 10 e) (hat : c.text.At (before + 1) (listed es))
    (hstop : stop = before + 1 + byteLength (listed es)) :
    (Parse.argumentPieces c before stop).map (fun p => Text.slice c.text (p.1 + 1) p.2) = es := by
  have hinner : Text.slice c.text (before + 1) stop = listed es := by rw [hstop, hat.slice]
  by_cases hne : es = []
  · subst hne
    have hempty : (Text.trim (Text.slice c.text (before + 1) stop)).isEmpty = true := by rw [hinner]; rfl
    unfold Parse.argumentPieces
    simp only [hempty, if_true, List.map_nil]
  · rw [Parse.argumentPieces_listed hne (by rw [hambient]; exact hes) hinner, List.map_map]
    exact slices_places hat

/-- A call. -/
theorem Stands.application {word : Text} (hn : word.IsName) {callee : Scope.Callee}
    (hcallee : ∀ position, s.callee env word es.length position = .ok callee)
    (hes : List.Forall₂ (Rereads n env s) es ts) : Stands n env s (application word es) (callee.apply ts) := by
  refine ⟨_, .application hn (Rereads.steady_listed hes), fun c start henv hs hambient hat => ?_⟩
  subst henv hs
  have hlist : c.text.At (start + byteLength word + 1) (listed es) :=
    Text.At.right (w := ['(']) (Text.At.left hat.right)
  have hstop : start + byteLength (Render.application word es) - 1 =
      start + byteLength word + 1 + byteLength (listed es) := by
    have hopen : '('.utf8Size = 1 := rfl
    have hclose : ')'.utf8Size = 1 := rfl
    simp only [Render.application, Render.parenthesized, Text.byteLength_append, List.cons_append, Text.byteLength_cons,
      Text.byteLength_nil, hopen, hclose, listed]
    omega
  have hpieces := argumentPieces_slices hambient (Rereads.all_acceptable hes) hlist hstop
  generalize hcut : Parse.argumentPieces c (start + byteLength word)
    (start + byteLength (Render.application word es) - 1) = pieces at hpieces
  have hcount : pieces.length = es.length := by rw [← hpieces, List.length_map]
  unfold Parse.operand
  simp only [Parse.call, hcut, hcount, hat.left.slice, hcallee]
  rw [← hpieces, List.forall₂_map_left_iff] at hes
  have hargs : Parse.Yields n (pieces.mapM fun p => c.piece p.1 p.2 c.scope c.ambient)
      fun us => us.map Tree.unlabelled = ts.map Tree.unlabelled := by
    refine .mapM (hes.imp fun p t ht => ?_)
    rw [hambient]
    exact ht.anywhere _
  exact hargs.bind fun us hus => .pure (callee.apply_unlabelled hus)

/-- The cells of a vector are cut out as they were put in, row by row. -/
private theorem cellPieces_slices {c : Context} {before stop : Nat} {rows : List (List Text)}
    (hambient : c.ambient = {})
    (hne : rows ≠ []) (hrows : ∀ row ∈ rows, row ≠ [] ∧ ∀ e ∈ row, Parse.Acceptable 10 e)
    (hat : c.text.At (before + 1) (Text.join [';'] (rows.map listed)))
    (hstop : stop = before + 1 + byteLength (Text.join [';'] (rows.map listed))) :
    (Parse.cellPieces c before stop).map (List.map fun p => Text.slice c.text (p.1 + 1) p.2) = rows := by
  generalize hw : Text.join [';'] (rows.map listed) = w at hat hstop
  have hinner : Text.slice c.text (before + 1) stop = w := by rw [hstop, hat.slice]
  have hclosed : ∀ row ∈ rows, ∀ e ∈ row, ∀ separator : Token, separator.separates → e.ClosedIn 10 separator :=
    fun row hrow e he => ((hrows row hrow).2 e he).closed
  have hsplit : Text.splitOutside 10 .semicolon w = places 0 (rows.map listed) := by
    have hjoin := Text.split_join .semicolon (show rows.map listed ≠ [] by simpa using hne)
      (List.forall_mem_map.mpr fun row hrow => Text.closedIn_listed (hclosed row hrow)) 0
    rw [Nat.zero_add, hw] at hjoin
    exact hjoin
  have hplaces : List.Forall₂ (fun p row => w.At p.1 (listed row) ∧ p.2 = p.1 + byteLength (listed row))
      (places 0 (rows.map listed)) rows := by
    have hself : w.At (0 + 0) (Text.join [';'] (rows.map listed)) := by
      rw [hw]
      exact Text.at_self w
    have hat := Text.at_places .semicolon hself
    rw [List.forall₂_map_right_iff] at hat
    simpa only [Nat.zero_add] using hat
  have hcells : Parse.cellPieces c before stop = (places 0 (rows.map listed)).map fun p =>
      (Text.splitOutside 10 .comma (Text.slice w p.1 p.2)).map fun q => (before + p.1 + q.1, before + 1 + p.1 + q.2) := by
    unfold Parse.cellPieces
    simp only [hambient, hinner, hsplit]
  rw [hcells, List.map_map, ← List.forall₂_eq_eq_eq, List.forall₂_map_left_iff]
  refine ((List.forall₂_and_left (p := (· ∈ rows)) _ _).mpr ⟨fun _ => id, hplaces.flip⟩).flip.imp fun p row hp => ?_
  obtain ⟨hrow, hpart, hend⟩ := hp
  obtain ⟨hcells, haccept⟩ := hrows row hrow
  have hcut : Text.splitOutside 10 .comma (Text.slice w p.1 p.2) = places 0 row := by
    have hlisted := Text.split_listed hcells (hclosed row hrow) 0
    rw [Nat.zero_add] at hlisted
    rw [hend, hpart.slice]
    exact hlisted
  have hrowAt : c.text.At (before + p.1 + 1) (listed row) := by
    have hinside := hat.inner hpart
    rwa [Nat.add_right_comm] at hinside
  simp only [Function.comp_apply, hcut, List.map_map]
  rw [Nat.add_right_comm before 1]
  exact slices_places hrowAt

private theorem Stands.solid (h : Stands n env s v t) : v.Solid := by
  obtain ⟨kind, hv, -⟩ := h
  exact hv.toSolid

private theorem Stands.join_solid {c : Char} (hc : Text.Separates c) (hne : es ≠ [])
    (h : List.Forall₂ (Stands n env s) es ts) : (Text.join [c] es).Solid :=
  .join hc hne ((List.forall₂_and_left _ _).mp (h.imp fun _ _ he => ⟨he.solid, he⟩)).1

/-- The cells of a row are parsed one after the other. -/
private theorem row_parses {c : Context} {row : List (Nat × Nat)} {width : Nat} (hlength : row.length = width)
    (h : List.Forall₂ (fun p t => Rereads n c.env c.scope (Text.slice c.text (p.1 + 1) p.2) t) row ts)
    (hambient : c.ambient = {}) :
    Parse.Yields n ((List.range width).mapM fun x => Parse.cell c c.piece row[x]?)
      fun us => us.map Tree.unlabelled = ts.map Tree.unlabelled := by
  subst hlength
  refine .mapM (List.forall₂_iff_get.mpr ⟨by rw [List.length_range, h.length_eq], fun i hi hi' => ?_⟩)
  rw [List.length_range] at hi
  have hcell := h.get hi hi'
  simp only [List.get_eq_getElem, List.getElem_range, List.getElem?_eq_getElem hi] at hcell ⊢
  have hvisible := Text.trim_isEmpty hcell.acceptable.visible
  simp only [Parse.cell, hvisible, Bool.false_eq_true, if_false, hambient]
  exact hcell.anywhere _

/-- A vector. -/
theorem Stands.vector {rows : List (List Text)} {trees : List (List Tree)} {width : Nat} (hwidth : 0 < width)
    (hne : rows ≠ []) (hrows : ∀ row ∈ rows, row.length = width)
    (h : List.Forall₂ (List.Forall₂ (Stands n env s)) rows trees) :
    Stands n env s ('<' :: Text.join [';'] (rows.map listed) ++ ['>']) (.vector width rows.length trees.flatten) := by
  have hcells : ∀ row ∈ rows, row ≠ [] := by
    rintro row hrow rfl
    exact hwidth.ne (hrows [] hrow)
  have hread : ∀ row ∈ rows, ∃ ts, List.Forall₂ (Stands n env s) row ts :=
    ((List.forall₂_and_left _ _).mp (h.imp fun _ ts hts => ⟨⟨ts, hts⟩, hts⟩)).1
  have hsolid : (Text.join [';'] (rows.map listed)).Solid := by
    refine .join .semicolon (by simpa using hne) (List.forall_mem_map.mpr fun row hrow => ?_)
    obtain ⟨ts, hts⟩ := hread row hrow
    exact Stands.join_solid .comma (hcells row hrow) hts
  have haccept : ∀ row ∈ rows, row ≠ [] ∧ ∀ e ∈ row, Parse.Acceptable 10 e := by
    intro row hrow
    obtain ⟨ts, hts⟩ := hread row hrow
    exact ⟨hcells row hrow, Rereads.all_acceptable (hts.imp fun _ _ he => he.rereads)⟩
  refine ⟨_, .vector hsolid, fun c start henv hs hambient hat => ?_⟩
  subst henv hs
  have hinner : c.text.At (start + 1) (Text.join [';'] (rows.map listed)) := Text.At.right (w := ['<']) hat.left
  have hstop : start + byteLength ('<' :: Text.join [';'] (rows.map listed) ++ ['>']) - 1 =
      start + 1 + byteLength (Text.join [';'] (rows.map listed)) := by
    have hless : '<'.utf8Size = 1 := rfl
    have hgreater : '>'.utf8Size = 1 := rfl
    simp only [List.cons_append, Text.byteLength_cons, Text.byteLength_append, Text.byteLength_nil, hless, hgreater]
    omega
  have hpieces := cellPieces_slices hambient hne haccept hinner hstop
  generalize hcut : Parse.cellPieces c start
    (start + byteLength ('<' :: Text.join [';'] (rows.map listed) ++ ['>']) - 1) = pieces at hpieces
  have hwidths : pieces.map List.length = List.replicate pieces.length width := by
    refine List.eq_replicate_iff.mpr ⟨List.length_map .., List.forall_mem_map.mpr fun row hrow => ?_⟩
    rw [← hrows _ (hpieces ▸ List.mem_map_of_mem hrow), List.length_map]
  have hlength : pieces.length = rows.length := by rw [← hpieces, List.length_map]
  have hmax : (pieces.map List.length).max?.getD 1 = width := by
    rw [hwidths, List.max?_replicate, if_neg (by rw [hlength]; simpa using hne), Option.getD_some]
  have hparse : Parse.Yields n (pieces.mapM fun row => (List.range width).mapM fun x => Parse.cell c c.piece row[x]?)
      fun us => us.map (List.map Tree.unlabelled) = trees.map (List.map Tree.unlabelled) := by
    rw [← hpieces, List.forall₂_map_left_iff] at h
    have hlengths : ∀ row ∈ pieces, row.length = width := by
      intro row hrow
      rw [← hrows _ (hpieces ▸ List.mem_map_of_mem hrow), List.length_map]
    refine .mapM (((List.forall₂_and_left _ _).mpr ⟨hlengths, h⟩).imp fun row ts hrow => ?_)
    obtain ⟨hrow, hts⟩ := hrow
    rw [List.forall₂_map_left_iff] at hts
    exact row_parses hrow (hts.imp fun _ _ he => he.rereads) hambient
  unfold Parse.operand
  simp only [Parse.vector, hcut, hmax, hlength]
  refine hparse.bind fun us hus => .pure ?_
  simp only [Tree.unlabelled, Tree.allUnlabelled_eq, List.map_flatten, hus]

end Render
end Reckoner
