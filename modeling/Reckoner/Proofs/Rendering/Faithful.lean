import Reckoner.Proofs.Rendering.Arrow
import Reckoner.Proofs.Rendering.Visible

/-! Trees read again from their texts. Where every node is found again by what is written for it, the text of a tree is
parsed to the tree, all but the labels of its anonymous functions. -/
namespace Reckoner

open Render (Names)
open Text (listed)

def Tree.isVector : Tree → Bool
  | .vector .. => true
  | _ => false

/-- In an anonymous function all names around it are in sight, and its parameters. -/
private theorem Scope.Tidy.lambda {env : Environment} {s : Scope} {params : List Text} (h : s.Tidy env)
    (hp : ∀ param ∈ params, param.Nameable) : Scope.Tidy env (.lambda params s) where
  params name hname := by
    rcases List.mem_append.mp hname with hname | hname
    · rcases List.mem_append.mp hname with hname | hname
      · exact hp name hname
      · exact h.params name hname
    · exact h.locals name hname
  locals := nofun
  pending := h.pending
  env := h.env

namespace Render

def Names.scope (names : Names) (pending : Option Pending) : Scope := ⟨names.arguments, names.locals, 0, false, pending⟩

/-- The text is a decimal or a word that stands for the number. -/
def StandsFor (env : Environment) (s : Scope) (w : Text) (x : Float) : Prop :=
  (w.IsDecimal ∧ Numeral.read 10 w = some x) ∨
    (w.IsName ∧ ∀ position, s.resolve env {} w position = .ok (.number (.real x)))

/-- The text of a literal from which it is read again. -/
inductive Spells (env : Environment) (s : Scope) : Text → Value → Prop
  | number {w : Text} {x : Float} : StandsFor env s w x → Spells env s w (.number (.real x))
  | negative {w : Text} {x : Float} :
    StandsFor env s w x → Spells env s (parenthesized ('-' :: w)) (.number (-.real x))
  | string {t : Text} : '"' ∉ t → Spells env s ('"' :: t ++ ['"']) (.string t)

/-- What is written for the node is found again to be what it was written for. -/
def Faithful (env : Environment) (pending : Option Pending) (names : Names) (t : Tree) : Prop :=
  let s := names.scope pending
  match t with
  | .literal v => Spells env s (value env.config.bignumDigits v) v
  | .argument index => ∀ position, s.resolve env {} (names.argument index) position = .ok t
  | .localVariable slot => ∀ position, s.resolve env {} (names.localVariable slot) position = .ok t
  | .globalVariable slot => ∀ position, s.resolve env {} (globalName env slot) position = .ok t
  | .call id args => ∀ position, s.callee env (functionName env id) args.length position = .ok (.function id)
  | .vector width height _ => 0 < width ∧ 0 < height
  | .function f _ => (∀ param ∈ f.params, param.Nameable) ∧ f.params.Nodup ∧
    Recoverable env (f.params ++ s.params ++ s.locals) f.body
  | .builtin op args =>
    if op = .negate then ∀ t ∈ args, t.number? = none
    else if op.isInfix then
      op = .equal → ∀ t ∈ args.head?, t.isVector = false
    else ∀ position, s.callee env op.name args.length position = .ok (.builtin op)

section
variable {width : Nat}

/-- Behind the first cell of a row a comma stands in front of each one. -/
private theorem rows_within (y : Nat) {x : Nat} (hx : 0 < x) (line cells : List Text)
    (hline : x + line.length ≤ width) :
    (rows width (y * width + x) (line ++ cells)).flatten =
      line.flatMap (',' :: ·) ++ (rows width (y * width + (x + line.length)) cells).flatten := by
  induction line generalizing x with
  | nil => rfl
  | cons e line ih =>
    rw [List.length_cons, ← Nat.add_assoc, Nat.add_right_comm] at hline
    have hmod : (y * width + x) % width = x := by
      rw [Nat.add_comm, Nat.add_mul_mod_self_right, Nat.mod_eq_of_lt (by omega)]
    have hcolumn : y * width + x ≠ 0 := by omega
    rw [List.cons_append, rows, if_neg hcolumn, hmod, if_neg hx.ne', List.flatten_cons, List.flatten_cons, Nat.add_assoc,
      ih (Nat.succ_pos x) hline, List.length_cons, List.flatMap_cons, Nat.add_right_comm x 1, List.singleton_append]
    simp only [List.cons_append, List.append_assoc, Nat.add_assoc]

/-- A row has a semicolon in front of it, but for the first one. -/
private theorem rows_line (y : Nat) {line : List Text} (cells : List Text) (hwidth : 0 < width)
    (hline : line.length = width) :
    (rows width (y * width) (line ++ cells)).flatten =
      (if y = 0 then [] else [';']) ++ listed line ++ (rows width ((y + 1) * width) cells).flatten := by
  cases line with
  | nil => exact absurd hline hwidth.ne
  | cons e line =>
    have hcolumn : y * width = 0 ↔ y = 0 := by simp [hwidth.ne']
    have hwithin : 1 + line.length ≤ width := by
      rw [Nat.add_comm]
      exact hline.le
    have hbehind := rows_within y Nat.one_pos line cells hwithin
    rw [Nat.add_comm 1, show line.length + 1 = width from hline, ← Nat.succ_mul] at hbehind
    rw [List.cons_append, rows, List.flatten_cons, List.flatten_cons, hbehind, listed, Text.join_flatMap,
      Nat.mul_mod_left, if_pos rfl]
    simp only [hcolumn, List.append_assoc]

private theorem rows_behind (y : Nat) {lines : List (List Text)} (hwidth : 0 < width)
    (hlines : ∀ line ∈ lines, line.length = width) :
    (rows width ((y + 1) * width) lines.flatten).flatten = (lines.map listed).flatMap (';' :: ·) := by
  induction lines generalizing y with
  | nil => rfl
  | cons line lines ih =>
    obtain ⟨hline, hothers⟩ := List.forall_mem_cons.mp hlines
    rw [List.flatten_cons, rows_line _ _ hwidth hline, ih (y + 1) hothers, if_neg (Nat.succ_ne_zero y), List.map_cons,
      List.flatMap_cons, List.singleton_append, List.cons_append]

/-- The text of a vector has its rows one after the other. -/
private theorem grid_lines {lines : List (List Text)} (hwidth : 0 < width) (hne : lines ≠ [])
    (hlines : ∀ line ∈ lines, line.length = width) :
    grid width lines.flatten = '<' :: Text.join [';'] (lines.map listed) ++ ['>'] := by
  obtain ⟨line, lines, rfl⟩ := List.exists_cons_of_ne_nil hne
  obtain ⟨hline, hothers⟩ := List.forall_mem_cons.mp hlines
  have hfirst := rows_line 0 lines.flatten hwidth hline
  rw [Nat.zero_mul, if_pos rfl, List.nil_append, rows_behind 0 hwidth hothers] at hfirst
  rw [grid, Nat.max_eq_left hwidth, List.flatten_cons, hfirst, List.map_cons, Text.join_flatMap]

end

/-- The cells of a vector row by row. -/
private theorem exists_lines {α β : Type} {R : α → β → Prop} {width : Nat} (height : Nat) {as : List α} {bs : List β}
    (h : List.Forall₂ R as bs) (hlength : bs.length = width * height) :
    ∃ lines trees, lines.flatten = as ∧ trees.flatten = bs ∧ lines.length = height ∧
      (∀ line ∈ lines, line.length = width) ∧ List.Forall₂ (List.Forall₂ R) lines trees := by
  induction height generalizing as bs with
  | zero =>
    obtain rfl : bs = [] := List.length_eq_zero_iff.mp hlength
    obtain rfl : as = [] := List.forall₂_nil_right_iff.mp h
    exact ⟨[], [], rfl, rfl, rfl, nofun, .nil⟩
  | succ height ih =>
    have hsame := h.length_eq
    rw [Nat.mul_succ] at hlength
    obtain ⟨lines, trees, hlines, htrees, rfl, hwide, hall⟩ :=
      ih (List.forall₂_drop width h) (by rw [List.length_drop, hlength, Nat.add_sub_cancel])
    refine ⟨as.take width :: lines, bs.take width :: trees, ?_, ?_, rfl, ?_, .cons (List.forall₂_take width h) hall⟩
    · rw [List.flatten_cons, hlines, List.take_append_drop]
    · rw [List.flatten_cons, htrees, List.take_append_drop]
    · refine List.forall_mem_cons.mpr ⟨?_, hwide⟩
      rw [List.length_take, hsame, hlength, Nat.min_eq_left (Nat.le_add_left ..)]

/-- The text of a tree is parsed to the tree, by itself and as an operand; and only the bracket of a vector is a `>` at
its end. -/
structure ReadsBack (n : Nat) (env : Environment) (s : Scope) (t : Tree) : Prop where
  whole : Rereads n env s (tree env s.names t) t
  stands : Stands n env s (operand t (tree env s.names t)) t
  ends : t.isVector = false → (operand t (tree env s.names t)).getLast? ≠ some '>'

variable {n : Nat} {env : Environment} {s : Scope} {t u : Tree} {w : Text} {v : Value}

/-- A text that ends with this character ends with no other one. -/
private theorem getLast?_ne {c : Char} (hc : c ≠ '>') (w : Text) : (w ++ [c]).getLast? ≠ some '>' := by
  rw [List.getLast?_concat, Ne, Option.some.injEq]
  exact hc

private theorem getLast?_name {w : Text} (hw : w.IsName) : w.getLast? ≠ some '>' := fun hlast =>
  hw.not_mem rfl (List.mem_of_getLast? hlast)

private theorem getLast?_decimal {w : Text} (hw : w.IsDecimal) : w.getLast? ≠ some '>' := by
  obtain ⟨whole, fraction, -, hdigits, rfl⟩ := hw
  intro hlast
  rcases Numeral.mem_pointed (List.mem_of_getLast? hlast) with hc | hc
  · exact absurd hc (by decide)
  · exact absurd (hdigits '>' hc) (by decide)

private theorem getLast?_parenthesized (w : Text) :
    (parenthesized w).getLast? ≠ some '>' := getLast?_ne (by decide) ('(' :: w)

private theorem StandsFor.stands {x : Float} (h : StandsFor env s w x) : Stands n env s w (.number (.real x)) :=
  h.elim (fun h => .decimal h.1 h.2) fun h => .name h.1 h.2

private theorem StandsFor.ends {x : Float} (h : StandsFor env s w x) : w.getLast? ≠ some '>' :=
  h.elim (fun h => getLast?_decimal h.1) fun h => getLast?_name h.1

private theorem Spells.stands (h : Spells env s w v) : Stands n env s w (.literal v) := by
  cases h with
  | number h => exact h.stands
  | @negative w x h => exact Rereads.parenthesized (Stands.minus (t := .number (.real x)) h.stands)
  | string h => exact .string h

private theorem Spells.ends (h : Spells env s w v) : w.getLast? ≠ some '>' := by
  cases h with
  | number h => exact h.ends
  | negative h => exact getLast?_parenthesized _
  | string h => exact getLast?_ne (by decide) _

namespace ReadsBack

/-- A tree that is no operation stands for itself. -/
private theorem of_stands (ht : isOperation t = false) (h : Stands n env s (tree env s.names t) t)
    (hends : t.isVector = false → (tree env s.names t).getLast? ≠ some '>') : ReadsBack n env s t := by
  have hoperand : operand t (tree env s.names t) = tree env s.names t := by rw [operand, ht, if_neg (by decide)]
  exact ⟨h.rereads, by rwa [hoperand], by rwa [hoperand]⟩

/-- An operation stands in parentheses. -/
private theorem of_operation (ht : isOperation t) (h : Rereads n env s (tree env s.names t) t) :
    ReadsBack n env s t := by
  have hoperand : operand t (tree env s.names t) = parenthesized (tree env s.names t) := by rw [operand, if_pos ht]
  refine ⟨h, ?_, fun _ => ?_⟩
  · rw [hoperand]
    exact h.parenthesized
  · rw [hoperand]
    exact getLast?_parenthesized _

private theorem of_name (ht : isOperation t = false) (hw : (tree env s.names t).IsName)
    (h : ∀ position, s.resolve env {} (tree env s.names t) position = .ok t) : ReadsBack n env s t :=
  .of_stands ht (.name hw h) fun _ => getLast?_name hw

private theorem of_application {name : Text} {es : List Text} {ts : List Tree} (callee : Scope.Callee)
    (ht : isOperation (callee.apply ts) = false)
    (htree : tree env s.names (callee.apply ts) = application name es) (hn : name.IsName)
    (hcallee : ∀ position, s.callee env name es.length position = .ok callee)
    (hes : List.Forall₂ (Rereads n env s) es ts) : ReadsBack n env s (callee.apply ts) := by
  refine .of_stands ht (htree ▸ .application hn hcallee hes) fun _ => ?_
  rw [htree, application, parenthesized, ← List.append_assoc]
  exact getLast?_ne (by decide) _

/-- A literal. -/
private theorem literal (h : Spells env s (value env.config.bignumDigits v) v) : ReadsBack n env s (.literal v) :=
  .of_stands rfl h.stands fun _ => h.ends

private theorem negate (ht : t.number? = none) (h : ReadsBack n env s t) :
    ReadsBack n env s (.builtin .negate [t]) := by
  have hnegate : Flat.negate t = .builtin .negate [t] := by
    cases t with
    | literal v => cases v <;> first | rfl | exact nomatch ht
    | _ => rfl
  have hminus := h.stands.minus
  rw [hnegate] at hminus
  exact .of_operation rfl hminus

private theorem operator {op : Builtin} (hop : op.isInfix) (h : ReadsBack n env s t) (h' : ReadsBack n env s u)
    (hends : op = .equal → t.isVector = false) : ReadsBack n env s (.builtin op [t, u]) := by
  refine .of_operation (by simp [isOperation, hop]) ?_
  rw [tree, if_pos hop]
  exact Stands.operator hop h.stands h'.stands fun he => h.ends (hends he)

/-- A builtin that is called by its name. -/
private theorem builtin {op : Builtin} {ts : List Tree} (hcalled : op.isInfix = false) (hop : op ≠ .negate)
    (hcallee : ∀ position, s.callee env op.name ts.length position = .ok (.builtin op))
    (h : List.Forall₂ (Rereads n env s) (trees env s.names ts) ts) : ReadsBack n env s (.builtin op ts) := by
  have htree : tree env s.names (.builtin op ts) = application op.name (trees env s.names ts) := by
    rcases ts with _ | ⟨t, _ | ⟨u, _ | ⟨v, rest⟩⟩⟩
    · rfl
    · rw [tree, if_neg hop, trees, trees]
    · rw [tree, hcalled, if_neg (by decide), trees, trees, trees]
    · rfl
  refine .of_application (.builtin op) ?_ htree (builtinName_isName hcalled) ?_ h
  · simpa [isOperation, Scope.Callee.apply, hcalled] using hop
  · rwa [h.length_eq]

private theorem call {id : Nat} {ts : List Tree} (hn : (functionName env id).IsName)
    (hcallee : ∀ position, s.callee env (functionName env id) ts.length position = .ok (.function id))
    (h : List.Forall₂ (Rereads n env s) (trees env s.names ts) ts) : ReadsBack n env s (.call id ts) := by
  refine .of_application (.function id) rfl ?_ hn ?_ h
  · rw [Scope.Callee.apply, tree]
  · rwa [h.length_eq]

private theorem vector {width height : Nat} {ts : List Tree} (hwidth : 0 < width) (hheight : 0 < height)
    (hlength : ts.length = width * height)
    (h : List.Forall₂ (Stands n env s) (operands env s.names ts) ts) : ReadsBack n env s (.vector width height ts) := by
  obtain ⟨lines, trees, hlines, rfl, rfl, hwide, hall⟩ := exists_lines height h hlength
  have hne : lines ≠ [] := List.ne_nil_of_length_pos hheight
  refine .of_stands rfl ?_ nofun
  rw [tree, ← hlines, grid_lines hwidth hne hwide]
  exact .vector hwidth hne hwide hall

/-- An anonymous function. -/
private theorem function {label : Nat} {params : List Text} {body : Block} (hs : s.Tidy env)
    (hp : ∀ param ∈ params, param.Nameable) (hn : params.Nodup) (hb : body.IsBody (params ++ s.params ++ s.locals))
    (hreparses : body.Every (Reparses n env s.pending) { arguments := params ++ s.params ++ s.locals })
    (hr : Recoverable env (params ++ s.params ++ s.locals) body) :
    ReadsBack n env s (.function ⟨label, params, body⟩ s.captureWidth) := by
  have htidy : Scope.Tidy env (.lambda params s) := hs.lambda hp
  have hwritten : tree env s.names (.function ⟨label, params, body⟩ s.captureWidth) =
      parenthesized (arrow params (Render.body env { arguments := params ++ s.params ++ s.locals } body)) := by
    rw [tree, lambda_names, arrow]
    rfl
  have hwhole : Rereads n env s (arrow params (Render.body env { arguments := params ++ s.params ++ s.locals } body))
      (.function ⟨label, params, body⟩ s.captureWidth) := by
    cases ht : body.singleReturn? with
    | some t =>
      obtain rfl := hb.eq_returning ht
      rw [body_of_singleReturn ht]
      exact rereads_arrow hp hn label (hreparses.1 t rfl)
    | none =>
      rw [body_of_block ht]
      have hg := hr.resolve_left (by rw [ht]; decide)
      have hsteady := (braced_decides htidy hb hreparses).steady hg
      refine rereads_arrow_braced hp hn label hsteady fun offset => ?_
      obtain ⟨_, _, hscoped⟩ := hb
      have hcover : Names.Cover { arguments := params ++ s.params ++ s.locals } (.lambda params s) :=
        ⟨rfl, List.prefix_refl _⟩
      exact (inside_parses body (hscoped.withPending s.pending) hcover hcover htidy hreparses hg).mono fun p hp => hp.1
  refine .of_stands rfl ?_ fun _ => ?_
  · rw [hwritten]
    exact hwhole.parenthesized
  · rw [hwritten]
    exact getLast?_parenthesized _

end ReadsBack

private theorem trees_eq (env : Environment) (names : Names) (ts : List Tree) :
    trees env names ts = ts.map (tree env names) := by
  induction ts with
  | nil => rfl
  | cons t ts ih => rw [trees, ih, List.map_cons]

private theorem operands_eq (env : Environment) (names : Names) (ts : List Tree) :
    operands env names ts = ts.map fun t => operand t (tree env names t) := by
  induction ts with
  | nil => rfl
  | cons t ts ih => rw [operands, ih, List.map_cons]

section
variable {ts : List Tree} (h : ∀ t ∈ ts, ReadsBack n env s t)
include h

private theorem ReadsBack.trees : List.Forall₂ (Rereads n env s) (trees env s.names ts) ts := by
  rw [trees_eq, List.forall₂_map_left_iff, List.forall₂_same]
  exact fun t ht => (h t ht).whole

private theorem ReadsBack.operands : List.Forall₂ (Stands n env s) (operands env s.names ts) ts := by
  rw [operands_eq, List.forall₂_map_left_iff, List.forall₂_same]
  exact fun t ht => (h t ht).stands

end

/-- An operator or a builtin whose arguments read back. -/
private theorem ReadsBack.of_builtin {op : Builtin} {args : List Tree} (harity : op.arity.accepts args.length)
    (h : Faithful env s.pending s.names (.builtin op args)) (hargs : ∀ t ∈ args, ReadsBack n env s t) :
    ReadsBack n env s (.builtin op args) := by
  unfold Faithful at h
  simp only at h
  by_cases hnegate : op = .negate
  · subst hnegate
    obtain ⟨t, rfl⟩ := List.length_eq_one_iff.mp (eq_of_beq harity)
    rw [if_pos rfl] at h
    exact .negate (h t List.mem_cons_self) (hargs t List.mem_cons_self)
  rw [if_neg hnegate] at h
  by_cases hbetween : op.isInfix
  · have htwo : args.length = 2 := by
      by_contra hne
      exact absurd hbetween (by rw [isInfix_eq_false harity hne]; decide)
    obtain ⟨t, u, rfl⟩ := List.length_eq_two.mp htwo
    rw [if_pos hbetween] at h
    exact .operator hbetween (hargs t (by simp)) (hargs u (by simp)) fun he => h he t rfl
  · rw [if_neg hbetween] at h
    exact .builtin (Bool.not_eq_true _ ▸ hbetween) hnegate h (ReadsBack.trees hargs)

/-- Only the names in sight matter for what a literal is read as. -/
private theorem Spells.here (h : Spells env (s.names.scope s.pending) w v) : Spells env s w v := by
  cases h with
  | number h => exact .number h
  | negative h => exact .negative h
  | string h => exact .string h

/-- The expression of a statement that reads back is parsed to itself. -/
private theorem ReadsBack.reparses {names : Names} {a : Action} (hn : names.Cover s) (ha : a.expression? = some t)
    (h : ReadsBack n env s t) : Reparses n env s.pending (names.upTo s.locals.length) a := by
  rw [hn.upTo]
  intro u hu
  obtain rfl := Option.some.inj (ha.symm.trans hu)
  have hsight : Scope.SameSight ⟨s.params, s.locals, 0, false, s.pending⟩ s := ⟨rfl, rfl, rfl⟩
  exact .of_same (parseExpression_same env _ 0 0 hsight {}) h.whole

mutual

/-- A faithful tree reads back. -/
theorem tree_readsBack {n : Nat} {s : Scope} (hs : s.Tidy env) : (t : Tree) → t.Scoped s →
    t.Throughout (Faithful env s.pending) s.names → ReadsBack n env s t
  | .literal v, _, h => .literal (Spells.here h)
  | .argument index, _, h => .of_name rfl (argument_isName hs.legible index) h
  | .localVariable slot, _, h => .of_name rfl (localVariable_isName hs.legible slot) h
  | .globalVariable slot, _, h => .of_name rfl (globalName_isName hs.legible slot) h
  | .call id args, ht, ⟨h, hargs⟩ =>
    .call (functionName_isName hs.legible id) h (ReadsBack.trees (trees_readBack hs args ht hargs))
  | .vector width height cells, ht, ⟨h, hcells⟩ =>
    .vector h.1 h.2 ht.1 (ReadsBack.operands (trees_readBack hs cells ht.2 hcells))
  | .builtin op args, ht, ⟨h, hargs⟩ => .of_builtin ht.1 h (trees_readBack hs args ht.2 hargs)
  | .function ⟨label, params, body⟩ width, ht, ⟨h, hbody⟩ => by
    obtain ⟨rfl, pending, last, hscoped⟩ := ht
    obtain ⟨hp, hn, hr⟩ := h
    rw [lambda_names] at hbody
    have hcover : Names.Cover { arguments := params ++ s.params ++ s.locals } (.lambda params s) :=
      ⟨rfl, List.prefix_refl _⟩
    exact .function hs hp hn ⟨pending, last, hscoped⟩
      (block_reparses (hs.lambda hp) hcover body (hscoped.withPending s.pending) hbody) hr

theorem trees_readBack {n : Nat} {s : Scope} (hs : s.Tidy env) : (ts : List Tree) → Tree.AllScoped s ts →
    Tree.AllThroughout (Faithful env s.pending) s.names ts → ∀ t ∈ ts, ReadsBack n env s t
  | [], _, _ => nofun
  | t :: ts, ht, h => List.forall_mem_cons.mpr
    ⟨tree_readsBack hs t ht.1 h.1, trees_readBack hs ts ht.2 h.2⟩

/-- The expressions of a faithful block are parsed to themselves. -/
theorem block_reparses {n : Nat} {s s' : Scope} {names : Names} (hs : s.Tidy env) (hn : names.Cover s) :
    (b : Block) → b.Scoped s s' → b.Throughout (Faithful env s.pending) names → b.Every (Reparses n env s.pending) names
  | ⟨list, locals, firstSlot, frameSize⟩, hb, h => by
    obtain ⟨last, ha, rfl, rfl, rfl, rfl⟩ := hb
    rw [Block.every_iff]
    rw [Block.Throughout] at h
    rw [hn.block ha.extends] at h ⊢
    exact actions_reparse hs (.self last) list ha h

theorem actions_reparse {n : Nat} {s s' : Scope} {names : Names} {previous : Option Action} (hs : s.Tidy env)
    (hn : names.Cover s') : (list : List Action) → Action.AllScoped s previous list s' →
    Action.AllThroughout (Faithful env s.pending) names s.locals.length list →
    Action.EveryOf (Reparses n env s.pending) names s.locals.length list
  | [], _, _ => trivial
  | a :: rest, ha, h => by
    obtain ⟨-, next, hfirst, hrest⟩ := ha
    obtain ⟨ha, h⟩ := h
    refine ⟨action_reparses hs (hn.of_extends hrest.extends) a hfirst ha, ?_⟩
    have hothers := actions_reparse (n := n) (hs.action hfirst) hn rest hrest
    rw [← hfirst.visible, hfirst.extends.pending] at hothers
    exact hothers h

theorem action_reparses {n : Nat} {s s' : Scope} {names : Names} {previous : Option Action} (hs : s.Tidy env)
    (hn : names.Cover s') : (a : Action) → a.Scoped s previous s' →
    a.Throughout (Faithful env s.pending) names s.locals.length → a.Every (Reparses n env s.pending) names s.locals.length
  | .compute t, ⟨ht, he⟩, h => by
    subst he
    rw [Action.Throughout, hn.upTo] at h
    exact (tree_readsBack hs t ht h).reparses hn rfl
  | .giveBack t, ⟨ht, he⟩, h => by
    subst he
    rw [Action.Throughout, hn.upTo] at h
    exact (tree_readsBack hs t ht h).reparses hn rfl
  | .assign target t, ⟨ht, _, _, _, hassigns⟩, h => by
    have hcover := hn.of_extends hassigns.extends
    rw [Action.Throughout, hcover.upTo] at h
    exact (tree_readsBack hs t ht h).reparses hcover rfl
  | .when condition body, ⟨ht, hb⟩, ⟨hcondition, hbody⟩ => by
    have hcover := hn.of_extends hb.extends
    rw [hcover.upTo] at hcondition
    exact ⟨(tree_readsBack hs condition ht hcondition).reparses hcover rfl, block_reparses hs hcover body hb hbody⟩
  | .otherwise body, ⟨_, hb⟩, h => by
    exact ⟨nofun, block_reparses hs (hn.of_extends hb.extends) body hb h⟩
  | .loop condition body, ha, ⟨hcondition, hbody⟩ => by
    have hcover := hn.of_extends ha.extends
    obtain ⟨ht, inner, hb, -⟩ := ha
    have hloop : names.Cover { s with inLoop := true } := ⟨hcover.arguments, hcover.locals⟩
    have htidy : Scope.Tidy env { s with inLoop := true } := hs.congr rfl rfl rfl
    rw [hcover.upTo] at hcondition
    exact ⟨(tree_readsBack hs condition ht hcondition).reparses hcover rfl, block_reparses htidy hloop body hb hbody⟩
  | .leaveLoop, _, _ => nofun
  | .nextRound, _, _ => nofun

end

end Render
end Reckoner
