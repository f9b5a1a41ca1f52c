import Reckoner.Parse.Expression
import Reckoner.Proofs.Joining
import Reckoner.Proofs.Precedence
import Reckoner.Proofs.Sections

/-! The texts of dimensions as the parser sees them: a name for each base unit that is present, its exponent behind a
run of operators, and a sign before each further factor. What is read off is a product of powers. -/
namespace Reckoner

open Text (byteLength slice)

namespace Dimension

def raised (n : Int8) : Text := if n = 1 then [] else '^' :: Text.ofInt n.toInt

def factor (d : Dimension) (q : BaseQuantity) : Text := q.symbol ++ raised (d.exponent q)

def present (d : Dimension) : List BaseQuantity := BaseQuantity.all.filter (d.exponent · ≠ 0)

variable {d : Dimension} {q : BaseQuantity} {qs : List BaseQuantity} {n : Int8} {t r : Text}

theorem text_eq (d : Dimension) : d.text = Text.join ['*'] (d.present.map d.factor) := by
  refine congrArg _ (List.map_congr_left fun q _ => ?_)
  show (if d.exponent q = 1 then q.symbol else q.symbol ++ '^' :: Text.ofInt (d.exponent q).toInt) = _
  rw [factor, raised]
  split
  · exact (List.append_nil _).symm
  · rfl

/-- A text is its first factor, and then each further one behind its sign. -/
private theorem join_factors (d : Dimension) (q : BaseQuantity) (qs : List BaseQuantity) :
    Text.join ['*'] ((q :: qs).map d.factor) = d.factor q ++ qs.flatMap fun q => '*' :: d.factor q := by
  rw [List.map_cons, Text.join_flatMap, List.flatMap_map]

private theorem isName_symbol (q : BaseQuantity) : q.symbol.IsName := by cases q <;> decide

/-! ### Sections -/

def digits (n : Int8) : Text := Text.ofNat n.toInt.natAbs

def powerRun (n : Int8) : Text := if n.toInt < 0 then ['^', '-'] else ['^']

private theorem raised_eq (hn : n ≠ 1) : raised n = powerRun n ++ digits n := by
  rw [raised, if_neg hn, Text.ofInt, powerRun, digits]
  split <;> rfl

private theorem digits_isDigit : ∀ c ∈ digits n, c.isDigit := fun _ hc =>
  Nat.isDigit_of_mem_toDigits (by decide) (by decide) hc

private theorem digits_ne_nil : digits n ≠ [] := Nat.toDigits_ne_nil

def Multiplied (r : Text) : Prop := ∀ c ∈ r.head?, c = '*'

private theorem Multiplied.ends (hr : Multiplied r) : ∀ c ∈ r.head?, Lexeme.Ends c := by
  intro c hc
  rw [hr c hc]
  exact Lexeme.ends_of_mark (by decide)

end Dimension

namespace Section
open Dimension
variable {d : Dimension} {q : BaseQuantity} {n : Int8} {t r : Text} {limit o i j : Nat} {a : Bool} {kind : SectionKind}
  {ls rest : List Lexeme}

theorem all_next (h : next limit a ls = some (⟨kind, i, j, false⟩, rest)) :
    all limit a ls = ⟨kind, i, j, false⟩ :: all limit (kind ≠ .operators) rest := by
  rw [all_eq h, if_neg (by simp)]

private theorem all_digits (hr : Multiplied r) :
    all limit a (Lexeme.lex 10 o (digits n ++ r)) =
      ⟨.number, o, o + byteLength (digits n), false⟩ ::
        all limit true (Lexeme.lex 10 (o + byteLength (digits n)) r) := by
  rw [Lexeme.lex_digits digits_ne_nil digits_isDigit hr.ends]
  exact all_next rfl

private theorem all_powerRun (hr : Multiplied r) :
    all limit true (Lexeme.lex 10 o (powerRun n ++ (digits n ++ r))) =
      ⟨.operators, o, o + byteLength (powerRun n), false⟩ ::
        all limit false (Lexeme.lex 10 (o + byteLength (powerRun n)) (digits n ++ r)) := by
  have hcaret : Lexeme.Alone '^' := Lexeme.alone_of_mark (by decide)
  have hminus : Lexeme.Alone '-' := Lexeme.alone_of_mark (by decide)
  have hdigits (o : Nat) := Lexeme.lex_digits (digits_ne_nil (n := n)) digits_isDigit hr.ends o
  rw [powerRun]
  split
  · rw [List.cons_append, List.singleton_append, Lexeme.lex_alone hcaret, Lexeme.lex_alone hminus, hdigits, hdigits]
    exact all_next rfl
  · rw [List.singleton_append, Lexeme.lex_alone hcaret, hdigits, hdigits]
    exact all_next rfl

def ofRaised (o : Nat) (n : Int8) : List Section :=
  if n = 1 then []
  else
    [⟨.operators, o, o + byteLength (powerRun n), false⟩,
      ⟨.number, o + byteLength (powerRun n), o + byteLength (powerRun n) + byteLength (digits n), false⟩]

private theorem all_raised (hr : Multiplied r) :
    all limit true (Lexeme.lex 10 o (raised n ++ r)) =
      ofRaised o n ++ all limit true (Lexeme.lex 10 (o + byteLength (raised n)) r) := by
  by_cases hn : n = 1
  · rw [raised, ofRaised, if_pos hn, if_pos hn]
    rfl
  · rw [raised_eq hn, ofRaised, if_neg hn, List.append_assoc, all_powerRun hr, all_digits hr, Text.byteLength_append,
      ← Nat.add_assoc]
    rfl

def ofFactor (o : Nat) (d : Dimension) (q : BaseQuantity) : List Section :=
  ⟨.variable, o, o + byteLength q.symbol, false⟩ :: ofRaised (o + byteLength q.symbol) (d.exponent q)

private theorem raised_head (hr : Multiplied r) : ∀ c ∈ (raised n ++ r).head?, c = '^' ∨ c = '*' := by
  intro c hc
  rw [raised] at hc
  split at hc
  · exact .inr (hr c hc)
  · exact .inl (Option.some.inj hc).symm

private theorem lex_raised_head (hr : Multiplied r) :
    ∀ l ∈ (Lexeme.lex 10 o (raised n ++ r)).head?, l.token.isOperator := by
  have hhead := raised_head (n := n) hr
  cases hraised : raised n ++ r with
  | nil =>
    rw [Lexeme.lex]
    intro l hl
    cases hl
  | cons c t =>
    rw [hraised] at hhead
    intro l hl
    rcases hhead c rfl with rfl | rfl
    · rw [Lexeme.lex_alone (Lexeme.alone_of_mark (by decide))] at hl
      exact Option.some.inj hl ▸ rfl
    · rw [Lexeme.lex_alone (Lexeme.alone_of_mark (by decide))] at hl
      exact Option.some.inj hl ▸ rfl

theorem ne_of_isOperator {token other : Token} (h : token.isOperator) (ho : other.isOperator = false) : token ≠ other := by
  rintro rfl
  rw [h] at ho
  cases ho

/-- A name before an operator is a variable. -/
theorem named_variable {name : Lexeme} (h : ∀ l ∈ ls.head?, l.token.isOperator) :
    named limit name ls = (⟨.variable, name.start, name.stop, false⟩, ls) := by
  cases ls with
  | nil => rfl
  | cons l ls =>
    have hl := h l rfl
    have hparen : adjacent .leftParen name.stop l = false := by
      rw [adjacent, Bool.and_eq_false_iff, beq_eq_false_iff_ne]
      exact .inl (ne_of_isOperator hl rfl)
    have harrow : l.token ≠ .arrow := ne_of_isOperator hl rfl
    simp only [named, hparen, if_neg harrow, Bool.false_eq_true, if_false]

private theorem all_factor (hr : Multiplied r) :
    all limit a (Lexeme.lex 10 o (d.factor q ++ r)) =
      ofFactor o d q ++ all limit true (Lexeme.lex 10 (o + byteLength (d.factor q)) r) := by
  have hname : ∀ c ∈ (raised (d.exponent q) ++ r).head?, Lexeme.isNameChar c = false := by
    intro c hc
    rcases raised_head hr c hc with rfl | rfl <;> decide
  have hnext : next limit a (⟨.identifier, o, o + byteLength q.symbol⟩ ::
      Lexeme.lex 10 (o + byteLength q.symbol) (raised (d.exponent q) ++ r)) =
        some (⟨.variable, o, o + byteLength q.symbol, false⟩,
          Lexeme.lex 10 (o + byteLength q.symbol) (raised (d.exponent q) ++ r)) :=
    congrArg some (named_variable (lex_raised_head hr))
  rw [factor, List.append_assoc, Lexeme.lex_name (isName_symbol q) hname, ofFactor, all_next hnext,
    List.cons_append, Text.byteLength_append, ← Nat.add_assoc, ← all_raised hr]
  rfl

private theorem all_times (hr : Multiplied r) :
    all limit true (Lexeme.lex 10 o ('*' :: (d.factor q ++ r))) =
      ⟨.operators, o, o + 1, false⟩ :: all limit false (Lexeme.lex 10 (o + 1) (d.factor q ++ r)) := by
  have hname : ∀ c ∈ (raised (d.exponent q) ++ r).head?, Lexeme.isNameChar c = false := by
    intro c hc
    rcases raised_head hr c hc with rfl | rfl <;> decide
  rw [Lexeme.lex_alone (Lexeme.alone_of_mark (by decide)), factor, List.append_assoc,
    Lexeme.lex_name (isName_symbol q) hname]
  exact all_next rfl

end Section

/-! ### Items -/

namespace Dimension
open Flat (Item Grouping Grouped Binds)
variable {d : Dimension} {q : BaseQuantity} {n : Int8}

def unitOf (d : Dimension) : Number := (Number.real 1).withDimension d

def exponentOf (n : Int8) : Number :=
  if n.toInt < 0 then -Number.real (Binary64.ofInt n.toInt.natAbs) else Number.real (Binary64.ofInt n.toInt.natAbs)

def items (d : Dimension) (q : BaseQuantity) (position : Nat) : List Item :=
  .operand (.number (unitOf (.base q))) ::
    if d.exponent q = 1 then [] else [.operator .pow position, .operand (.number (exponentOf (d.exponent q)))]

def grouping (d : Dimension) (q : BaseQuantity) : Grouping :=
  if d.exponent q = 1 then .operand (.number (unitOf (.base q)))
  else .node .pow (.operand (.number (unitOf (.base q)))) (.operand (.number (exponentOf (d.exponent q))))

private theorem items_grouped (position : Nat) : Grouped (d.items q position) (d.grouping q) := by
  rw [items, grouping]
  split
  · exact .run _ []
  · have hsplit (t u : Tree) : Grouped ([.operand t] ++ .operator .pow position :: [.operand u])
        (.node .pow (.operand t) (.operand u)) :=
      .split rfl (by simp [Binds]) (by simp [Binds]) (.run t []) (.run u [])
    exact hsplit _ _

private theorem items_binds (position : Nat) : Binds 3 (d.items q position) := by
  rw [items]
  split <;> simp [Binds, Flat.precedence]

private theorem read_digits (n : Int8) : Numeral.read 10 (digits n) = some (Binary64.ofInt n.toInt.natAbs) := by
  have hall : ∀ k : Fin 129, Numeral.read 10 (Text.ofNat k) = some (Binary64.ofInt k) := by decide +kernel
  have hlow := n.le_toInt
  have hhigh := n.toInt_lt
  exact hall ⟨n.toInt.natAbs, by omega⟩

private theorem readRun_powerRun (n : Int8) :
    Flat.readRun ((Lexeme.lex 10 0 (powerRun n)).map Lexeme.token) = some (.pow, decide (n.toInt < 0)) := by
  have hcaret : Lexeme.Alone '^' := Lexeme.alone_of_mark (by decide)
  have hminus : Lexeme.Alone '-' := Lexeme.alone_of_mark (by decide)
  rw [powerRun]
  split
  · rename_i hneg
    rw [Lexeme.lex_alone hcaret, Lexeme.lex_alone hminus, Lexeme.lex, decide_eq_true hneg]
    rfl
  · rename_i hneg
    rw [Lexeme.lex_alone hcaret, Lexeme.lex, decide_eq_false hneg]
    rfl

end Dimension

namespace Parse
open Dimension
open Flat (Item Grouping Grouped Binds)
variable {c : Context} {piece : PieceParser} {blockPiece : BlockPieceParser} {p : Progress} {d : Dimension}
  {q : BaseQuantity} {qs : List BaseQuantity} {n : Int8} {front behind run : Text} {op : Builtin} {signed : Bool}
  {leading : Option Nat} {read : List Item} {g : Grouping}

structure Context.Measures (c : Context) : Prop where
  units : c.ambient.units = true
  base : c.ambient.base = 10
  table : c.env.units = .si

private theorem step_symbol (hc : c.Measures) (htext : c.text = front ++ q.symbol ++ behind) :
    step c piece blockPiece ⟨read, false, leading⟩
        ⟨.variable, byteLength front, byteLength front + byteLength q.symbol, false⟩ =
      pure ⟨.operand (.number (unitOf (.base q))) :: read, false, leading⟩ := by
  have hlookup : UnitTable.si.lookup q.symbol = some ⟨1, .base q⟩ := by cases q <;> rfl
  have hslice : slice c.text (byteLength front) (byteLength front + byteLength q.symbol) = q.symbol := by
    rw [htext, Text.slice_append]
  have hresolve (position : Nat) :
      c.scope.resolve c.env c.ambient q.symbol position = .ok (.number (unitOf (.base q))) := by
    simp only [Scope.resolve, hc.units, hc.table, if_true, hlookup]
    rfl
  simp only [step, Bool.false_eq_true, if_false, reduceCtorEq, operand, hslice, hresolve]
  rfl

theorem step_run (hrun : Flat.readRun ((Lexeme.lex 10 0 run).map Lexeme.token) = some (op, signed))
    (htext : c.text = front ++ run ++ behind) (hread : read ≠ []) :
    step c piece blockPiece ⟨read, false, leading⟩
        ⟨.operators, byteLength front, byteLength front + byteLength run, false⟩ =
      pure ⟨.operator op (c.offset + byteLength front) :: read, signed, leading⟩ := by
  have hslice : slice c.text (byteLength front) (byteLength front + byteLength run) = run := by
    rw [htext, Text.slice_append]
  have hempty : read.isEmpty = false := by simpa using hread
  simp only [step, Bool.false_eq_true, if_false, if_true, operators, hslice, hrun, hempty]
  rfl

private theorem step_digits (hc : c.Measures) (htext : c.text = front ++ digits n ++ behind) :
    step c piece blockPiece ⟨read, decide (n.toInt < 0), leading⟩
        ⟨.number, byteLength front, byteLength front + byteLength (digits n), false⟩ =
      pure ⟨.operand (.number (exponentOf n)) :: read, false, leading⟩ := by
  have hslice : slice c.text (byteLength front) (byteLength front + byteLength (digits n)) = digits n := by
    rw [htext, Text.slice_append]
  have hsign : (if decide (n.toInt < 0) = true then Flat.negate (.number (.real (Binary64.ofInt n.toInt.natAbs)))
      else .number (.real (Binary64.ofInt n.toInt.natAbs))) = Tree.number (exponentOf n) := by
    rw [exponentOf]
    by_cases hneg : n.toInt < 0
    · rw [if_pos (decide_eq_true hneg), if_pos hneg]
      rfl
    · rw [if_neg (by simpa using hneg), if_neg hneg]
  rw [← hsign]
  simp only [step, Bool.false_eq_true, if_false, reduceCtorEq, operand, hslice, hc.base, read_digits]
  rfl

/-- A factor leaves its items. -/
private theorem steps_factor (piece : PieceParser) (blockPiece : BlockPieceParser) (read : List Item)
    (leading : Option Nat)
    (hc : c.Measures) (htext : c.text = front ++ d.factor q ++ behind) :
    ∃ position, (Section.ofFactor (byteLength front) d q).foldlM (step c piece blockPiece) ⟨read, false, leading⟩ =
      pure ⟨(d.items q position).reverse ++ read, false, leading⟩ := by
  have hsymbol : c.text = front ++ q.symbol ++ (raised (d.exponent q) ++ behind) := by
    simp only [htext, factor, List.append_assoc]
  refine ⟨c.offset + byteLength (front ++ q.symbol), ?_⟩
  rw [Section.ofFactor, List.foldlM_cons, step_symbol hc hsymbol, pure_bind, items, Section.ofRaised]
  split
  · rfl
  · rename_i hone
    rw [raised_eq hone] at hsymbol
    have hrun : c.text = (front ++ q.symbol) ++ powerRun (d.exponent q) ++ (digits (d.exponent q) ++ behind) := by
      simp only [hsymbol, List.append_assoc]
    have hdigits : c.text =
        (front ++ q.symbol ++ powerRun (d.exponent q)) ++ digits (d.exponent q) ++ behind := by
      simp only [hsymbol, List.append_assoc]
    rw [← Text.byteLength_append, List.foldlM_cons, step_run (readRun_powerRun _) hrun (List.cons_ne_nil _ _),
      pure_bind, ← Text.byteLength_append, List.foldlM_cons, step_digits hc hdigits, pure_bind]
    rfl

private theorem multiplied_factors (d : Dimension) (qs : List BaseQuantity) :
    Multiplied (qs.flatMap fun q => '*' :: d.factor q) := by
  cases qs with
  | nil => nofun
  | cons q qs => exact fun c hc => (Option.some.inj hc).symm

/-- The sections of further factors, each behind its sign. -/
private theorem all_factors (limit o : Nat) (d : Dimension) (q : BaseQuantity) (qs : List BaseQuantity) :
    Section.all limit true (Lexeme.lex 10 o ((q :: qs).flatMap fun q => '*' :: d.factor q)) =
      ⟨.operators, o, o + 1, false⟩ :: Section.ofFactor (o + 1) d q ++
        Section.all limit true
          (Lexeme.lex 10 (o + 1 + byteLength (d.factor q)) (qs.flatMap fun q => '*' :: d.factor q)) := by
  have hmultiplied := multiplied_factors d qs
  rw [List.flatMap_cons, List.cons_append, Section.all_times hmultiplied, Section.all_factor hmultiplied,
    List.cons_append]

/-- Further factors are multiplied one after the other with what is before them. -/
private theorem steps_factors (piece : PieceParser) (blockPiece : BlockPieceParser) (hc : c.Measures)
    (qs : List BaseQuantity)
    (htext : c.text = front ++ qs.flatMap fun q => '*' :: d.factor q) (hg : Grouped read.reverse g)
    (hbinds : Binds 2 read.reverse) (limit : Nat) :
    ∃ read', (Section.all limit true (Lexeme.lex 10 (byteLength front) (qs.flatMap fun q => '*' :: d.factor q))).foldlM
        (step c piece blockPiece) ⟨read, false, none⟩ = pure ⟨read', false, none⟩ ∧
      Grouped read'.reverse (qs.foldl (fun g q => .node .mul g (d.grouping q)) g) := by
  induction qs generalizing front read g with
  | nil =>
    refine ⟨read, ?_, hg⟩
    rw [List.flatMap_nil, Lexeme.lex, Section.all_nil]
    rfl
  | cons q qs ih =>
    have hread : read ≠ [] := fun hread => hg.ne_nil (List.reverse_eq_nil_iff.mpr hread)
    have hstar : c.text = front ++ ['*'] ++ (d.factor q ++ qs.flatMap fun q => '*' :: d.factor q) := by
      rw [htext, List.flatMap_cons, List.append_assoc]
      rfl
    have hfactor : c.text = front ++ ['*'] ++ d.factor q ++ qs.flatMap fun q => '*' :: d.factor q := by
      rw [hstar, List.append_assoc _ (d.factor q)]
    have hrun : Flat.readRun ((Lexeme.lex 10 0 ['*']).map Lexeme.token) = some (.mul, false) := by
      rw [Lexeme.lex_alone (Lexeme.alone_of_mark (by decide)), Lexeme.lex]
      rfl
    have hsize : byteLength ['*'] = 1 := rfl
    have hsign : step c piece blockPiece ⟨read, false, none⟩
        ⟨.operators, byteLength front, byteLength front + 1, false⟩ =
          pure ⟨.operator .mul (c.offset + byteLength front) :: read, false, none⟩ := by
      rw [← hsize]
      exact step_run hrun hstar hread
    have hlength : byteLength front + 1 = byteLength (front ++ ['*']) := by rw [Text.byteLength_append, hsize]
    obtain ⟨position, hitems⟩ :=
      steps_factor piece blockPiece (.operator .mul (c.offset + byteLength front) :: read) none hc hfactor
    rw [all_factors, List.cons_append, List.foldlM_cons, hsign, pure_bind, List.foldlM_append, hlength, hitems,
      pure_bind, ← Text.byteLength_append]
    have hall : ((d.items q position).reverse ++ .operator .mul (c.offset + byteLength front) :: read).reverse =
        read.reverse ++ .operator .mul (c.offset + byteLength front) :: d.items q position := by
      simp
    refine ih (by rw [hfactor]) ?_ ?_
    · rw [hall]
      exact .split rfl hbinds (items_binds position) hg (items_grouped position)
    · rw [hall]
      intro op place hmem
      rcases List.mem_append.mp hmem with hmem | hmem
      · exact hbinds op place hmem
      · rcases List.mem_cons.mp hmem with hmem | hmem
        · obtain ⟨rfl, -⟩ := Flat.Item.operator.inj hmem
          exact le_rfl
        · exact (items_binds position op place hmem).trans' (by decide)

/-- A text of factors is their product. -/
theorem expression_factors (piece : PieceParser) (blockPiece : BlockPieceParser) (hc : c.Measures)
    (htext : c.text = Text.join ['*'] ((q :: qs).map d.factor)) :
    expression c piece blockPiece =
      pure (qs.foldl (fun g q => .node .mul g (d.grouping q)) (d.grouping q)).tree := by
  rw [join_factors] at htext
  have hfirst : c.text = [] ++ d.factor q ++ qs.flatMap fun q => '*' :: d.factor q := htext
  have hsections : Section.ofText c.ambient.base false 0 c.text = Section.ofFactor 0 d q ++
      Section.all (byteLength c.text) true
        (Lexeme.lex 10 (byteLength (d.factor q)) (qs.flatMap fun q => '*' :: d.factor q)) := by
    rw [Section.ofText, hc.base, Text.dropBytes]
    conv_lhs => rw [htext, Section.all_factor (multiplied_factors d qs), Nat.zero_add, ← htext]
  obtain ⟨position, hitems⟩ := steps_factor piece blockPiece [] none hc hfirst
  rw [List.append_nil] at hitems
  have hreverse : (d.items q position).reverse.reverse = d.items q position := List.reverse_reverse _
  obtain ⟨read, hread, hgrouped⟩ := steps_factors piece blockPiece hc qs htext
    (hreverse.symm ▸ items_grouped position) (hreverse.symm ▸ (items_binds position).weaken (by decide))
    (byteLength c.text)
  obtain ⟨item, items, rfl⟩ : ∃ item items, read = item :: items :=
    List.exists_cons_of_ne_nil fun hnil => hgrouped.ne_nil (List.reverse_eq_nil_iff.mpr hnil)
  rw [expression, hsections, List.foldlM_append]
  have hstart : (Section.ofFactor 0 d q).foldlM (step c piece blockPiece) {} = _ := hitems
  rw [hstart, pure_bind, hread, pure_bind]
  simp only [hgrouped.fold]
  rfl

end Parse

end Reckoner
