import Reckoner.Proofs.Accepted
import Reckoner.Proofs.Cutting.Boundary
import Reckoner.Proofs.Joining
import Reckoner.Proofs.Relocation.Block
import Mathlib.Data.List.TakeWhile

/-! Expressions put together from accepted ones. A parenthesis is read as what stands in it, and the arguments of
a call are found exactly where they were put, however they are cut into sections themselves. -/
namespace Reckoner

open Nesting (level)
open Text (byteLength)

namespace Text
variable {base : Nat} {e : Text} {es : List Text}

abbrev listed (es : List Text) : Text := join [','] es

inductive Separates : Char → Prop
  | comma : Separates ','
  | semicolon : Separates ';'

section
variable {c : Char} (hc : Separates c)
include hc

theorem Separates.utf8Size : c.utf8Size = 1 := by cases hc <;> rfl

private theorem Separates.breaks (t : Text) : Breaks (c :: t) := by
  intro d hd
  obtain rfl := Option.some.inj hd
  cases hc
  · exact .inr (.inr (.inr rfl))
  · exact .inl rfl

theorem Separates.lex (offset : Nat) (t : Text) :
    Lexeme.lex base offset (c :: t) = ⟨Lexeme.single c, offset, offset + 1⟩ :: Lexeme.lex base (offset + 1) t :=
  Lexeme.lex_bracket (by cases hc <;> simp) offset t

private theorem byteLength_join (e e' : Text) (es : List Text) :
    byteLength (join [c] (e :: e' :: es)) = byteLength e + 1 + byteLength (join [c] (e' :: es)) := by
  rw [join_cons, byteLength_append, byteLength_cons, hc.utf8Size, Nat.add_assoc]

end

def places (start : Nat) : List Text → List (Nat × Nat)
  | [] => []
  | e :: es => (start, start + byteLength e) :: places (start + byteLength e + 1) es

/-- At the places of the parts the parts stand. -/
theorem at_places {c : Char} (hc : Separates c) {t : Text} {start k : Nat} (h : t.At (k + start) (join [c] es)) :
    List.Forall₂ (fun p e => t.At (k + p.1) e ∧ p.2 = p.1 + byteLength e) (places start es) es := by
  induction es generalizing start with
  | nil => exact .nil
  | cons e es ih =>
    cases es with
    | nil =>
      rw [join_singleton] at h
      exact .cons ⟨h, rfl⟩ .nil
    | cons e' es =>
      rw [join_cons] at h
      refine .cons ⟨h.left, rfl⟩ (ih ?_)
      have hbehind := At.right (w := [c]) h.right
      rwa [byteLength_cons, hc.utf8Size, byteLength_nil, Nat.add_assoc, Nat.add_assoc, ← Nat.add_assoc start] at hbehind

/-- At the places of the parts the parts are found. -/
private theorem slice_places (front : Text) (es : List Text) (behind : Text) :
    (places (byteLength front) es).map (fun p => slice (front ++ listed es ++ behind) p.1 p.2) = es := by
  have hat : At (front ++ listed es ++ behind) (0 + byteLength front) (listed es) :=
    ⟨front, behind, rfl, (Nat.zero_add _).symm⟩
  rw [← List.forall₂_eq_eq_eq, List.forall₂_map_left_iff]
  refine (at_places .comma hat).imp fun p e hp => ?_
  obtain ⟨hpart, hstop⟩ := hp
  rw [Nat.zero_add] at hpart
  rw [hstop, hpart.slice]

def AllClosed (base : Nat) (es : List Text) : Prop :=
  ∀ e ∈ es, ∀ separator : Token, separator.separates → e.ClosedIn base separator

private theorem ClosedIn.whole {separator : Token} (h : e.ClosedIn base separator) (offset : Nat) :
    ∀ l ∈ Lexeme.lex base offset e, l.token ≠ .openString := by
  obtain ⟨b, h⟩ := h
  have hbroken : ((level false).feedAll (e.tokensIn base)).broken = false := by
    rw [h.leads.state]
    rfl
  intro l hl
  refine (Nesting.broken_of_feedAll hbroken).2 l.token ?_
  rw [← tokensIn_eq base offset]
  exact List.mem_map_of_mem hl

/-- The lexemes of the first part of a list, its separator and the lexemes of the rest. -/
private theorem lex_join {c : Char} (hc : Separates c) {separator : Token} (e e' : Text)
    (he : e.ClosedIn base separator)
    (es : List Text) (offset : Nat) :
    Lexeme.lex base offset (join [c] (e :: e' :: es)) =
      Lexeme.lex base offset e ++ ⟨Lexeme.single c, offset + byteLength e, offset + byteLength e + 1⟩ ::
        Lexeme.lex base (offset + byteLength e + 1) (join [c] (e' :: es)) := by
  rw [join_cons, Lexeme.lex_append (Lexeme.ends_of_breaks (hc.breaks _)) offset e (he.whole offset), hc.lex]

/-- A list of closed parts is closed, though for its commas. -/
theorem closedIn_listed (hes : AllClosed base es) : (listed es).ClosedIn base .semicolon := by
  induction es with
  | nil =>
    refine ⟨false, ?_⟩
    rw [← tokensIn_eq base 0, show listed [] = [] from rfl, Lexeme.lex]
    exact .nil false
  | cons e es ih =>
    obtain ⟨he, hothers⟩ := List.forall_mem_cons.mp hes
    cases es with
    | nil =>
      rw [listed, join_singleton]
      exact he .semicolon rfl
    | cons e' es =>
      obtain ⟨a, hfirst⟩ := he .semicolon rfl
      obtain ⟨b, hrest⟩ := ih hothers
      have hcomma : Nesting.Crosses .semicolon a [.comma] false := .plain rfl rfl (by decide) (by decide)
      refine ⟨b, ?_⟩
      rw [← tokensIn_eq base 0, lex_join .comma e e' (he .comma rfl), List.map_append, List.map_cons, tokensIn_eq,
        tokensIn_eq]
      exact hfirst.append (hcomma.append hrest)

/-- A list of closed parts is cut exactly between them. -/
theorem split_join {c : Char} (hc : Separates c) (hne : es ≠ [])
    (hes : ∀ e ∈ es, e.ClosedIn base (Lexeme.single c)) (start : Nat) :
    (level false).split (Lexeme.single c) (start + byteLength (join [c] es)) start (Lexeme.lex base start (join [c] es)) =
      places start es := by
  induction es generalizing start with
  | nil => exact absurd rfl hne
  | cons e es ih =>
    obtain ⟨he, hothers⟩ := List.forall_mem_cons.mp hes
    have ⟨b, hcrosses⟩ := he
    rw [← tokensIn_eq base start] at hcrosses
    cases es with
    | nil =>
      have hsplit := Nesting.split_append (start + byteLength e) start hcrosses.avoids []
      rw [List.append_nil] at hsplit
      rw [join_singleton, hsplit]
      rfl
    | cons e' es =>
      have hlimit : start + byteLength (join [c] (e :: e' :: es)) =
          start + byteLength e + 1 + byteLength (join [c] (e' :: es)) := by
        rw [byteLength_join hc]
        omega
      have hnext : (level b).feed (Lexeme.single c) = level false := by cases hc <;> rfl
      rw [hlimit, lex_join hc e e' he, Nesting.split_append _ _ hcrosses.avoids, hcrosses.leads.state, Nesting.split,
        hnext, if_pos ⟨rfl, rfl⟩, ih (List.cons_ne_nil _ _) hothers]
      rfl

theorem split_listed (hne : es ≠ []) (hes : AllClosed base es) (start : Nat) :
    (level false).split .comma (start + byteLength (listed es)) start (Lexeme.lex base start (listed es)) =
      places start es :=
  split_join .comma hne (fun e he => hes e he .comma rfl) start

/-- What has a visible character in it is not trimmed to nothing. -/
theorem trim_isEmpty {t : Text} (h : ∃ d ∈ t, isBlank d = false) : (trim t).isEmpty = false := by
  obtain ⟨d, hd, hvisible⟩ := h
  have hstart : d ∈ trimStart t := by
    rw [← takeWhile_append_trimStart t] at hd
    rcases List.mem_append.mp hd with hblank | hd
    · have hd := List.mem_takeWhile_imp hblank
      rw [hvisible] at hd
      exact nomatch hd
    · exact hd
  rw [List.isEmpty_eq_false_iff]
  intro hempty
  have hall := List.dropWhile_eq_nil_iff.mp (List.reverse_eq_nil_iff.mp hempty) d (List.mem_reverse.mpr hstart)
  rw [hvisible] at hall
  exact nomatch hall

end Text

namespace Section
variable {base : Nat} {separator : Token} {e : Text}

/-- A closed text in brackets is a group that ends at its own closing bracket. -/
private theorem group_enclosed {bracket : Token} {c : Char} (hbracket : bracket ≠ .less)
    (hcloser : bracket.closer = some (Lexeme.single c)) (hends : Lexeme.Ends c) (halone : Lexeme.Alone c)
    (he : e.ClosedIn base separator) (limit offset : Nat) :
    (Nesting.inside bracket).group limit (Lexeme.lex base offset (e ++ [c])) =
      ⟨offset + byteLength e + 1, false, []⟩ := by
  have hbehind : ∀ d ∈ [c].head?, Lexeme.Ends d := by
    intro d hd
    exact Option.some.inj hd ▸ hends
  obtain ⟨b, hcrosses⟩ := he
  have hleads := hcrosses.leads
  rw [← Text.tokensIn_eq base offset] at hleads
  rw [Lexeme.lex_append hbehind offset e (Text.ClosedIn.whole ⟨b, hcrosses⟩ offset), Lexeme.lex_alone halone,
    Lexeme.lex]
  exact Nesting.group_inside hbracket hcloser limit hleads _ _ []

/-- A closed text in parentheses is a group that ends at its own parenthesis. -/
private theorem group_closed (he : e.ClosedIn base separator) (limit offset : Nat) :
    (Nesting.inside .leftParen).group limit (Lexeme.lex base offset (e ++ [')'])) =
      ⟨offset + byteLength e + 1, false, []⟩ :=
  group_enclosed (by decide) rfl (Lexeme.ends_of_mark (by decide)) (Lexeme.alone_of_mark (by decide)) he limit offset

/-- A closed text in parentheses is one section. -/
private theorem ofText_parenthesis (he : e.ClosedIn base separator) :
    ofText base false 0 ('(' :: (e ++ [')'])) = [⟨.parenthesis, 0, 1 + byteLength e + 1, false⟩] := by
  unfold ofText
  rw [Text.dropBytes, Lexeme.lex_bracket (by simp)]
  have hnext : next (byteLength ('(' :: (e ++ [')']))) false
      (⟨Lexeme.single '(', 0, 0 + 1⟩ :: Lexeme.lex base (0 + 1) (e ++ [')'])) =
        some (⟨.parenthesis, 0, 1 + byteLength e + 1, false⟩, []) := by
    have hsingle : Lexeme.single '(' = .leftParen := rfl
    simp only [next, hsingle, parenthesized, group_closed he]
  rw [all_eq hnext, if_neg (by simp), all_nil]

/-- A closed text in square brackets is one section. -/
theorem ofText_square (he : e.ClosedIn base separator) :
    ofText base false 0 ('[' :: (e ++ [']'])) =
      [⟨.square (1 + byteLength e) none, 0, 1 + byteLength e + 1, false⟩] := by
  unfold ofText
  rw [Text.dropBytes, Lexeme.lex_alone (Lexeme.alone_of_mark (by decide))]
  have hgroup (limit : Nat) : (Nesting.inside .leftBracket).group limit (Lexeme.lex base (0 + 1) (e ++ [']'])) =
      ⟨0 + 1 + byteLength e + 1, false, []⟩ :=
    group_enclosed (by decide) rfl (Lexeme.ends_of_mark (by decide)) (Lexeme.alone_of_mark (by decide)) he limit _
  have hnext (limit : Nat) : next limit false (⟨Lexeme.single '[', 0, 0 + 1⟩ :: Lexeme.lex base (0 + 1) (e ++ [']'])) =
      some (⟨.square (1 + byteLength e) none, 0, 1 + byteLength e + 1, false⟩, []) := by
    have hsingle : Lexeme.single '[' = .leftBracket := rfl
    simp only [next, hsingle, square, hgroup]
    simp
  rw [all_eq (hnext _), if_neg (by simp), all_nil]

/-- A name before a closed text in parentheses is one section with them. -/
private theorem ofText_call {name : Text} (hname : name.IsName) (he : e.ClosedIn base separator) :
    ofText base false 0 (name ++ '(' :: (e ++ [')'])) =
      [⟨.call (byteLength name), 0, byteLength name + 1 + byteLength e + 1, false⟩] := by
  unfold ofText
  rw [Text.dropBytes, Lexeme.lex_name hname (by simp [Lexeme.isNameChar]), Lexeme.lex_bracket (by simp),
    Nat.zero_add]
  have hnext : next (byteLength (name ++ '(' :: (e ++ [')']))) false
      (⟨.identifier, 0, byteLength name⟩ :: ⟨Lexeme.single '(', byteLength name, byteLength name + 1⟩ ::
        Lexeme.lex base (byteLength name + 1) (e ++ [')'])) =
          some (⟨.call (byteLength name), 0, byteLength name + 1 + byteLength e + 1, false⟩, []) := by
    have hadjacent : adjacent .leftParen (byteLength name)
        ⟨Lexeme.single '(', byteLength name, byteLength name + 1⟩ = true := by
      simp [adjacent, Lexeme.single]
    simp only [next, named, hadjacent, if_true, grouped, group_closed he]
  rw [all_eq hnext, if_neg (by simp), all_nil]

end Section

namespace Parse
variable {c : Context} {piece : PieceParser} {blockPiece : BlockPieceParser} {s : Section}

/-- An expression of one section is its operand. -/
theorem expression_single (h : Section.ofText c.ambient.base false 0 c.text = [s]) (hb : s.broken = false)
    (hk : s.kind ≠ .operators) : expression c piece blockPiece = operand c piece blockPiece s := by
  unfold expression
  rw [h, List.foldlM_cons]
  simp only [List.foldlM_nil, step, hb, Bool.false_eq_true, if_false, if_neg hk, bind_assoc, pure_bind, bind_pure]
  conv_rhs => rw [← bind_pure (operand c piece blockPiece s)]
  rfl

/-- The arguments of a call stand where they were put. -/
theorem argumentPieces_listed {before stop : Nat} {es : List Text} (hne : es ≠ [])
    (hes : ∀ e ∈ es, Acceptable c.ambient.base e)
    (hinner : Text.slice c.text (before + 1) stop = Text.listed es) :
    argumentPieces c before stop = (Text.places 0 es).map fun p => (before + p.1, before + 1 + p.2) := by
  have hvisible : (Text.trim (Text.listed es)).isEmpty = false := by
    obtain ⟨e, es, rfl⟩ := List.exists_cons_of_ne_nil hne
    obtain ⟨d, hd, hblank⟩ := (hes e List.mem_cons_self).visible
    refine Text.trim_isEmpty ⟨d, ?_, hblank⟩
    cases es with
    | nil => simpa [Text.listed, Text.join_singleton] using hd
    | cons e' es =>
      rw [Text.listed, Text.join_cons]
      exact List.mem_append_left _ hd
  have hsplit := Text.split_listed hne (fun e he => (hes e he).closed) 0
  rw [Nat.zero_add] at hsplit
  unfold argumentPieces
  simp only [hinner, hvisible, Bool.false_eq_true, if_false]
  rw [Text.splitOutside]
  exact congrArg _ hsplit

end Parse

abbrev Text.grouped (e : Text) : Text := '(' :: (e ++ [')'])

section
variable {env : Environment} {scope : Scope} {ambient : Ambient}

/-- A group is parsed as what stands in it. -/
private theorem parseExpression_grouped {e : Text} (he : Parse.Acceptable ambient.base e) (offset : Nat) :
    Parse.Same (parseExpression env (Text.grouped e) offset scope ambient)
      (parseExpression env e 0 scope ambient) := by
  have hslice : Text.slice (Text.grouped e) 1 (1 + byteLength e) = e := Text.slice_append ['('] e [')']
  rw [parseExpression, dif_neg (List.cons_ne_nil _ _),
    Parse.expression_single (Section.ofText_parenthesis (he.closed .comma rfl)) rfl (by simp)]
  simp only [Parse.operand, Nat.zero_add, Nat.add_sub_cancel, hslice]
  exact parseExpression_same env e _ _ ⟨rfl, rfl, rfl⟩ ambient

/-- A call is parsed as its arguments, one after the other. -/
private theorem parseExpression_call {name : Text} (hname : name.IsName) {es : List Text} (hne : es ≠ [])
    (hes : ∀ e ∈ es, Parse.Acceptable ambient.base e) {offset : Nat} {callee : Scope.Callee}
    (hcallee : scope.callee env name es.length offset = .ok callee) :
    Parse.Same (parseExpression env (name ++ Text.grouped (Text.listed es)) offset scope ambient)
      (do return callee.apply (← es.mapM fun e => parseExpression env e 0 scope ambient)) := by
  have hclosed := Text.closedIn_listed fun e he => (hes e he).closed
  have hfront : name ++ Text.grouped (Text.listed es) = (name ++ ['(']) ++ (Text.listed es ++ [')']) := by simp
  have hlength : byteLength (name ++ ['(']) = byteLength name + 1 := Text.byteLength_append name ['(']
  have hslice (a b : Nat) : Text.slice (name ++ Text.grouped (Text.listed es)) (byteLength name + 1 + a)
      (byteLength name + 1 + b) = Text.slice (Text.listed es ++ [')']) a b := by
    rw [hfront, ← hlength, Text.slice_append_left]
  have hname' : Text.slice (name ++ Text.grouped (Text.listed es)) 0 (byteLength name) = name :=
    Text.slice_front name _
  have hinner : Text.slice (name ++ Text.grouped (Text.listed es)) (byteLength name + 1)
      (byteLength name + 1 + byteLength (Text.listed es)) = Text.listed es :=
    (hslice 0 _).trans (Text.slice_front _ _)
  have hplaces : (Text.places 0 es).map (fun p => Text.slice (Text.listed es ++ [')']) p.1 p.2) = es :=
    Text.slice_places [] es [')']
  have hcount : (Text.places 0 es).length = es.length := by
    rw [← List.length_map, hplaces]
  rw [parseExpression, dif_neg (by simp), Parse.expression_single (Section.ofText_call hname hclosed) rfl (by simp)]
  simp only [Parse.operand, Parse.call, Nat.add_sub_cancel]
  rw [Parse.argumentPieces_listed hne hes hinner, List.length_map, hcount, hname', Nat.add_zero, hcallee]
  have hread : (es.mapM fun e => parseExpression env e 0 scope ambient) = (Text.places 0 es).mapM fun p =>
      parseExpression env (Text.slice (Text.listed es ++ [')']) p.1 p.2) 0 scope ambient := by
    conv_lhs => rw [← hplaces, List.mapM_map]
    rfl
  rw [hread]
  refine Agree.bind (R := Eq) (Agree.mapM fun p _ => ?_) fun args _ hargs => hargs ▸ Agree.pure rfl
  have hpiece : byteLength name + p.1 + 1 = byteLength name + 1 + p.1 := by omega
  simp only
  rw [hpiece, hslice]
  exact parseExpression_same env _ _ _ ⟨rfl, rfl, rfl⟩ ambient

end

/-- A group of an expression that is accepted on its own is accepted with the same tree; and so is a call of
expressions that are accepted one by one, with exactly their trees as its arguments. The list of arguments is cut
at its commas into just these expressions. -/
theorem parseExpression_compositional (env : Environment) (scope : Scope) (ambient : Ambient) (offset : Nat)
    (supply supply' : Supply) :
    (∀ e t, (parseExpression env e 0 scope ambient).run.run supply = (.ok t, supply') →
      (parseExpression env (Text.grouped e) offset scope ambient).run.run supply = (.ok t, supply')) ∧
    ∀ (name : Text) (es : List Text) (ts : List Tree) (callee : Scope.Callee), name.IsName → es ≠ [] →
      scope.callee env name es.length offset = .ok callee →
      (es.mapM fun e => parseExpression env e 0 scope ambient).run.run supply = (.ok ts, supply') →
      (parseExpression env (name ++ Text.grouped (Text.listed es)) offset scope ambient).run.run supply =
          (.ok (callee.apply ts), supply') ∧
        (Text.splitOutside ambient.base .comma (Text.listed es)).map
          (fun p => Text.slice (Text.listed es) p.1 p.2) = es := by
  constructor
  · intro e t hparse
    have he := (parseExpression_acceptable env e 0 scope ambient supply trivial).2
    rw [hparse] at he
    exact (parseExpression_grouped he offset).run_eq hparse
  · intro name es ts callee hname hne hcallee hparse
    have haccept : Always (fun _ => True) (es.mapM fun e => parseExpression env e 0 scope ambient) fun _ =>
        ∀ e ∈ es, Parse.Acceptable ambient.base e :=
      Keeps.mapM_forall fun e _ => parseExpression_acceptable env e 0 scope ambient
    have hes := (haccept supply trivial).2
    rw [hparse] at hes
    refine ⟨(parseExpression_call hname hne hes hcallee).run_eq ?_, ?_⟩
    · rw [run_bind, hparse]
      rfl
    · have hsplit := Text.split_listed hne (fun e he => (hes e he).closed) 0
      have hslices := Text.slice_places [] es []
      rw [Nat.zero_add] at hsplit
      rw [Text.splitOutside]
      refine (congrArg _ hsplit).trans ?_
      simpa using hslices

/-- A vector with a comma of its own stays one argument. -/
theorem parseExpression_compositional_vector :
    let env : Environment := { units := .empty }
    let scope : Scope := { params := ["x".toList, "f".toList] }
    let vector : Tree := .vector 2 1 [.argument 0, .argument 0]
    (parseExpression env "(<x,x>x)".toList 3 scope {}).run.run {} =
        (.ok (.builtin .mul [vector, .argument 0]), {}) ∧
      (parseExpression env "f(x,<x,x>)".toList 3 scope {}).run.run {} =
        (.ok (.builtin .run [.argument 1, .argument 0, vector]), {}) := by
  intro env scope vector
  obtain ⟨hgroup, hcall⟩ := parseExpression_compositional env scope {} 3 {} {}
  have hvector : (parseExpression { units := .empty } "<x,x>x".toList 0 { params := ["x".toList, "f".toList] }
      {}).run.run {} = (.ok (.builtin .mul [.vector 2 1 [.argument 0, .argument 0], .argument 0]), {}) := by
    unfold parseExpression parseExpression
    with_unfolding_all rfl
  have hargs : (["x".toList, "<x,x>".toList].mapM fun e =>
      parseExpression { units := .empty } e 0 { params := ["x".toList, "f".toList] } {}).run.run {} =
        (.ok [.argument 0, .vector 2 1 [.argument 0, .argument 0]], {}) := by
    unfold parseExpression parseExpression
    with_unfolding_all rfl
  have hname : Text.IsName "f".toList := by decide
  refine ⟨hgroup "<x,x>x".toList _ hvector, ?_⟩
  exact (hcall "f".toList _ _ (.value (.argument 1)) hname (by simp) rfl hargs).1

end Reckoner
