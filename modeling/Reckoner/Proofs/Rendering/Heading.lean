import Reckoner.Proofs.Composition
import Reckoner.Proofs.Rendering.Registered
import Reckoner.Proofs.Rendering.Steady

/-! The line that defines a function, read back. The `=` behind the parameters is the first one outside of brackets,
and in front of it stand the name and the parameters that were written. -/
namespace Reckoner

open Nesting (level)
open Render (application parenthesized)
open Text (byteLength listed)

/-- A search goes on behind a bracket group, whatever stands in it. -/
private theorem Nesting.find_group {separator : Token} (hs : separator.separates) {a : Bool} (first : Lexeme)
    {ls rest : List Lexeme} (ho : (level a).opens first.token) {limit stop : Nat}
    (hg : (inside first.token).group limit ls = ⟨stop, false, rest⟩) :
    (level a).find separator limit (first :: ls) = (level true).find separator limit rest := by
  obtain ⟨taken, htaken, hcrosses⟩ := Section.group_crosses hs ho (congrArg Group.broken hg)
  rw [htaken, find_append limit hcrosses.avoids, hcrosses.leads.state, hg]

namespace Text
variable {name t : Text} {es : List Text}

def EndsVisibly (t : Text) : Prop := ∃ front c, t = front ++ [c] ∧ isBlank c = false

theorem EndsVisibly.append (h : t.EndsVisibly) (s : Text) : EndsVisibly (s ++ t) := by
  obtain ⟨front, c, rfl, hc⟩ := h
  exact ⟨s ++ front, c, by rw [List.append_assoc], hc⟩

theorem EndsVisibly.trimEnd (h : t.EndsVisibly) : trimEnd t = t := by
  obtain ⟨front, c, rfl, hc⟩ := h
  rw [Text.trimEnd, List.reverse_append, List.reverse_singleton, List.singleton_append,
    List.dropWhile_cons_of_neg (by rw [hc]; decide), List.reverse_cons, List.reverse_reverse]

theorem trim_eq_self (hfirst : ∀ c ∈ t.head?, isBlank c = false) (hlast : t.EndsVisibly) : trim t = t := by
  have hstart : trimStart t = t := by
    cases t with
    | nil => rfl
    | cons c rest => exact List.dropWhile_cons_of_neg (by rw [hfirst c rfl]; decide)
  rw [trim, hstart, hlast.trimEnd]

private theorem mem_listed {c : Char} (h : c ∈ listed es) : c = ',' ∨ ∃ e ∈ es, c ∈ e := by
  induction es with
  | nil => cases h
  | cons e es ih =>
    cases es with
    | nil =>
      rw [listed, join_singleton] at h
      exact .inr ⟨e, List.mem_cons_self, h⟩
    | cons e' es =>
      rw [listed, join_cons, List.mem_append, List.mem_cons] at h
      rcases h with h | rfl | h
      · exact .inr ⟨e, List.mem_cons_self, h⟩
      · exact .inl rfl
      · refine (ih h).imp_right fun hlater => ?_
        obtain ⟨later, hmem, hc⟩ := hlater
        exact ⟨later, List.mem_cons_of_mem _ hmem, hc⟩

private theorem pieces_append {separator : Char} (h : separator ∉ t) (r : Text) :
    pieces separator (t ++ separator :: r) = t :: pieces separator r := by
  induction t with
  | nil => rw [List.nil_append, pieces, if_pos rfl]
  | cons c t ih =>
    obtain ⟨hc, ht⟩ := List.ne_and_not_mem_of_not_mem_cons h
    rw [List.cons_append, pieces, if_neg hc.symm, ih ht]

/-- A list of parts without commas is cut at its commas into these parts. -/
theorem pieces_listed (hne : es ≠ []) (h : ∀ e ∈ es, ',' ∉ e) : pieces ',' (listed es) = es := by
  induction es with
  | nil => exact absurd rfl hne
  | cons e es ih =>
    obtain ⟨he, hothers⟩ := List.forall_mem_cons.mp h
    cases es with
    | nil => rw [listed, join_singleton, pieces_eq_self he]
    | cons e' es => rw [listed, join_cons, pieces_append he, ih (List.cons_ne_nil _ _) hothers]

namespace IsName

theorem ne_nil (hn : name.IsName) : name ≠ [] := by
  rintro rfl
  exact hn

theorem not_mem (hn : name.IsName) {c : Char} (hc : Lexeme.isNameChar c = false) : c ∉ name := by
  intro hmem
  rw [hn.isNameChar c hmem] at hc
  cases hc

theorem trim (hn : name.IsName) : Text.trim name = name := by
  have htrim := @trim_name_append name [] hn nofun
  rwa [List.append_nil] at htrim

/-- A name closes what it opens, whatever it is cut at. -/
private theorem closedIn (hn : name.IsName) {separator : Token} (hs : separator.separates) (base : Nat) :
    name.ClosedIn base separator := by
  have htokens : name.tokensIn base = [.identifier] := by
    have hlex := @Lexeme.lex_name base name [] hn nofun 0
    rw [List.append_nil, Lexeme.lex] at hlex
    rw [tokensIn, hlex]
    rfl
  have hplain : Nesting.Crosses separator false [Token.identifier] true :=
    .plain rfl rfl (Section.ne_separator hs rfl) (by decide)
  exact ⟨true, htokens ▸ hplain⟩

end IsName

/-- A list of names closes what it opens. -/
theorem steady_listed (h : ∀ e ∈ es, e.IsName) : (listed es).Steady false := by
  have hclosed : AllClosed 10 es := fun e he _ hs => (h e he).closedIn hs 10
  obtain ⟨b, hcrosses⟩ := closedIn_listed hclosed
  exact ⟨b, hcrosses.leads⟩

end Text

namespace Session
variable {name t : Text} {params : List Text}

section
variable (hn : name.IsName)
include hn

/-- The line deletes nothing: what stands behind its first word is no blank. -/
private theorem deletion?_definition (params : List Text) (r : Text) :
    deletion? (application name params ++ r) = none := by
  rw [deletion?, if_neg]
  rintro ⟨hstarts, hblank⟩
  obtain ⟨rest, hrest⟩ := List.isPrefixOf_iff_prefix.mp hstarts
  rw [← hrest, List.drop_left] at hblank
  have hparen : ∀ d ∈ (parenthesized (listed params) ++ r).head?, Lexeme.isNameChar d = false := by
    intro d hd
    exact Option.some.inj hd ▸ rfl
  have hend : ∀ d ∈ rest.head?, Lexeme.isNameChar d = false := by
    intro d hd
    rw [← Bool.not_eq_true]
    intro hc
    rw [hd, Option.any_some, Text.isBlank_of_isNameChar hc] at hblank
    cases hblank
  -- both are the first run of name characters of the line
  have hword : (application name params ++ r).takeWhile Lexeme.isNameChar = name := by
    rw [application, List.append_assoc, Lexeme.takeWhile_append_breaks hparen,
      List.takeWhile_eq_self_iff.mpr fun c hc => hn.isNameChar c hc]
  rw [← hrest, Lexeme.takeWhile_append_breaks hend] at hword
  obtain rfl : "delete".toList = name := hword
  rw [application, List.append_assoc] at hrest
  rw [List.append_cancel_left hrest] at hblank
  have hopening : Text.isBlank '(' = true := hblank
  exact absurd hopening (by decide)

variable (hp : ∀ param ∈ params, param.IsName)
include hp

/-- No blank stands among the name and the parameters. -/
private theorem application_visible : ∀ c ∈ application name params, Text.isBlank c = false := by
  intro c hc
  rw [application, parenthesized] at hc
  simp only [List.cons_append, List.mem_append, List.mem_cons, List.not_mem_nil, or_false] at hc
  rcases hc with hc | rfl | hc | rfl
  · exact Text.isBlank_of_isNameChar (hn.isNameChar c hc)
  · decide
  · rcases Text.mem_listed hc with rfl | ⟨param, hparam, hc⟩
    · decide
    · exact Text.isBlank_of_isNameChar ((hp param hparam).isNameChar c hc)
  · decide

/-- The first `=` outside of brackets is the one behind the parameters. -/
private theorem findOutside_definition (t : Text) :
    Text.findOutside .assign (application name params ++ " = ".toList ++ t) =
      byteLength (application name params) + 1 := by
  have hsplit : application name params ++ " = ".toList ++ t =
      name ++ ('(' :: listed params ++ [')'] ++ ' ' :: '=' :: ' ' :: t) := by simp [application, parenthesized]
  have hparen : ∀ d ∈ ('(' :: listed params ++ [')'] ++ ' ' :: '=' :: ' ' :: t).head?, Lexeme.isNameChar d = false := by
    intro d hd
    exact Option.some.inj hd ▸ rfl
  have hblank : ∀ d ∈ (' ' :: t).head?, d ≠ '=' ∧ d ≠ '>' := by
    intro d hd
    exact Option.some.inj hd ▸ by decide
  have hsteady := Text.steady_listed hp
  have hname : Nesting.outside.feed .identifier = level true := rfl
  have hplain : Token.identifier ≠ .assign := by decide
  unfold Text.findOutside
  rw [hsplit, Lexeme.lex_name hn hparen, Text.lex_group .parentheses hsteady.whole, Lexeme.lex_space,
    Lexeme.lex_assign hblank, Nat.zero_add]
  obtain ⟨b, hleads⟩ := hsteady
  rw [← Text.tokens_eq (byteLength name + 1)] at hleads
  have hgroup (limit start stop : Nat) (rest : List Lexeme) : (Nesting.inside (Lexeme.single '(')).group limit
      (Lexeme.lex 10 (byteLength name + 1) (listed params) ++ ⟨Lexeme.single ')', start, stop⟩ :: rest) =
        ⟨stop, false, rest⟩ :=
    Nesting.group_inside (by decide) rfl limit hleads start stop rest
  rw [Nesting.find, if_neg fun h => hplain h.2, hname]
  rw [Nesting.find_group rfl ⟨Lexeme.single '(', byteLength name, byteLength name + 1⟩ rfl (hgroup _ _ _ _)]
  rw [Nesting.find, if_pos ⟨rfl, rfl⟩]
  exact congrArg (· + 1) (Text.byteLength_append name _).symm

/-- The name and the parameters are read back. -/
private theorem signature?_application : signature? (application name params) = some (name, params) := by
  have hcut : Text.cut (· == '(') (application name params) = some (name, listed params ++ [')']) := by
    refine Text.cut_append (fun c hc => ?_) rfl
    rw [beq_eq_false_iff_ne]
    rintro rfl
    exact hn.not_mem rfl hc
  have hlast : Text.EndsVisibly (listed params ++ [')']) := ⟨listed params, ')', rfl, by decide⟩
  have hstrip : Text.stripLast ')' (listed params ++ [')']) = some (listed params) := by
    rw [Text.stripLast, List.getLast?_concat, if_pos rfl, List.dropLast_concat]
  have hread : ((Text.pieces ',' (listed params)).map Text.trim).filter (fun param => !param.isEmpty) = params := by
    cases params with
    | nil => rfl
    | cons param others =>
      have htrim : (param :: others).map Text.trim = param :: others := by
        conv_rhs => rw [← List.map_id (param :: others)]
        exact List.map_congr_left fun param hparam => (hp param hparam).trim
      rw [Text.pieces_listed (List.cons_ne_nil _ _) fun param hparam => (hp param hparam).not_mem rfl, htrim,
        List.filter_eq_self]
      intro param hparam
      rw [List.isEmpty_eq_false_iff.mpr (hp param hparam).ne_nil]
      rfl
  simp only [signature?, hcut, Option.bind_eq_bind, Option.bind_some, hlast.trimEnd, hstrip, hn.trim, hread]
  rfl

/-- The line is executed as the definition that is written in it. -/
private theorem execute_definition (ht : t.EndsVisibly) :
    execute (application name params ++ " = ".toList ++ t) = (do
      let _ ← defineFunction name params (' ' :: t)
      return none) := by
  have hline : application name params ++ " = ".toList ++ t =
      (application name params ++ [' ']) ++ '=' :: (' ' :: t) := by simp
  have hequals := findOutside_definition hn hp t
  have hlength : byteLength (application name params) + 1 = byteLength (application name params ++ [' ']) :=
    (Text.byteLength_append _ [' ']).symm
  have hhead : ∀ c ∈ (application name params ++ " = ".toList ++ t).head?, Lexeme.isNameChar c := by
    obtain ⟨d, rest, rfl⟩ := List.exists_cons_of_ne_nil hn.ne_nil
    intro c hc
    exact Option.some.inj hc ▸ hn.isNameChar d List.mem_cons_self
  have htrim : Text.trim (application name params ++ " = ".toList ++ t) = application name params ++ " = ".toList ++ t :=
    Text.trim_eq_self (fun c hc => Text.isBlank_of_isNameChar (hhead c hc)) (ht.append _)
  have hcomment : ((application name params ++ " = ".toList ++ t).isEmpty ||
      (application name params ++ " = ".toList ++ t).head? == some '#') = false := by
    rw [Bool.or_eq_false_iff, beq_eq_false_iff_ne]
    refine ⟨by simp, fun hhash => ?_⟩
    exact absurd (hhead '#' hhash) (by decide)
  have hdeletion : deletion? (application name params ++ " = ".toList ++ t) = none := by
    rw [List.append_assoc]
    exact deletion?_definition hn _ _
  have hshort : byteLength (application name params) + 1 ≠ byteLength (application name params ++ " = ".toList ++ t) := by
    have hsize : '='.utf8Size = 1 := rfl
    rw [hlength, hline, Text.byteLength_append _ ('=' :: _), Text.byteLength_cons, hsize]
    omega
  have hfront : Text.trim (Text.takeBytes (byteLength (application name params) + 1)
      (application name params ++ " = ".toList ++ t)) = application name params := by
    rw [hlength, hline, Text.takeBytes_byteLength]
    refine @Text.trim_padded [] _ _ nofun (application_visible hn hp) fun c hc => ?_
    rw [List.mem_singleton.mp hc]
    decide
  have hbehind : Text.dropBytes (byteLength (application name params) + 1 + 1)
      (application name params ++ " = ".toList ++ t) = ' ' :: t := by
    rw [hlength, hline]
    exact Text.dropBytes_append _ _ 1
  unfold execute
  simp only [htrim, hcomment, hdeletion, hequals, hfront, hbehind, signature?_application hn hp]
  rw [if_neg (by decide), if_neg hshort]

end

/-- Parameters that may be defined have names that may be theirs. -/
theorem nameable_of_checkParams {seen : List Text} (h : checkParams seen params = .ok ()) :
    ∀ param ∈ params, param.Nameable := by
  induction params generalizing seen with
  | nil => nofun
  | cons param params ih =>
    rw [checkParams] at h
    split at h
    · cases h
    rename_i hkeyword
    split at h
    · cases h
    rename_i hidentifier
    simp only [Bool.or_eq_true, Bool.not_eq_true', not_or, Bool.not_eq_false] at hidentifier
    exact List.forall_mem_cons.mpr
      ⟨⟨Text.isName_of_isIdentifier hidentifier.1, Bool.not_eq_true _ ▸ hkeyword⟩, ih h⟩

/-- The body of a definition, in which the function that is being defined has the slot that it will have. -/
def definedBody (env : Environment) (name : Text) (params : List Text) (body : Text) : Parse Block :=
  parseBody env (.function params (some ⟨name, env.functions.reserve name, params.length⟩)) body

section
variable (hn : checkDefinable name = .ok ()) (hp : checkParams [] params = .ok ())
include hn hp

/-- A definition registers the body that is parsed; when none is, it fails and registers nothing. -/
theorem run_defineFunction (body : Text) (s : Session) :
    (defineFunction name params body).run.run s =
      match (definedBody s.env name params body).run.run s.supply with
      | (.ok code, supply) => (.ok (s.env.functions.reserve name),
        ⟨{ s.env with functions := s.env.functions.insert (s.env.functions.reserve name) name ⟨params, code⟩ }, supply⟩)
      | (.error e, supply) => (.error (.parse e), { s with supply }) := by
  let scope : Scope := .function params (some ⟨name, s.env.functions.reserve name, params.length⟩)
  unfold defineFunction
  rw [hn, hp]
  change (parsing (fun env => parseBody env scope body) >>= fun code => _).run.run s = _
  rw [run_bind, run_parsing, definedBody]
  rcases (parseBody s.env scope body).run.run s.supply with ⟨e | code, supply⟩
  · rfl
  · rfl

/-- What comes of a line that defines a function with the given text for its body. -/
theorem run_execute_definition (ht : t.EndsVisibly) (s : Session) :
    (execute (application name params ++ " = ".toList ++ t)).run.run s =
      match (definedBody s.env name params (' ' :: t)).run.run s.supply with
      | (.ok code, supply) => (.ok none,
        ⟨{ s.env with functions := s.env.functions.insert (s.env.functions.reserve name) name ⟨params, code⟩ }, supply⟩)
      | (.error e, supply) => (.error (.parse e), { s with supply }) := by
  have hnames : ∀ param ∈ params, param.IsName := fun param hparam => (nameable_of_checkParams hp param hparam).1
  rw [execute_definition (nameable_of_checkDefinable hn).1 hnames ht, run_bind, run_defineFunction hn hp]
  rcases (definedBody s.env name params (' ' :: t)).run.run s.supply with ⟨e | code, supply⟩
  · rfl
  · rfl

end

end Session
end Reckoner
