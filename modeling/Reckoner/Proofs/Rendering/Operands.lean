import Reckoner.Proofs.Composition
import Reckoner.Proofs.Dimension.Factors
import Reckoner.Proofs.Literals.Value
import Reckoner.Proofs.Rendering.Recovery

/-! Texts that are one operand wherever an operand is expected: numbers, names, strings, groups, calls and vectors.
Whatever operator follows, the text is cut off as one section, and no bracket around it is touched. -/
namespace Reckoner

open Nesting (level)
open Text (byteLength)

namespace Nesting

def Within (st : List Token) (n : Nesting) : List Token → Prop
  | [] => True
  | t :: ts => st <:+ (n.feed t).opened ∧ Within st (n.feed t) ts

structure Passes (st : List Token) (n : Nesting) (ts : List Token) (n' : Nesting) : Prop where
  within : Within st n ts
  state : n.feedAll ts = n'

variable {n n' m : Nesting} {st st' : List Token} {t : Token} {ts us : List Token}

namespace Passes

private theorem nil (st : List Token) (n : Nesting) : Passes st n [] n := ⟨trivial, rfl⟩

private theorem cons (h : st <:+ (n.feed t).opened) (ht : Passes st (n.feed t) ts n') : Passes st n (t :: ts) n' :=
  ⟨⟨h, ht.within⟩, ht.state⟩

private theorem append (ht : Passes st n ts m) (hu : Passes st m us n') : Passes st n (ts ++ us) n' := by
  induction ts generalizing n with
  | nil => exact (show n = m from ht.state) ▸ hu
  | cons t ts ih => exact .cons ht.within.1 (ih ⟨ht.within.2, ht.state⟩)

private theorem weaken (hst : st <:+ st') (h : Passes st' n ts n') : Passes st n ts n' := by
  induction ts generalizing n with
  | nil => exact ⟨trivial, h.state⟩
  | cons t ts ih => exact .cons (hst.trans h.within.1) (ih ⟨h.within.2, h.state⟩)

end Passes

/-- A group goes on behind tokens that leave its brackets alone. -/
private theorem group_passes (hst : st ≠ []) (limit : Nat) {ls : List Lexeme} (h : Passes st n (ls.map Lexeme.token) n')
    (rest : List Lexeme) : n.group limit (ls ++ rest) = n'.group limit rest := by
  induction ls generalizing n with
  | nil => exact (show n = n' from h.state) ▸ rfl
  | cons l ls ih =>
    have hopen : (n.feed l.token).opened.isEmpty = false := by
      rw [List.isEmpty_eq_false_iff]
      intro hnil
      exact hst (List.suffix_nil.mp (hnil ▸ h.within.1))
    rw [List.cons_append, group, hopen]
    exact ih ⟨h.within.2, h.state⟩

/-- What closes no bracket around it passes inside of any brackets but those of a vector. -/
private theorem Leads.passes (hst : st.head? ≠ some .less) (h : n.Leads ts n') :
    Passes st (n.under st) ts (n'.under st) := by
  induction ts generalizing n with
  | nil => exact (show n = n' from h.state) ▸ .nil st _
  | cons t ts ih =>
    have hfeed := feed_under hst h.closed.1
    refine .cons ?_ ?_
    · rw [hfeed]
      exact List.suffix_append _ _
    · rw [hfeed]
      exact ih ⟨h.closed.2, h.state⟩

/-- A bracket group leaves the brackets around it alone. -/
private theorem passes_group {c d : Char} (hp : Text.Partners c d) (a : Bool) {b : Bool}
    (h : (level false).Leads ts (level b)) (st : List Token) :
    Passes st ((level a).under st) (Lexeme.single c :: ts ++ [Lexeme.single d]) ((level true).under st) := by
  have hless : (Lexeme.single c :: st).head? ≠ some .less := by cases hp <;> nofun
  have hopen : ((level a).under st).feed (Lexeme.single c) = (level false).under (Lexeme.single c :: st) := by
    cases hp <;> rfl
  have hclose : ((level b).under (Lexeme.single c :: st)).feed (Lexeme.single d) = (level true).under st := by
    cases hp <;> rfl
  have hinner : Passes st ((level false).under (Lexeme.single c :: st)) ts ((level b).under (Lexeme.single c :: st)) :=
    (h.passes hless).weaken (List.suffix_cons _ _)
  have hlast : Passes st ((level b).under (Lexeme.single c :: st)) [Lexeme.single d] ((level true).under st) :=
    .cons (by rw [hclose]; exact List.suffix_refl st) (hclose ▸ .nil st _)
  refine .cons ?_ ?_
  · rw [hopen]
    exact List.suffix_cons _ _
  · rw [hopen]
    exact hinner.append hlast

/-- Inside of any brackets the tokens lead from where an operand is expected to behind one, and leave those brackets
alone. -/
def Compact (ts : List Token) : Prop := ∀ st, Passes st ((level false).under st) ts ((level true).under st)

namespace Compact

private theorem token (ht : t.endsOperand) : Compact [t] := by
  intro st
  have hfeed : ((level false).under st).feed t = (level true).under st := by
    cases t <;> first | rfl | exact absurd ht (by decide)
  exact .cons (by rw [hfeed]; exact List.suffix_refl st) (hfeed ▸ .nil st _)

private theorem group {c d : Char} (hp : Text.Partners c d) {b : Bool} (h : (level false).Leads ts (level b)) :
    Compact (Lexeme.single c :: ts ++ [Lexeme.single d]) := passes_group hp false h

private theorem call {c d : Char} (hp : Text.Partners c d) {b : Bool} (h : (level false).Leads ts (level b)) :
    Compact (.identifier :: (Lexeme.single c :: ts ++ [Lexeme.single d])) := fun st =>
  .cons (List.suffix_refl st) (passes_group hp true h st)

/-- A vector is closed by its own bracket. -/
private theorem vector (h : Compact ts) : Compact (.less :: ts ++ [.greater]) := by
  intro st
  have hclose : ((level true).under (.less :: st)).feed .greater = (level true).under st := rfl
  have hlast : Passes st ((level true).under (.less :: st)) [.greater] ((level true).under st) :=
    .cons (by rw [hclose]; exact List.suffix_refl st) (hclose ▸ .nil st _)
  exact .cons (List.suffix_cons _ st) (((h (.less :: st)).weaken (List.suffix_cons _ st)).append hlast)

/-- Two parts with a separator between them. -/
private theorem separated (ht : Compact ts) {t : Token} (hs : t = .comma ∨ t = .semicolon) (hu : Compact us) :
    Compact (ts ++ t :: us) := by
  intro st
  have hfeed : ((level true).under st).feed t = (level false).under st := by
    rcases hs with rfl | rfl <;> rfl
  refine (ht st).append (.cons ?_ ?_)
  · rw [hfeed]
    exact List.suffix_refl st
  · rw [hfeed]
    exact hu st

end Compact
end Nesting

namespace Text

theorem forall_of_all {cs : Text} {p : Char → Prop} [DecidablePred p] (h : cs.all (p ·) = true) : ∀ c ∈ cs, p c :=
  fun c hc => of_decide_eq_true (List.all_eq_true.mp h c hc)

def stops : Text := ['+', '-', '*', '/', '%', '^', '<', '>', '=', '!', ',', ';', ')']

/-- What may stand behind an operand: an operator, a separator or a closing bracket. -/
def Stops (r : Text) : Prop := ∀ d ∈ r.head?, d ∈ stops

/-- Neither a lexeme at the end of the one text nor one at the start of the other reaches over. -/
structure Apart (v r : Text) : Prop where
  stops : r.Stops
  greater : v.getLast? = some '>' → r.head? ≠ some '='

variable {v r : Text}

private theorem Stops.isNameChar (hr : r.Stops) : ∀ d ∈ r.head?, Lexeme.isNameChar d = false := by
  have hall : ∀ d ∈ stops, Lexeme.isNameChar d = false := forall_of_all (by decide)
  exact fun d hd => hall d (hr d hd)

private theorem Stops.isDigitOf (hr : r.Stops) :
    ∀ d ∈ r.head?, isDigitOf 10 d = false ∧ d ≠ '.' ∧ d ≠ 'e' ∧ d ≠ 'E' := by
  have hall : ∀ d ∈ stops, Text.isDigitOf 10 d = false ∧ d ≠ '.' ∧ d ≠ 'e' ∧ d ≠ 'E' := forall_of_all (by decide)
  exact fun d hd => hall d (hr d hd)

private theorem Stops.markedBase (hr : r.Stops) : ∀ d ∈ r.head?, Lexeme.markedBase 10 d = none := by
  have hall : ∀ d ∈ stops, Lexeme.markedBase 10 d = none := forall_of_all (by decide)
  exact fun d hd => hall d (hr d hd)

/-- Digits, perhaps with a point between them. -/
def IsDecimal (w : Text) : Prop :=
  ∃ whole fraction, whole ≠ [] ∧ (∀ c ∈ whole ++ fraction, c.isDigit) ∧ w = Numeral.pointed whole fraction

end Text

namespace Lexeme
open Numeral (pointed pointed_nil pointed_cons)

variable {r t whole fraction digits : Text} {base : Nat}

private theorem digitsLength_stops (hr : r.Stops) (dotted : Bool) : digitsLength 10 dotted r = 0 := by
  cases r with
  | nil => rfl
  | cons d r =>
    obtain ⟨hdigit, hpoint, -⟩ := hr.isDigitOf d rfl
    simp [digitsLength, hdigit, hpoint]

private theorem digitsLength_run (hdigits : ∀ c ∈ digits, c.isDigit) (hr : r.Stops) (dotted : Bool) :
    digitsLength 10 dotted (digits ++ r) = digits.length := by
  induction digits with
  | nil => exact digitsLength_stops hr dotted
  | cons c digits ih =>
    obtain ⟨hc, hrest⟩ := List.forall_mem_cons.mp hdigits
    rw [List.cons_append, digitsLength, if_pos (isDigitOf_ten hc), ih hrest, List.length_cons]

private theorem digitsLength_pointed (hdigits : ∀ c ∈ whole ++ fraction, c.isDigit) (hr : r.Stops) :
    digitsLength 10 false (pointed whole fraction ++ r) = (pointed whole fraction).length := by
  induction whole with
  | nil =>
    cases fraction with
    | nil => exact digitsLength_stops hr false
    | cons d fraction =>
      have hd : d.isDigit := hdigits d List.mem_cons_self
      have hrun := digitsLength_run hdigits hr true
      have hpoint : Text.isDigitOf 10 '.' = false := by decide
      rw [pointed_cons, List.nil_append, List.cons_append, digitsLength, if_neg (by simp [hpoint]),
        if_pos ⟨rfl, rfl, by simpa using isDigitOf_ten hd⟩]
      exact congrArg (· + 1) hrun
  | cons c whole ih =>
    obtain ⟨hc, hrest⟩ := List.forall_mem_cons.mp hdigits
    rw [← Numeral.cons_pointed, List.cons_append, digitsLength, if_pos (isDigitOf_ten hc), ih hrest, List.length_cons]

/-- A decimal without an exponent is one lexeme. -/
private theorem lex_decimal {w : Text} (hw : w.IsDecimal) (hr : r.Stops) (offset : Nat) :
    lex 10 offset (w ++ r) = ⟨.number, offset, offset + byteLength w⟩ :: lex 10 (offset + byteLength w) r := by
  obtain ⟨_ | ⟨c, whole⟩, fraction, hne, hdigits, rfl⟩ := hw
  · exact absurd rfl hne
  obtain ⟨hc, hrest⟩ := List.forall_mem_cons.mp hdigits
  have hblank : isBlank c = false := by
    simp only [isBlank, Bool.or_eq_false_iff, beq_eq_false_iff_ne]
    refine ⟨⟨⟨⟨?_, ?_⟩, ?_⟩, ?_⟩, ?_⟩ <;> rintro rfl <;> exact absurd hc (by decide)
  have hpoint : (c == '.') = false := by
    rw [beq_eq_false_iff_ne]
    rintro rfl
    exact absurd hc (by decide)
  have hmark : ∀ d ∈ (pointed whole fraction ++ r).head?, markedBase 10 d = none := by
    intro d hd
    cases whole with
    | cons c' whole =>
      rw [← Numeral.cons_pointed] at hd
      obtain rfl := Option.some.inj hd
      exact Numeral.markedBase_eq_none (.inl (isDigitOf_ten (hrest c' List.mem_cons_self)))
    | nil =>
      cases fraction with
      | nil => exact hr.markedBase d hd
      | cons d' fraction =>
        obtain rfl := Option.some.inj hd
        exact Numeral.markedBase_eq_none (.inr (.inl rfl))
  have hbase : literalBase 10 c (pointed whole fraction ++ r) = (10, 0) := by
    unfold literalBase
    split
    · rename_i letter digit behind hcons
      have hletter : markedBase 10 letter = none := hmark letter (by rw [hcons]; rfl)
      simp [hletter]
    · rfl
  have hexponent : exponentLength 10 r = 0 := by
    unfold exponentLength
    rw [if_neg (by decide)]
    cases r with
    | nil => rfl
    | cons d r =>
      obtain ⟨-, -, hlower, hupper⟩ := hr.isDigitOf d rfl
      simp only
      rw [if_neg (by simp [hlower, hupper])]
  have hlength : numberLength 10 c (pointed whole fraction ++ r) = (pointed whole fraction).length := by
    simp only [numberLength, hbase, hpoint, List.drop_zero, digitsLength_pointed hrest hr, Nat.zero_add,
      List.drop_left, hexponent, Nat.add_zero]
  have hmunch : munch 10 c (pointed whole fraction ++ r) = (some .number, (pointed whole fraction).length) := by
    simp only [munch, hblank, hc, hlength, Bool.false_eq_true, if_false, if_true]
  rw [← Numeral.cons_pointed, List.cons_append, lex, hmunch]
  simp

/-- A string is one lexeme, whatever follows. -/
private theorem lex_string (ht : '"' ∉ t) (r : Text) (offset : Nat) :
    lex base offset ('"' :: t ++ ['"'] ++ r) =
      ⟨.string, offset, offset + byteLength ('"' :: t ++ ['"'])⟩ ::
        lex base (offset + byteLength ('"' :: t ++ ['"'])) r := by
  have hrun : (t ++ '"' :: r).takeWhile (· ≠ '"') = t := by
    refine Text.takeWhile_run (fun c hc => ?_) fun c hc => ?_
    · have hne : c ≠ '"' := fun h => ht (h ▸ hc)
      simpa using hne
    · obtain rfl := Option.some.inj hc
      decide
  have hmunch : munch base '"' (t ++ '"' :: r) = (some .string, t.length + 1) := by
    have hlt : t.length < (t ++ '"' :: r).length := by simp
    unfold munch
    rw [hrun]
    simp [isBlank]
  have hjoin : '"' :: t ++ ['"'] ++ r = '"' :: (t ++ ['"'] ++ r) := rfl
  have hlength : t.length + 1 = (t ++ ['"']).length := by simp
  have hmunch' : munch base '"' (t ++ ['"'] ++ r) = (some .string, (t ++ ['"']).length) := by
    rw [← hlength, ← hmunch, List.append_assoc, List.singleton_append]
  rw [hjoin, lex, hmunch']
  simp only [List.take_left, List.drop_left, List.cons_append]

/-- A sign is a lexeme of its own when it makes no longer one with what follows. -/
theorem lex_sign {c : Char} (hc : c ∈ ['+', '-', '*', '/', '%', '^', '<', '>', '=']) (ht : ∀ d ∈ t.head?, pair c d = none)
    (offset : Nat) :
    lex base offset (c :: t) = ⟨single c, offset, offset + 1⟩ :: lex base (offset + 1) t := by
  have hpair : t.head?.bind (pair c) = none := by
    cases t with
    | nil => rfl
    | cons d t => exact ht d rfl
  have hmunch : munch base c t = (some (single c), 0) := by
    unfold munch
    rw [hpair]
    simp only [List.mem_cons, List.not_mem_nil, or_false] at hc
    rcases hc with rfl | rfl | rfl | rfl | rfl | rfl | rfl | rfl | rfl <;> simp [isBlank]
  have hsize : c.utf8Size = 1 := by
    simp only [List.mem_cons, List.not_mem_nil, or_false] at hc
    rcases hc with rfl | rfl | rfl | rfl | rfl | rfl | rfl | rfl | rfl <;> rfl
  rw [lex, hmunch]
  simp [hsize]

/-- Two characters that make one token. -/
theorem lex_pair {c d : Char} {token : Token} (hpair : pair c d = some token) (hc : c ∈ ['=', '!', '<', '>'])
    (t : Text) (offset : Nat) :
    lex base offset (c :: d :: t) =
      ⟨token, offset, offset + byteLength [c, d]⟩ :: lex base (offset + byteLength [c, d]) t := by
  have hmunch : munch base c (d :: t) = (some token, 1) := by
    unfold munch
    simp only [List.head?_cons, Option.bind_some, hpair]
    simp only [List.mem_cons, List.not_mem_nil, or_false] at hc
    rcases hc with rfl | rfl | rfl | rfl <;> simp [isBlank]
  rw [lex, hmunch]
  simp

end Lexeme

namespace Text

/-- What closes what it opens inside of any brackets, and is lexed by itself before an operator and in a list. -/
structure Solid (v : Text) : Prop where
  framed : v.Framed
  compact : Nesting.Compact v.tokens
  lex (offset : Nat) (r : Text) : v.Apart r →
    Lexeme.lex 10 offset (v ++ r) = Lexeme.lex 10 offset v ++ Lexeme.lex 10 (offset + byteLength v) r

variable {v w r : Text} {es : List Text}

namespace Solid

private theorem tokens_append (h : v.Solid) (hr : v.Apart r) : (v ++ r).tokens = v.tokens ++ r.tokens := by
  rw [tokens, h.lex 0 r hr, List.map_append, tokens_eq, tokens_eq]

private theorem last_append (h : w.Solid) (v : Text) : (v ++ w).getLast? = w.getLast? := by
  obtain ⟨front, c, rfl, -⟩ := h.framed.last
  rw [← List.append_assoc, List.getLast?_concat, List.getLast?_concat]

/-- A list of solid parts is solid. -/
theorem join {c : Char} (hc : Separates c) (hne : es ≠ []) (h : ∀ e ∈ es, e.Solid) : Solid (Text.join [c] es) := by
  induction es with
  | nil => exact absurd rfl hne
  | cons e es ih =>
    obtain ⟨he, hothers⟩ := List.forall_mem_cons.mp h
    cases es with
    | nil =>
      rw [join_singleton]
      exact he
    | cons e' es =>
      have hrest := ih (List.cons_ne_nil _ _) hothers
      have hsingle : Lexeme.single c = .comma ∨ Lexeme.single c = .semicolon := by
        cases hc
        · exact .inl rfl
        · exact .inr rfl
      have hapart (t : Text) : e.Apart (c :: t) := by
        refine ⟨fun d hd => ?_, fun _ heq => ?_⟩
        · obtain rfl := Option.some.inj hd
          cases hc <;> decide
        · obtain rfl := Option.some.inj heq
          cases hc
      rw [join_cons]
      refine ⟨?_, ?_, fun offset r hr => ?_⟩
      · have happend := he.framed.append hrest.framed [c]
        rwa [List.append_assoc] at happend
      · have htokens : tokens (c :: Text.join [c] (e' :: es)) =
            Lexeme.single c :: (Text.join [c] (e' :: es)).tokens := by
          rw [tokens, hc.lex, List.map_cons, tokens_eq]
        rw [he.tokens_append (hapart _), htokens]
        exact he.compact.separated hsingle hrest.compact
      · have hlast : (Text.join [c] (e' :: es)).Apart r := by
          refine ⟨hr.stops, fun hgreater => hr.greater ?_⟩
          rw [List.append_cons, hrest.last_append]
          exact hgreater
        have hsize : byteLength (e ++ c :: Text.join [c] (e' :: es)) =
            byteLength e + 1 + byteLength (Text.join [c] (e' :: es)) := by
          rw [byteLength_append, byteLength_cons, hc.utf8Size, Nat.add_assoc]
        rw [List.append_assoc, List.cons_append, he.lex _ _ (hapart _), hc.lex, hrest.lex _ _ hlast,
          he.lex _ _ (hapart _), hc.lex, List.append_assoc, List.cons_append, hsize]
        simp only [Nat.add_assoc]

end Solid

/-- The lexemes of a vector and of what follows it. -/
private theorem lex_vector (h : w.Solid) (hr : r.head? ≠ some '=') (offset : Nat) :
    Lexeme.lex 10 offset ('<' :: w ++ ['>'] ++ r) = ⟨.less, offset, offset + 1⟩ ::
      (Lexeme.lex 10 (offset + 1) w ++
        ⟨.greater, offset + 1 + byteLength w, offset + byteLength ('<' :: w ++ ['>'])⟩ ::
          Lexeme.lex 10 (offset + byteLength ('<' :: w ++ ['>'])) r) := by
  have hsize : byteLength ('<' :: w ++ ['>']) = 1 + byteLength w + 1 := by
    have hless : '<'.utf8Size = 1 := rfl
    have hgreater : '>'.utf8Size = 1 := rfl
    simp [hless, hgreater, Nat.add_assoc]
  have hjoin : '<' :: w ++ ['>'] ++ r = '<' :: (w ++ '>' :: r) := by simp
  have hopen : ∀ d ∈ (w ++ '>' :: r).head?, Lexeme.pair '<' d = none := fun d hd =>
    have hfirm := h.framed.first.head _ d hd
    Lexeme.pair_eq_none hfirm.equals hfirm.greater
  have hclose : ∀ d ∈ r.head?, Lexeme.pair '>' d = none := by
    intro d hd
    have hne : d ≠ '=' := by
      rintro rfl
      exact hr hd
    unfold Lexeme.pair
    split <;> first | rfl | exact absurd rfl hne | contradiction
  have hapart : w.Apart ('>' :: r) := ⟨fun d hd => Option.some.inj hd ▸ by decide, fun _ => by simp⟩
  rw [hjoin, Lexeme.lex_sign (by decide) hopen, h.lex _ _ hapart, Lexeme.lex_sign (by decide) hclose, hsize]
  simp only [Nat.add_assoc, Lexeme.single]

end Text

namespace Section
variable {limit start middle stop a b : Nat} {ls rest : List Lexeme} {ts : List Token} {x : Bool}

/-- A parenthesis before an operator is a group. -/
private theorem next_parenthesis (h : (level false).Leads (ls.map Lexeme.token) (level x))
    (hrest : ∀ l ∈ rest.head?, l.token.isOperator) :
    next limit false (⟨.leftParen, start, middle⟩ :: (ls ++ ⟨.rightParen, a, b⟩ :: rest)) =
      some (⟨.parenthesis, start, b, false⟩, rest) := by
  have hgroup := Nesting.group_inside (show Token.leftParen ≠ .less by decide) rfl limit h a b rest
  simp only [next, parenthesized, hgroup]
  cases rest with
  | nil => rfl
  | cons l rest =>
    have harrow : (l.token == .arrow) = false := beq_eq_false_iff_ne.mpr (ne_of_isOperator (hrest l rfl) rfl)
    simp only [harrow, Bool.and_false, Bool.false_eq_true, if_false]

private theorem next_call (h : (level false).Leads (ls.map Lexeme.token) (level x)) :
    next limit false (⟨.identifier, start, middle⟩ :: ⟨.leftParen, middle, stop⟩ :: (ls ++ ⟨.rightParen, a, b⟩ :: rest)) =
      some (⟨.call middle, start, b, false⟩, rest) := by
  have hgroup := Nesting.group_inside (show Token.leftParen ≠ .less by decide) rfl limit h a b rest
  have hadjacent : adjacent .leftParen middle ⟨.leftParen, middle, stop⟩ = true := by simp [adjacent]
  simp only [next, named, hadjacent, if_true, grouped, hgroup]

private theorem next_vector (h : Nesting.Compact (ls.map Lexeme.token)) :
    next limit false (⟨.less, start, middle⟩ :: (ls ++ ⟨.greater, a, b⟩ :: rest)) =
      some (⟨.vector, start, b, false⟩, rest) := by
  have hgroup : (Nesting.inside .less).group limit (ls ++ ⟨.greater, a, b⟩ :: rest) = ⟨b, false, rest⟩ := by
    rw [show Nesting.inside .less = (level false).under [.less] from rfl,
      Nesting.group_passes (List.cons_ne_nil _ _) limit (h [.less])]
    rfl
  simp only [next, grouped, hgroup, Bool.false_eq_true, if_false]

end Section

namespace Text

/-- Where an operand is expected the text is one section of this kind, whatever operator follows. -/
structure IsOperand (kind : Nat → SectionKind) (v : Text) : Prop extends Solid v where
  head : ∀ t ∈ v.tokens.head?, t.isOperator = false ∨ t = .less
  next (limit offset : Nat) (rest : List Lexeme) : (∀ l ∈ rest.head?, l.token.isOperator) →
    Section.next limit false (Lexeme.lex 10 offset v ++ rest) =
      some (⟨kind offset, offset, offset + byteLength v, false⟩, rest)
  kind_ne (offset : Nat) : kind offset ≠ .operators

variable {v w : Text} {es : List Text}

namespace IsOperand

/-- A text of one lexeme. -/
private theorem of_lexeme (token : Token) {kind : SectionKind} (hf : v.Framed) (ht : token.endsOperand)
    (hlex : ∀ offset r, Stops r → Lexeme.lex 10 offset (v ++ r) =
      ⟨token, offset, offset + byteLength v⟩ :: Lexeme.lex 10 (offset + byteLength v) r)
    (hnext : ∀ limit start stop rest, (∀ l ∈ rest.head?, l.token.isOperator) →
      Section.next limit false (⟨token, start, stop⟩ :: rest) = some (⟨kind, start, stop, false⟩, rest))
    (hk : kind ≠ .operators) : IsOperand (fun _ => kind) v := by
  have hv (offset : Nat) : Lexeme.lex 10 offset v = [⟨token, offset, offset + byteLength v⟩] := by
    have hself := hlex offset [] nofun
    rwa [List.append_nil, Lexeme.lex] at hself
  have htokens : v.tokens = [token] := by
    rw [tokens, hv]
    rfl
  refine ⟨⟨hf, htokens ▸ .token ht, fun offset r hr => ?_⟩, fun t hhead => .inl ?_, fun limit offset rest hrest => ?_,
    fun _ => hk⟩
  · rw [hlex offset r hr.stops, hv]
    rfl
  · rw [htokens] at hhead
    obtain rfl := Option.some.inj hhead
    cases token <;> first | rfl | exact absurd ht (by decide)
  · rw [hv]
    exact hnext _ _ _ _ hrest

theorem decimal (hw : w.IsDecimal) : IsOperand (fun _ => .number) w := by
  refine of_lexeme .number ?_ rfl (fun offset r hr => Lexeme.lex_decimal hw hr offset)
    (fun limit start stop rest _ => rfl) (by decide)
  obtain ⟨whole, fraction, hne, hdigits, rfl⟩ := hw
  refine .of_forall ?_ fun c hc => ?_
  · cases fraction <;> simp [Numeral.pointed, hne]
  · rcases Numeral.mem_pointed hc with rfl | hc
    · exact firm_dot
    · exact firm_of_isDigit (hdigits c hc)

theorem name {word : Text} (hn : word.IsName) : IsOperand (fun _ => .variable) word :=
  of_lexeme .identifier hn.framed rfl (fun offset r hr => Lexeme.lex_name hn hr.isNameChar offset)
    (fun limit start stop rest hrest => congrArg some (Section.named_variable hrest)) (by decide)

theorem string (ht : '"' ∉ w) : IsOperand (fun _ => .string) ('"' :: w ++ ['"']) := by
  have hquote : Firm '"' := ⟨by decide, by decide, by decide, by decide, by decide⟩
  exact of_lexeme .string (.enclosed hquote (by decide) w) rfl
    (fun offset r _ => Lexeme.lex_string ht r offset) (fun limit start stop rest _ => rfl) (by decide)

/-- The lexemes of a group. -/
private theorem lex_parenthesized (hw : w.Whole) (offset : Nat) :
    Lexeme.lex 10 offset (Render.parenthesized w) = ⟨.leftParen, offset, offset + 1⟩ ::
      (Lexeme.lex 10 (offset + 1) w ++
        [⟨.rightParen, offset + 1 + byteLength w, offset + byteLength (Render.parenthesized w)⟩]) := by
  have hgroup := lex_group .parentheses hw offset []
  rw [List.append_nil, Lexeme.lex] at hgroup
  exact hgroup

/-- A group. -/
theorem parenthesized (hw : w.Steady false) : IsOperand (fun _ => .parenthesis) (Render.parenthesized w) := by
  have hwhole := hw.whole
  have htokens : (Render.parenthesized w).tokens = Token.leftParen :: w.tokens ++ [.rightParen] :=
    tokens_enclosed .parentheses hwhole
  obtain ⟨b, hleads⟩ := hw
  refine ⟨⟨framed_parenthesized w, ?_, fun offset r _ => ?_⟩, fun t hhead => .inl ?_, fun limit offset rest hrest => ?_,
    fun _ => by decide⟩
  · rw [htokens]
    exact .group .parentheses hleads
  · rw [lex_parenthesized hwhole, List.cons_append, List.append_assoc]
    exact lex_group .parentheses hwhole offset r
  · rw [htokens] at hhead
    exact Option.some.inj hhead ▸ rfl
  · rw [← tokens_eq (offset + 1)] at hleads
    rw [lex_parenthesized hwhole, List.cons_append, List.append_assoc]
    exact Section.next_parenthesis hleads hrest

/-- A call. -/
theorem application {word : Text} (hn : word.IsName) (hes : (listed es).Steady false) :
    IsOperand (fun offset => .call (offset + byteLength word)) (Render.application word es) := by
  have hgroup := parenthesized hes
  have hparen (r : Text) : ∀ d ∈ (Render.parenthesized (listed es) ++ r).head?, Lexeme.isNameChar d = false :=
    fun d hd => Option.some.inj hd ▸ rfl
  have hself (offset : Nat) : Lexeme.lex 10 offset (Render.application word es) =
      ⟨.identifier, offset, offset + byteLength word⟩ ::
        Lexeme.lex 10 (offset + byteLength word) (Render.parenthesized (listed es)) :=
    Lexeme.lex_name (t := Render.parenthesized (listed es)) hn (fun d hd => Option.some.inj hd ▸ rfl) offset
  have hsize : byteLength (Render.application word es) = byteLength word + byteLength (Render.parenthesized (listed es)) :=
    byteLength_append word _
  have htokens : (Render.application word es).tokens =
      .identifier :: (Token.leftParen :: (listed es).tokens ++ [.rightParen]) := by
    rw [tokens, hself, List.map_cons, tokens_eq, Render.parenthesized, tokens_enclosed .parentheses hes.whole]
    rfl
  have hwhole := hes.whole
  obtain ⟨b, hleads⟩ := hes
  refine ⟨⟨Render.application_framed hn es, ?_, fun offset r hr => ?_⟩, fun t hhead => .inl ?_,
    fun limit offset rest _ => ?_, fun _ hkind => ?_⟩
  · rw [htokens]
    exact .call .parentheses hleads
  · have hapart : (Render.parenthesized (listed es)).Apart r := by
      refine ⟨hr.stops, fun hlast => ?_⟩
      rw [Render.parenthesized, List.getLast?_concat] at hlast
      exact absurd (Option.some.inj hlast) (by decide)
    rw [hself, hsize, ← Nat.add_assoc, List.cons_append, ← hgroup.lex _ _ hapart, Render.application, List.append_assoc]
    exact Lexeme.lex_name hn (hparen r) offset
  · rw [htokens] at hhead
    exact Option.some.inj hhead ▸ rfl
  · rw [← tokens_eq (offset + byteLength word + 1)] at hleads
    rw [hself, lex_parenthesized hwhole, List.cons_append, List.cons_append, List.append_assoc, hsize, ← Nat.add_assoc]
    exact Section.next_call hleads
  · cases hkind

/-- A vector. -/
theorem vector (hw : w.Solid) : IsOperand (fun _ => .vector) ('<' :: w ++ ['>']) := by
  have hless : Firm '<' := ⟨by decide, by decide, by decide, by decide, by decide⟩
  have hself (offset : Nat) := lex_vector hw (r := []) nofun offset
  simp only [List.append_nil, Lexeme.lex] at hself
  have htokens : tokens ('<' :: w ++ ['>']) = Token.less :: w.tokens ++ [.greater] := by
    rw [tokens, hself, List.map_cons, List.map_append, tokens_eq]
    rfl
  refine ⟨⟨.enclosed hless (by decide) w, ?_, fun offset r hr => ?_⟩, fun t hhead => .inr ?_,
    fun limit offset rest _ => ?_, fun _ => by decide⟩
  · rw [htokens]
    exact hw.compact.vector
  · have hlast : ('<' :: w ++ ['>']).getLast? = some '>' := List.getLast?_concat
    rw [lex_vector hw (hr.greater hlast), hself]
    simp
  · rw [htokens] at hhead
    exact (Option.some.inj hhead).symm
  · have hcompact := hw.compact
    rw [← tokens_eq (offset + 1)] at hcompact
    rw [hself, List.cons_append, List.append_assoc]
    exact Section.next_vector hcompact

end IsOperand
end Text
end Reckoner
