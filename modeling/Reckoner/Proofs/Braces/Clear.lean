import Reckoner.Proofs.Braces.Passing
import Reckoner.Proofs.Braces.Returned

/-! Statements that the bracket reader sees through. It reads a statement token by token, and takes a `<` behind a word
or a bracket for a comparison where an expression starts with a vector; the expressions of a clear statement close
their brackets all the same. -/
namespace Reckoner

open Nesting (level)
open Render (parenthesized braced)
open Text (Behind byteLength dropBytes findOutside slice)

def Body.Found : Body → Prop
  | .braced _ _ => True
  | .bare start stop => start < stop
  | .missing _ | .unclosed _ => False

namespace Statement

/-- Every expression of the statement closes its brackets where it stands, and every body is there. The flag tells
whether a word or a bracket stands before the statement. -/
inductive Clear : Bool → Text → Statement → Prop
  | expression {a : Bool} {t : Text} {start stop : Nat} (h : (slice t start stop).ClosedAt a) :
      Clear a t (.expression start stop)
  | giveBack {a : Bool} {t : Text} {start stop : Nat} (h : (slice t start stop).ClosedAt true) :
      Clear a t (.giveBack start stop)
  | jump {a : Bool} {t : Text} {leaves : Bool} {start rest stop : Nat} : Clear a t (.jump leaves start rest stop)
  | assign {a : Bool} {t : Text} {name : Text} {start value stop : Nat} : Clear a t (.assign name start value stop)
  | conditional {a : Bool} {t : Text} {loops : Bool} {parenthesis stop : Nat} {code : Body} (hfound : code.Found)
      (h : ∀ first last, code = .bare first last →
        ∀ s ∈ readAll 0 (slice t first last), Clear true (slice t first last) s.2) :
      Clear a t (.conditional loops (.closed parenthesis stop) code)
  | otherwise {a : Bool} {t : Text} {start : Nat} {code : Body} (hfound : code.Found)
      (h : ∀ first last, code = .bare first last →
        ∀ s ∈ readAll 0 (slice t first last), Clear true (slice t first last) s.2) :
      Clear a t (.otherwise start code)
  | otherwiseIf {a : Bool} {t : Text} {start : Nat} {first : Statement} {alternative : Option Statement}
      (hfirst : Clear true t first) (h : ∀ second ∈ alternative, Clear true t second) :
      Clear a t (.otherwiseIf start first alternative)

end Statement

namespace Text
variable {a b : Bool} {t u v x : Text} {start stop : Nat}

/-- The bracket reader passes the part of the text from `start` up to `stop`. -/
def Spans (a : Bool) (start : Nat) (v : Text) (stop : Nat) : Prop :=
  ∃ x u b, v = x ++ u ∧ stop = start + byteLength x ∧ v.Passes a b u

theorem Spans.append (hx : (x ++ v).Passes a b v) (h : Spans b (start + byteLength x) v stop) :
    Spans a start (x ++ v) stop := by
  obtain ⟨y, u, c, rfl, rfl, hpasses⟩ := h
  exact ⟨x ++ y, u, c, (List.append_assoc x y u).symm, by rw [byteLength_append, Nat.add_assoc], hx.trans hpasses⟩

private theorem Spans.of_passes (h : (x ++ u).Passes a b u) (start : Nat) :
    Spans a start (x ++ u) (start + byteLength x) :=
  ⟨x, u, b, rfl, rfl, h⟩

theorem closedAt_blanks (h : ∀ d ∈ t, isBlank d) (a : Bool) : t.ClosedAt a := by
  obtain ⟨b, hcrosses, -⟩ := Crosses.blanks h a []
  rw [List.append_nil] at hcrosses
  exact hcrosses.closedAt

/-- What is cut out of a text in which another one stands. -/
theorem Behind.slice_append {front e : Text} (h : Behind t start (front ++ (e ++ u))) :
    Text.slice t (start + byteLength front) (start + byteLength front + byteLength e) = e :=
  h.at.right.left.slice

theorem Behind.append {front : Text} (h : Behind t start (front ++ v)) : Behind t (start + byteLength front) v := by
  have hdrop := h.drop (isBoundary_byteLength front v)
  rwa [dropBytes_byteLength] at hdrop

end Text

open Text (Spans)

namespace Statement
variable {N start : Nat} {t v : Text} {a : Bool}

theorem byteLength_parenthesized_pos (c : Text) : 0 < byteLength (parenthesized c) := by
  have hsize : '('.utf8Size = 1 := rfl
  rw [parenthesized, List.cons_append, Text.byteLength_cons, hsize]
  omega

theorem upToSemicolon_append (start : Nat) (front v : Text) :
    upToSemicolon start (byteLength front) (front ++ v) =
      (start + byteLength front, start + byteLength front + findOutside .semicolon v) := by
  rw [upToSemicolon, Text.dropBytes_byteLength]

/-- Up to the next semicolon. -/
private theorem upTo_spans (h : Behind t start v)
    (hsteady : (slice t start (start + findOutside .semicolon v)).Steady a) :
    Spans a start v (start + findOutside .semicolon v) := by
  obtain ⟨w, u, rfl, hfound, hu, -⟩ := Text.findOutside_split v
  rw [hfound] at hsteady ⊢
  rw [h.at.left.slice] at hsteady
  obtain ⟨b, hpass⟩ := Text.Passes.steady_append hsteady hu.breaks
  exact .of_passes hpass start

/-- What stands behind the `if` behind an `else`, and behind separators. -/
private theorem behindInnerIf_split (h : Spans a start v (innerIf start v).2)
    (hstop : start + 6 ≤ (innerIf start v).2) :
    ∃ x u b, v = x ++ u ∧ x ≠ [] ∧ behindInnerIf start v = byteLength x ∧ Ready u ∧ (x ++ u).Passes a b u := by
  obtain ⟨x, w, c, rfl, hx, hpass⟩ := h
  obtain ⟨k, u, rfl, hk, hu⟩ := separators_split w
  obtain ⟨b, hseparators, -⟩ := Text.Passes.separators hk c u
  have hskip : max 4 ((innerIf start (x ++ (k ++ u))).2 - start) = byteLength x := by omega
  have hne : x ≠ [] := by
    rintro rfl
    simp only [hx, Text.byteLength_nil] at hstop
    omega
  refine ⟨x ++ k, u, b, (List.append_assoc x k u).symm, List.append_ne_nil_of_left_ne_nil hne k, ?_, hu, ?_⟩
  · rw [behindInnerIf, hskip, Text.dropBytes_byteLength, separators_append hk, separators_ready hu, Nat.add_zero,
      Text.byteLength_append]
  · rw [List.append_assoc]
    exact hpass.trans hseparators

section
variable (hbody : ∀ w : Text, w.length < N → (∀ s ∈ readAll 0 w, s.2.Clear true w ∧ s.2.Accepted w) →
  ∀ a, w.Steady a)
include hbody

/-- A body that the bracket reader sees through. -/
private theorem body_spans (h : Behind t start v) (hv : v.length < N) (hfound : (readBody start v).1.Found)
    (hclear : ∀ first last, (readBody start v).1 = .bare first last →
      ∀ s ∈ readAll 0 (slice t first last), s.2.Clear true (slice t first last))
    (haccepted : ∀ first last, (readBody start v).1 = .bare first last → (slice t first last).Accepted) (a : Bool) :
    Spans a start v (readBody start v).2 := by
  have hreads := readsBody_readBody start v
  generalize readBody start v = r at hreads hfound hclear haccepted
  cases hreads with
  | missing place hr => exact (hr ▸ hfound : (Body.missing place).Found).elim
  | unclosed brace hr => exact (hr ▸ hfound : (Body.unclosed brace).Found).elim
  | braced k b u ht hk hb hr =>
    subst ht hr
    obtain ⟨c, hblank, -⟩ := Text.Crosses.blanks hk a (braced b ++ u)
    exact .append hblank.passes (.of_passes (Text.Crosses.group .braces hb c u).passes _)
  | bare k w u ht hk hw hu havoids hr =>
    subst ht hr
    have hslice : slice t (start + byteLength k) (start + byteLength k + byteLength w) = w := h.slice_append
    have haccepted := haccepted _ _ rfl
    have hclear := hclear _ _ rfl
    rw [hslice] at haccepted hclear
    have hlength : w.length < N := by
      simp only [List.length_append] at hv
      omega
    have hsteady := hbody w hlength fun s hs => ⟨hclear s hs, haccepted.statements s hs⟩
    obtain ⟨c, hblank, -⟩ := Text.Crosses.blanks hk a (w ++ u)
    obtain ⟨d, hpass⟩ := Text.Passes.steady_append (hsteady c) hu.breaks
    exact .append hblank.passes (.of_passes hpass _)

/-- A condition and its body. -/
private theorem conditional_spans {loops : Bool} (h : Behind t start v) (hv : v.length < N) {b : Bool}
    (hclear : (readConditional loops start v).1.Clear b t) (haccepted : (readConditional loops start v).1.Accepted t)
    (a : Bool) : Spans a start v (readConditional loops start v).2 := by
  obtain ⟨head, code, hread⟩ := readConditional_eq loops start v
  rw [hread] at hclear
  cases hclear with
  | conditional hfound hclear =>
    obtain ⟨k, c, u, rfl, hk, hc⟩ := readConditional_split hread
    have hhead : ∀ d ∈ (parenthesized c ++ u).head?, Text.isBlank d = false := fun d hd => by
      obtain rfl := Option.some.inj hd
      decide
    rw [readConditional_blank hk hhead, readConditional_closed hc] at hread haccepted ⊢
    obtain ⟨-, hcondition, rfl⟩ := Statement.conditional.inj hread
    have hbehind := h.append.append
    have hpos := byteLength_parenthesized_pos c
    have hlength : u.length < N := by
      simp only [List.length_append] at hv
      omega
    have hwithin := (readBody_within hbehind (by omega)).1
    have hspans := body_spans hbody hbehind hlength hfound hclear fun first last hbare => by
      rw [hbare] at hwithin haccepted
      exact haccepted.bare hwithin.1
    obtain ⟨b, hblank, -⟩ := Text.Crosses.blanks hk a (parenthesized c ++ u)
    exact .append hblank.passes (.append (Text.Crosses.group .parentheses hc b u).passes (hspans true))

/-- The `if` behind an `else`, and where it ends. -/
private theorem innerIf_spans (h : Behind t start v) (hv : v.length < N + 1) (hready : Ready v)
    (hword : word? v = some "else".toList) (hif : word? (dropBytes (behindElse v) v) = some "if".toList) {b : Bool}
    (hclear : (innerIf start v).1.Clear b t) (haccepted : (innerIf start v).1.Accepted t) (a : Bool) :
    Spans a start v (innerIf start v).2 ∧ start + 6 ≤ (innerIf start v).2 := by
  obtain ⟨w, rfl, hname, hw⟩ := word?_split (fun d hd => (hready d hd).1) hword
  obtain ⟨k, u, rfl, hk, hu⟩ := leadingBlank_split w
  have hbehind : behindElse ("else".toList ++ (k ++ u)) = byteLength ("else".toList ++ k) := by
    have hfour : (4 : Nat) = byteLength "else".toList := rfl
    rw [behindElse, hfour, Text.dropBytes_byteLength, leadingBlank_append hk hu, Text.byteLength_append]
  rw [hbehind, ← List.append_assoc, Text.dropBytes_byteLength] at hif
  obtain ⟨r, rfl, hinner, hr⟩ := word?_split hu hif
  have hread : innerIf start ("else".toList ++ (k ++ ("if".toList ++ r))) =
      readConditional false (start + byteLength "else".toList + byteLength k + byteLength "if".toList) r := by
    have hdrop : dropBytes (byteLength ("else".toList ++ k) + 2) ("else".toList ++ k ++ ("if".toList ++ r)) = r := by
      rw [Text.dropBytes_append]
      exact Text.dropBytes_byteLength "if".toList r
    rw [innerIf, hbehind, ← List.append_assoc, hdrop, Text.byteLength_append, ← Nat.add_assoc]
    rfl
  rw [hread] at hclear haccepted ⊢
  have hlength : r.length < N := by
    simp only [List.length_append] at hv
    have hfour : "else".toList.length = 4 := rfl
    omega
  have hspans := conditional_spans hbody h.append.append.append hlength hclear haccepted
  obtain ⟨c, hblank, -⟩ := Text.Crosses.blanks hk true ("if".toList ++ r)
  have hspans' := Spans.append (Text.Crosses.name hinner hr c).passes (hspans true)
  refine ⟨.append (Text.Crosses.name hname hw a).passes (.append hblank.passes hspans'), ?_⟩
  obtain ⟨x, u, -, -, hstop, -⟩ := hspans true
  rw [hstop]
  have hfour : byteLength "else".toList = 4 := rfl
  have htwo : byteLength "if".toList = 2 := rfl
  omega

/-- A statement that is clear. -/
private theorem first_spans {v : Text} {start : Nat} {a : Bool} (h : Behind t start v) (hv : v.length < N + 1)
    (hready : Ready v) (hclear : (readFirst start v).1.Clear a t) (haccepted : (readFirst start v).1.Accepted t) {b : Bool}
    (hb : b = true → a = true) : Spans b start v (readFirst start v).2 := by
  have hhead : ∀ d ∈ v.head?, Text.isBlank d = false := fun d hd => (hready d hd).1
  have hreads := reads_readFirst start v
  generalize readFirst start v = r at hreads hclear haccepted
  cases hreads with
  | expression hword hr =>
    subst hr
    simp only [upToSemicolon, Nat.add_zero, dropBytes] at hclear haccepted ⊢
    cases hclear with
    | expression hclosed =>
      refine upTo_spans h ?_
      cases b with
      | false => exact haccepted.expression.closed.steady
      | true =>
        obtain rfl := hb rfl
        exact hclosed.steady
  | giveBack hword hr =>
    subst hr
    obtain ⟨w, rfl, hname, hw⟩ := word?_split hhead hword
    rw [upToSemicolon_append] at hclear ⊢
    cases hclear with
    | giveBack hclosed => exact .append (Text.Crosses.name hname hw b).passes (upTo_spans h.append hclosed.steady)
  | jump leaves hword hr =>
    subst hr
    obtain ⟨w, rfl, hname, hw⟩ := word?_split hhead hword
    rw [upToSemicolon_append] at haccepted ⊢
    have hspans := upTo_spans h.append (Text.closedAt_blanks haccepted.jump true).steady
    exact .append (Text.Crosses.name hname hw b).passes hspans
  | assign name value hword hname hvalue hr =>
    subst hr
    obtain ⟨w, rfl, hisName, hw⟩ := word?_split hhead hword
    rw [Text.dropBytes_byteLength] at hvalue
    obtain ⟨k, u, rfl, hk, rfl, hu⟩ := assignment?_split hvalue
    have hsplit : name ++ (k ++ '=' :: u) = name ++ k ++ ['='] ++ u := by simp
    have hsize : byteLength name + byteLength (k ++ ['=']) = byteLength (name ++ k ++ ['=']) := by
      rw [List.append_assoc, Text.byteLength_append name]
    rw [hsize, hsplit, upToSemicolon_append] at haccepted ⊢
    rw [hsplit] at h
    obtain ⟨c, hblank, -⟩ := Text.Crosses.blanks hk true ('=' :: u)
    have hpass : (name ++ k ++ ['='] ++ u).Passes b false u := by
      rw [← hsplit]
      exact (((Text.Crosses.name hisName hw b).trans hblank).trans (.assign hu c)).passes
    exact .append hpass (upTo_spans h.append haccepted.assign.closed.steady)
  | conditional loops hword hr =>
    subst hr
    obtain ⟨w, rfl, hname, hw⟩ := word?_split hhead hword
    rw [Text.dropBytes_byteLength] at hclear haccepted ⊢
    have hlength : w.length < N := by
      have hpos : 0 < (conditionalWord loops).length := by cases loops <;> decide
      rw [List.length_append] at hv
      omega
    exact .append (Text.Crosses.name hname hw b).passes (conditional_spans hbody h.append hlength hclear haccepted true)
  | otherwise hword hif hr =>
    subst hr
    obtain ⟨w, rfl, hname, hw⟩ := word?_split hhead hword
    have hdrop : dropBytes 4 ("else".toList ++ w) = w := Text.dropBytes_byteLength "else".toList w
    have hbehind : Behind t (start + 4) w := h.append
    rw [hdrop] at hclear haccepted ⊢
    have hlength : w.length < N := by
      have hfour : "else".toList.length = 4 := rfl
      rw [List.length_append] at hv
      omega
    have hwithin := (readBody_within hbehind (by omega)).1
    cases hclear with
    | otherwise hfound hclear =>
      refine .append (Text.Crosses.name hname hw b).passes ?_
      refine body_spans hbody hbehind hlength hfound hclear (fun first last hbare => ?_) true
      rw [hbare] at hwithin haccepted
      exact haccepted.otherwise hwithin.1
  | elseIf hword hif hnone hr =>
    subst hr
    cases hclear with
    | otherwiseIf hfirst => exact (innerIf_spans hbody h hv hready hword hif hfirst haccepted.elseIf.1 b).1
  | elseIfElse hword hif hagain hr =>
    subst hr
    obtain ⟨hfirstAccepted, hsecondAccepted⟩ := haccepted.elseIf
    cases hclear with
    | otherwiseIf hfirst hsecond =>
      obtain ⟨hspans, hstop⟩ := innerIf_spans hbody h hv hready hword hif hfirst hfirstAccepted b
      obtain ⟨x, u, c, hx, hne, hsize, hu, hpass⟩ := behindInnerIf_split hspans hstop
      have hdrop : dropBytes (byteLength x) v = u := by rw [hx, Text.dropBytes_byteLength]
      rw [hsize, hdrop] at hsecond hsecondAccepted ⊢
      have hshorter : u.length < v.length := by
        have hpos := List.length_pos_iff.mpr hne
        rw [hx, List.length_append]
        omega
      have hbehind : Behind t (start + byteLength x) u := Behind.append (hx ▸ h)
      have hlater := first_spans hbehind (by omega) hu (hsecond _ rfl) (hsecondAccepted _ rfl) (b := c) fun _ => rfl
      rw [hx]
      exact .append hpass hlater
termination_by v.length
decreasing_by exact hshorter

/-- All statements of a block without braces. -/
private theorem all_spans {v : Text} {start : Nat} (h : Behind t start v) (hv : v.length < N + 1)
    (hall : ∀ s ∈ readAll start v, s.2.Clear true t ∧ s.2.Accepted t) (a : Bool) : ∃ b, v.Passes a b [] := by
  obtain ⟨k, w, htext, hk, hw⟩ := separators_split v
  obtain ⟨b, hseparators, -⟩ := Text.Passes.separators hk a w
  rw [htext] at h hall ⊢
  by_cases hnil : w = []
  · subst hnil
    exact ⟨b, hseparators⟩
  rw [readAll_separators hk] at hall
  have hbehind := h.append
  have hforward := (readFirst_checks hbehind hw hnil).forward
  rw [readAll_ready hw hnil hforward] at hall
  obtain ⟨⟨hclear, haccepted⟩, hothers⟩ := List.forall_mem_cons.mp hall
  have hwv : w.length ≤ v.length := by
    rw [htext, List.length_append]
    omega
  obtain ⟨x, u, c, rfl, hstop, hpass⟩ := first_spans hbody hbehind (by omega) hw hclear haccepted (b := b) fun _ => rfl
  rw [hstop, Nat.add_sub_cancel_left, Text.dropBytes_byteLength] at hothers
  have hshorter : u.length < v.length := by
    have hne : x ≠ [] := by
      rintro rfl
      simp only [hstop, Text.byteLength_nil] at hforward
      omega
    have hpos := List.length_pos_iff.mpr hne
    rw [List.length_append] at hwv
    omega
  obtain ⟨d, hrest⟩ := all_spans hbehind.append (by omega) hothers c
  exact ⟨d, (hseparators.trans hpass).trans hrest⟩
termination_by v.length
decreasing_by exact hshorter

end

/-- The bracket reader sees through a text of clear statements. -/
private theorem steady_of_clear {w : Text} (h : ∀ s ∈ readAll 0 w, s.2.Clear true w ∧ s.2.Accepted w) (a : Bool) :
    w.Steady a := by
  obtain ⟨b, hpass⟩ := all_spans (N := w.length) (fun u hu h => steady_of_clear h) (.self w) (Nat.lt_succ_self _) h a
  exact hpass.steady
termination_by w.length
decreasing_by exact hu

section
variable {w : Text}

/-- Only a `<` is read in another way behind an operand. -/
private theorem avoids_level {ts : List Token} {separator : Token} (hts : ts.head? ≠ some .less)
    (h : (level false).Avoids separator ts) (a : Bool) : (level a).Avoids separator ts := by
  cases ts with
  | nil => trivial
  | cons token ts =>
    have hfeed : (level a).feed token = (level false).feed token := by
      cases token <;> first | rfl | exact absurd rfl hts
    exact ⟨h.1, hfeed ▸ h.2⟩

private theorem ready_of_avoids (hblank : ∀ d ∈ w.head?, Text.isBlank d = false)
    (h : (level false).Avoids .semicolon w.tokens) : Ready w := by
  refine fun d hd => ⟨hblank d hd, ?_⟩
  rintro rfl
  cases w with
  | nil => cases hd
  | cons c w =>
    obtain rfl := Option.some.inj hd
    rw [Text.tokens_semicolon] at h
    exact h.1 rfl rfl

theorem word?_eq_none {token : Token} (h : w.tokens.head? = some token) (ht : token ≠ .identifier) :
    word? w = none := by
  unfold word?
  split
  · rename_i hlex
    rw [Text.tokens, hlex] at h
    exact absurd (Option.some.inj h).symm ht
  · rfl

/-- A body without braces closes its brackets wherever it stands. -/
theorem closedAt_of_clear (hblank : ∀ d ∈ w.head?, Text.isBlank d = false)
    (havoids : (level false).Avoids .semicolon w.tokens)
    (h : ∀ s ∈ readAll 0 w, s.2.Clear true w ∧ s.2.Accepted w) (a : Bool) : w.ClosedAt a := by
  have hclosed : w.Closed := by
    obtain ⟨b, hleads⟩ := steady_of_clear h false
    exact ⟨b, hleads, havoids⟩
  by_cases hless : w.tokens.head? = some .less
  · -- such a body is one expression
    have hne : w ≠ [] := by
      rintro rfl
      rw [Text.tokens_nil] at hless
      cases hless
    have hstop : findOutside .semicolon w = byteLength w := by
      simpa using Text.findOutside_closed hclosed (.inl rfl)
    have hread : readFirst 0 w = (.expression 0 (byteLength w), byteLength w) := by
      refine Reads.eq (.expression (fun word hword => ?_) ?_)
      · rw [word?_eq_none hless nofun] at hword
        cases hword
      · simp [upToSemicolon, dropBytes, hstop]
    have hpos : 0 < byteLength w := Nat.pos_of_ne_zero fun hz => hne (Text.eq_nil_of_byteLength hz)
    have hready := readAll_ready (ready_of_avoids hblank havoids) hne (by rwa [hread])
    rw [hready, hread] at h
    cases (h _ List.mem_cons_self).1 with
    | expression hwhole =>
      rw [Text.slice_self] at hwhole
      cases a with
      | false => exact hclosed
      | true => exact hwhole
  · obtain ⟨b, hleads⟩ := steady_of_clear h a
    exact ⟨b, hleads, avoids_level hless havoids a⟩

end

end Statement
end Reckoner
