import Reckoner.Proofs.Braces.Sole

/-! Bodies without braces. Such a body is cut out up to the next semicolon and parsed as a block of its own, so it is
one statement, except that an `if` or a `while` in it may end at a brace and others may follow. -/
namespace Reckoner

open Nesting (level)
open Parse (Returns blockContext)
open Render (parenthesized braced)
open Text (Behind byteLength dropBytes findOutside slice)

namespace Nesting

private theorem Avoids.behind {n : Nesting} {separator : Token} {ts us : List Token}
    (h : n.Avoids separator (ts ++ us)) :
    (n.feedAll ts).Avoids separator us := by
  induction ts generalizing n with
  | nil => exact h
  | cons t ts ih => exact ih h.2

end Nesting

namespace Text
variable {a b : Bool} {t u : Text}

/-- A semicolon that does not stand outside of brackets does not do so behind a part of the text either. -/
private theorem Passes.avoids (hp : Passes a t b u) (h : (level a).Avoids .semicolon t.tokens) :
    (level b).Avoids .semicolon u.tokens := by
  obtain ⟨ts, htokens, hleads⟩ := hp
  rw [htokens] at h
  have hbehind := h.behind
  rwa [hleads.state] at hbehind

private theorem findOutside_eq (h : (level false).Avoids .semicolon t.tokens) :
    findOutside .semicolon t = byteLength t := by
  have havoids : (level false).Avoids .semicolon ((Lexeme.lex 10 0 t).map Lexeme.token) := h
  have hfind := Nesting.find_append (byteLength t) havoids []
  rw [List.append_nil] at hfind
  exact hfind

end Text

namespace Statement
variable {w : Text} {s : Statement}

/-- The statement that takes up all of a text is the only one. -/
private theorem readAll_whole (hready : Ready w) (hne : w ≠ []) (h : readFirst 0 w = (s, byteLength w)) :
    readAll 0 w = [(0, s)] := by
  have hready : Ready (w ++ []) := by rwa [List.append_nil]
  have hread : readFirst 0 (w ++ []) = (s, 0 + byteLength w) := by rw [List.append_nil, h, Nat.zero_add]
  have hall := readAll_cons hready hne hread
  rwa [List.append_nil, readAll_nil] at hall

private theorem upToSemicolon_whole (front : Text) {behind : Text} (h : (level false).Avoids .semicolon behind.tokens) :
    (upToSemicolon 0 (byteLength front) (front ++ behind)).2 = byteLength (front ++ behind) := by
  rw [upToSemicolon, Text.dropBytes_byteLength, Text.findOutside_eq h, Nat.zero_add, Text.byteLength_append]

private theorem upToSemicolon_assign {name : Text} {value : Nat} (hready : Ready w)
    (havoids : (level false).Avoids .semicolon w.tokens) (hname : word? w = some name)
    (hvalue : assignment? (dropBytes (byteLength name) w) = some value) :
    (upToSemicolon 0 (byteLength name + value) w).2 = byteLength w := by
  obtain ⟨u, rfl, hisName, hu⟩ := word?_split (fun d hd => (hready d hd).1) hname
  rw [Text.dropBytes_byteLength] at hvalue
  obtain ⟨k, v, rfl, hk, rfl, hv⟩ := assignment?_split hvalue
  obtain ⟨b, hblanks, -⟩ := Text.Crosses.blanks hk true ('=' :: v)
  have hpasses := ((Text.Crosses.name hisName hu false).trans (hblanks.trans (.assign hv b))).passes
  have hfront : name ++ (k ++ '=' :: v) = name ++ (k ++ ['=']) ++ v := by simp
  have hbehind := hpasses.avoids havoids
  rw [hfront, ← Text.byteLength_append]
  exact upToSemicolon_whole _ hbehind

/-- Behind a word that nothing but blanks may follow no semicolon is left. -/
private theorem upToSemicolon_word {word : Text} (hready : Ready w) (havoids : (level false).Avoids .semicolon w.tokens)
    (hword : word? w = some word)
    (hblank : ∀ d ∈ slice w (upToSemicolon 0 (byteLength word) w).1 (upToSemicolon 0 (byteLength word) w).2,
      Text.isBlank d) :
    (upToSemicolon 0 (byteLength word) w).2 = byteLength w := by
  obtain ⟨u, rfl, hname, hu⟩ := word?_split (fun d hd => (hready d hd).1) hword
  obtain ⟨k, v, rfl, hfound, hfollows, -⟩ := Text.findOutside_split u
  have hstop : (upToSemicolon 0 (byteLength word) (word ++ (k ++ v))).2 = byteLength word + byteLength k := by
    rw [upToSemicolon, Text.dropBytes_byteLength, hfound, Nat.zero_add]
  have hk : ∀ d ∈ k, Text.isBlank d := by
    rwa [hstop, upToSemicolon, Nat.zero_add, ← List.append_assoc, Text.slice_append] at hblank
  obtain ⟨b, hblanks, -⟩ := Text.Crosses.blanks hk true v
  have hbehind := ((Text.Crosses.name hname hu false).trans hblanks).passes.avoids havoids
  rcases hfollows with rfl | ⟨next, rfl⟩
  · rw [hstop, List.append_nil, Text.byteLength_append]
  · rw [Text.tokens_semicolon] at hbehind
    exact absurd rfl (hbehind.1 rfl)

/-- A conditional whose body stands in braces ends with them, and the statements behind it are read on their own. -/
private theorem readAll_conditional {x k c m b : Text} {loops : Bool} (hk : ∀ d ∈ k, Text.isBlank d)
    (hc : c.Steady false)
    (hm : ∀ d ∈ m, Text.isBlank d) (hb : b.Steady false)
    (hx : x = conditionalWord loops ++ (k ++ (parenthesized c ++ (m ++ braced b)))) (start : Nat) (u : Text) :
    ∃ s, readAll start (x ++ u) = (start, s) :: readAll (start + byteLength x) u := by
  have hready : Ready (x ++ u) := by
    rw [hx, List.append_assoc]
    exact (bare_of_isName (conditionalWord_isName loops) _).2
  have hne : x ≠ [] := by
    rw [hx]
    cases loops <;> exact List.cons_ne_nil _ _
  have hstop : (readFirst start (x ++ u)).2 = start + byteLength x := by
    have hread := congrArg Prod.snd (reads_conditional loops hk hc start (m ++ braced b ++ u))
    rw [reads_braced hm hb, behindCondition] at hread
    simp only [hx, List.append_assoc, Text.byteLength_append, Nat.add_assoc] at hread ⊢
    exact hread
  exact ⟨_, readAll_cons hready hne (Prod.ext rfl hstop)⟩

end Statement

namespace Parse
open Statement (Ready readAll readFirst word? conditionalWord)

variable {env : Environment} {w : Text} {offset : Nat} {scope : Scope} {r : Block × Scope}

/-- Nothing follows a `return`. -/
private theorem Returns.nil_of_giveBack {c : BlockContext} {t : Tree} {done : List Action} {l : List (Nat × Statement)}
    {list : List Action × Scope} (h : Returns (Parse.statements c scope (.giveBack t :: done) l) list) : l = [] := by
  cases l with
  | nil => rfl
  | cons s l =>
    rw [Parse.statements] at h
    exact (not_returns_throw h).elim

/-- A body without braces is one statement, unless it starts with an `if` or a `while`. -/
private theorem Returns.bare_single (hready : Ready w) (hne : w ≠ [])
    (havoids : (level false).Avoids .semicolon w.tokens)
    (h : Returns (parseBlock env w offset scope) r) (hword : ∀ loops, word? w ≠ some (conditionalWord loops)) :
    r.1.actions.length = 1 := by
  have hall := Statement.readAll_ready hready hne (Statement.readFirst_checks (.self w) hready hne).forward
  have hwhole (hstop : (readFirst 0 w).2 = byteLength w) : (readAll 0 w).length = 1 := by
    rw [Statement.readAll_whole hready hne (Prod.ext rfl hstop), List.length_singleton]
  obtain ⟨list, hstatements, hactions⟩ := h.actions
  rw [hall] at hstatements
  obtain ⟨next, hfirst, hrest⟩ := hstatements.statements
  have haccepted : (readFirst 0 w).1.Accepted w := ⟨_, _, _, _, _, hfirst⟩
  have hisElse := hfirst.not_isElse
  rw [h.length_actions]
  -- an expression, an assignment and a jump take up all of the text, and nothing follows a `return`
  cases Statement.reads_readFirst 0 w with
  | expression hother hr =>
    refine hwhole ?_
    rw [hr]
    exact Statement.upToSemicolon_whole [] havoids
  | giveBack hgiveBack hr =>
    rw [hr] at hfirst
    obtain ⟨tree, -, hnext⟩ := hfirst.bind
    obtain ⟨_, hs⟩ := hnext
    obtain rfl := Except.ok.inj hs
    rw [hall, hrest.nil_of_giveBack, List.length_singleton]
  | jump leaves hjump hr =>
    refine hwhole ?_
    rw [hr] at haccepted ⊢
    exact Statement.upToSemicolon_word hready havoids hjump haccepted.jump
  | assign name value hname hother hvalue hr =>
    refine hwhole ?_
    rw [hr]
    exact Statement.upToSemicolon_assign hready havoids hname hvalue
  | conditional loops hif => exact absurd hif (hword loops)
  | otherwise helse hif hr =>
    rw [hr] at hisElse
    cases hisElse
  | elseIf helse hif hnone hr =>
    rw [hr] at hisElse
    cases hisElse
  | elseIfElse helse hif hagain hr =>
    rw [hr] at hisElse
    cases hisElse

/-- A body without braces has as many actions as there are statements in it: one, unless it is empty or starts with
an `if` or a `while`. -/
theorem Returns.body_single {whole t : Text} {start first stop : Nat} (hbehind : Behind whole start t)
    (hstart : 0 < start) (hread : (Statement.readBody start t).1 = .bare first stop)
    (h : Returns (body (blockContext env whole offset) scope (.bare first stop)) r) :
    r.1.actions.length = (readAll 0 (slice whole first stop)).length ∧
      (first < stop → (∀ loops, word? (slice whole first stop) ≠ some (conditionalWord loops)) →
        r.1.actions.length = 1) := by
  cases Statement.readsBody_readBody start t with
  | bare k w u ht hk hbare hu havoids hr =>
    rw [hr] at hread
    obtain ⟨rfl, rfl⟩ := Body.bare.inj hread
    have hat : whole.At (start + byteLength k) w := by
      have hinner := hbehind.at
      rw [ht] at hinner
      exact hinner.right.left
    have hblock : Returns (parseBlock env w (offset + (start + byteLength k - 1) + 1) scope) r := by
      have hplace : start + byteLength k - 1 + 1 = start + byteLength k := by omega
      simp only [body, blockContext, hplace, hat.slice] at h
      exact h
    rw [hat.slice]
    refine ⟨hblock.length_actions, fun hpos hword => ?_⟩
    have hne : w ≠ [] := by
      rintro rfl
      exact absurd hpos (Nat.lt_irrefl _)
    have hready : Ready w := by
      intro d hd
      refine ⟨(hbare.head d ?_).1, ?_⟩
      · rw [List.head?_append, Option.mem_def.mp hd]
        rfl
      · rintro rfl
        obtain ⟨v, rfl⟩ := List.head?_eq_some_iff.mp hd
        rw [Text.tokens_semicolon] at havoids
        exact havoids.1 rfl rfl
    exact hblock.bare_single hready hne havoids hword
  | braced k b u ht hk hb hr =>
    rw [hr] at hread
    cases hread
  | missing place hr =>
    rw [hr] at hread
    cases hread
  | unclosed brace hr =>
    rw [hr] at hread
    cases hread

/-- A body without braces that starts with a conditional whose own body stands in braces goes on behind them. -/
theorem Returns.length_behind_braces {x k c m b u : Text} {loops : Bool} (hk : ∀ d ∈ k, Text.isBlank d)
    (hc : c.Steady false) (hm : ∀ d ∈ m, Text.isBlank d) (hb : b.Steady false)
    (hx : x = conditionalWord loops ++ (k ++ (parenthesized c ++ (m ++ braced b))))
    (h : Returns (parseBlock env (x ++ u) offset scope) r) :
    r.1.actions.length = (readAll (0 + byteLength x) u).length + 1 := by
  obtain ⟨s, hall⟩ := Statement.readAll_conditional hk hc hm hb hx 0 u
  rw [h.length_actions, hall, List.length_cons]

/-- What stands behind the closing brace belongs to the body of the `if`, which holds two statements. -/
theorem parseBlock_behind_braces :
    let scope : Scope := .function [['a'], ['b']] none
    (parseBlock {} "if(a)while(b)\x7b\x7da".toList 0 scope).run.run {} =
      (.ok (⟨[.when (.argument 0) ⟨[.loop (.argument 1) ⟨[], [], 0, 0⟩, .compute (.argument 0)], [], 0, 0⟩], [], 0, 0⟩,
        scope), {}) := by
  unfold parseBlock parseBlock parseBlock parseExpression
  with_unfolding_all rfl

end Parse

end Reckoner
