import Reckoner.Proofs.Braces.Clear

/-! A text that the parser accepts as one statement. What is read of it stays the same where something else follows it,
and up to there it closes its brackets. -/
namespace Reckoner

open Nesting (level)
open Parse (Returns)
open Render (parenthesized braced)
open Text (Behind byteLength dropBytes findOutside slice)

namespace Statement
variable {start : Nat} {k w x u v z e name : Text}

/-- The word at the start of a text does not hang on what follows the text. -/
theorem word?_append (hw : w.Whole) (hu : u.Follows) : word? (w ++ u) = word? w := by
  have hlex := Text.lex_whole hw hu.breaks 0
  have hall := Lexeme.Remain.all 10 w
  unfold word?
  rw [hlex]
  generalize Lexeme.lex 10 0 w = ls at hall
  rcases ls with _ | ⟨⟨token, first, stop⟩, ls⟩
  · rcases hu with rfl | ⟨next, rfl⟩
    · rw [Lexeme.lex]
      rfl
    · rw [Lexeme.lex_bracket (by simp)]
      rfl
  · cases token with
    | identifier =>
      obtain ⟨before, middle, after, rfl, rfl, rfl⟩ := hall.cut.exists_middle
      have houter := Text.slice_append before middle (after ++ u)
      rw [← List.append_assoc] at houter
      simp only [List.cons_append, houter, Text.slice_append]
    | _ => rfl

private theorem assignment?_append (hw : w.Whole) (hu : u.Follows) : assignment? (w ++ u) = assignment? w := by
  have hlex := Text.lex_whole hw hu.breaks 0
  unfold assignment?
  rw [hlex]
  rcases Lexeme.lex 10 0 w with _ | ⟨⟨token, first, stop⟩, ls⟩
  · rcases hu with rfl | ⟨next, rfl⟩
    · rw [Lexeme.lex]
      rfl
    · rw [Lexeme.lex_bracket (by simp)]
      rfl
  · cases token <;> rfl

/-! ### What is read where something else follows -/

/-- An expression. -/
private theorem reads_expression (hw : w.Closed) (hhead : ∀ d ∈ w.head?, Text.isBlank d = false) (hz : z.Follows)
    (hword : ∀ name, word? (w ++ z) = some name →
      name ∉ leadingWords ∧ assignment? (dropBytes (byteLength name) (w ++ z)) = none) (hu : u.Follows) (start : Nat) :
    readFirst start (w ++ u) = (.expression start (start + byteLength w), start + byteLength w) := by
  have hwhole := hw.steady.whole
  refine Reads.eq (.expression (fun name hname => ?_) ?_)
  · rw [word?_append hwhole hu] at hname
    have hsame := hword name ((word?_append hwhole hz).trans hname)
    obtain ⟨rest, rfl, hisName, hrest⟩ := word?_split hhead hname
    have hbehind : rest.Whole := fun token htoken => hwhole token (by
      rw [Text.tokens_name hisName hrest]
      exact List.mem_cons_of_mem _ htoken)
    rw [List.append_assoc, Text.dropBytes_byteLength, assignment?_append hbehind hz] at hsame
    rwa [List.append_assoc, Text.dropBytes_byteLength, assignment?_append hbehind hu]
  · simp only [upToSemicolon, Nat.add_zero, dropBytes, Text.findOutside_closed hw hu]

private theorem isNameChar_append (hw : ∀ d ∈ (w ++ z).head?, Lexeme.isNameChar d = false) (hu : u.Follows) :
    ∀ d ∈ (w ++ u).head?, Lexeme.isNameChar d = false := by
  cases w with
  | nil => exact hu.isNameChar
  | cons c w => exact hw

/-- A `return` and its value. -/
private theorem reads_giveBack (he : e.Closed) (hhead : ∀ d ∈ (e ++ z).head?, Lexeme.isNameChar d = false)
    (hu : u.Follows)
    (start : Nat) :
    readFirst start ("return".toList ++ (e ++ u)) =
      (.giveBack (start + byteLength "return".toList) (start + byteLength "return".toList + byteLength e),
        start + byteLength "return".toList + byteLength e) := by
  refine Reads.eq (.giveBack (word?_name (by decide) (isNameChar_append hhead hu)) ?_)
  rw [upToSemicolon_append, Text.findOutside_closed he hu]

/-- A `break` or a `continue`, and the blanks behind it. -/
private theorem reads_jump {leaves : Bool} (he : e.Closed) (hhead : ∀ d ∈ (e ++ z).head?, Lexeme.isNameChar d = false)
    (hu : u.Follows) (start : Nat) :
    readFirst start (jumpWord leaves ++ (e ++ u)) =
      (.jump leaves start (start + byteLength (jumpWord leaves)) (start + byteLength (jumpWord leaves) + byteLength e),
        start + byteLength (jumpWord leaves) + byteLength e) := by
  have hname : (jumpWord leaves).IsName := by cases leaves <;> decide
  refine Reads.eq (.jump leaves (word?_name hname (isNameChar_append hhead hu)) ?_)
  rw [upToSemicolon_append, Text.findOutside_closed he hu]

/-- An assignment: a name, a lone `=` behind blanks, and the value. -/
private theorem reads_assign (hname : name.IsName) (hother : name ∉ leadingWords)
    (hk : ∀ d ∈ (k ++ ['=']).head?, Lexeme.isNameChar d = false) (hwhole : (k ++ ['='] ++ e).Whole)
    (hz : z.Follows) (hvalue : assignment? (k ++ ['='] ++ e ++ z) = some (byteLength (k ++ ['=']))) (he : e.Closed)
    (hu : u.Follows) (start : Nat) :
    readFirst start (name ++ (k ++ ['=']) ++ (e ++ u)) =
      (.assign name start (start + byteLength (name ++ (k ++ ['='])))
          (start + byteLength (name ++ (k ++ ['='])) + byteLength e),
        start + byteLength (name ++ (k ++ ['='])) + byteLength e) := by
  have hhead : ∀ d ∈ (k ++ ['='] ++ (e ++ u)).head?, Lexeme.isNameChar d = false := by
    cases k with
    | nil => exact hk
    | cons c k => exact hk
  have hfound : assignment? (k ++ ['='] ++ (e ++ u)) = some (byteLength (k ++ ['='])) := by
    rw [← List.append_assoc, assignment?_append hwhole hu, ← assignment?_append hwhole hz, hvalue]
  have hsize : byteLength name + byteLength (k ++ ['=']) = byteLength (name ++ (k ++ ['='])) :=
    (Text.byteLength_append name _).symm
  refine Reads.eq (.assign name (byteLength (k ++ ['='])) ?_ hother ?_ ?_)
  · rw [List.append_assoc]
    exact word?_name hname hhead
  · rw [List.append_assoc, Text.dropBytes_byteLength]
    exact hfound
  · rw [hsize, upToSemicolon_append, Text.findOutside_closed he hu]

def behindCondition (start : Nat) (loops : Bool) (k c : Text) : Nat :=
  start + byteLength (conditionalWord loops) + byteLength k + byteLength (parenthesized c)

theorem conditionalWord_isName (loops : Bool) : (conditionalWord loops).IsName := by cases loops <;> decide

private theorem isNameChar_condition (hk : ∀ d ∈ k, Text.isBlank d) (c t : Text) :
    ∀ d ∈ (k ++ (parenthesized c ++ t)).head?, Lexeme.isNameChar d = false := by
  cases k with
  | nil => exact fun d hd => Option.some.inj hd ▸ rfl
  | cons d k =>
    intro e he
    obtain rfl := Option.some.inj he
    rw [← Bool.not_eq_true]
    intro hletter
    have hblank := hk d List.mem_cons_self
    rw [Text.isBlank_of_isNameChar hletter] at hblank
    cases hblank

/-- An `if` or a `while` with its condition. -/
theorem reads_conditional (loops : Bool) {c : Text} (hk : ∀ d ∈ k, Text.isBlank d) (hc : c.Steady false) (start : Nat)
    (t : Text) :
    readFirst start (conditionalWord loops ++ (k ++ (parenthesized c ++ t))) =
      (.conditional loops (.closed (start + byteLength (conditionalWord loops) + byteLength k)
          (behindCondition start loops k c)) (readBody (behindCondition start loops k c) t).1,
        (readBody (behindCondition start loops k c) t).2) := by
  have hparenthesis : ∀ d ∈ (parenthesized c ++ t).head?, Text.isBlank d = false := fun d hd => by
    obtain rfl := Option.some.inj hd
    decide
  refine Reads.eq (.conditional loops (word?_name (conditionalWord_isName loops) (isNameChar_condition hk c t)) ?_)
  rw [Text.dropBytes_byteLength, readConditional_blank hk hparenthesis, readConditional_closed hc]
  rfl

/-- A body in braces, behind blanks. -/
theorem reads_braced {b : Text} (hk : ∀ d ∈ k, Text.isBlank d) (hb : b.Steady false) (start : Nat) (u : Text) :
    readBody start (k ++ braced b ++ u) =
      (.braced (start + byteLength k) (start + byteLength (k ++ braced b)), start + byteLength (k ++ braced b)) := by
  have hbrace : ∀ d ∈ (braced b ++ u).head?, Text.isBlank d = false := fun d hd => by
    obtain rfl := Option.some.inj hd
    decide
  rw [List.append_assoc, readBody_blank hk hbrace, readBody_braced hb, Text.byteLength_append, Nat.add_assoc]

theorem Bare.append (hw : Bare w) (u : Text) : Bare (w ++ u) := by
  cases w with
  | nil => exact absurd rfl hw.ne_nil
  | cons c w => exact ⟨List.cons_ne_nil _ _, hw.head⟩

/-- A body without braces, behind blanks. -/
theorem reads_bare (hk : ∀ d ∈ k, Text.isBlank d) (hw : Bare w) (hclosed : w.Closed) (hu : u.Follows) (start : Nat) :
    readBody start (k ++ w ++ u) =
      (.bare (start + byteLength k) (start + byteLength (k ++ w)), start + byteLength (k ++ w)) := by
  have hbare := hw.append u
  rw [List.append_assoc, readBody_blank hk fun d hd => (hbare.head d hd).1, readBody_bare hbare,
    Text.findOutside_closed hclosed hu, Text.byteLength_append, Nat.add_assoc]

/-! ### One statement -/

/-- The text `k ++ (x ++ (b ++ z))` is one statement, which is written as `x`; the function tells what is read where it
stands. -/
structure Sole (k x b z : Text) (f : Nat → Statement) : Prop where
  front : ∀ d ∈ k, Text.isBlank d
  behind : ∀ d ∈ b, Text.isBlank d
  separates : Separates z
  follows : z.Follows
  bare : Bare x
  ready : Ready x
  closed : (x ++ b).Closed
  reads (start : Nat) {u : Text} (hu : u.Follows) : readFirst start (x ++ (b ++ u)) = (f start, start + byteLength x)

theorem bare_of_isName (hn : name.IsName) (t : Text) : Bare (name ++ t) ∧ Ready (name ++ t) := by
  cases name with
  | nil => exact hn.elim
  | cons c name =>
    have hc := hn.isNameChar c List.mem_cons_self
    refine ⟨⟨List.cons_ne_nil _ _, fun d hd => ?_⟩, fun d hd => ?_⟩
    · obtain rfl := Option.some.inj hd
      exact ⟨Text.isBlank_of_isNameChar hc, by rintro rfl; cases hc⟩
    · obtain rfl := Option.some.inj hd
      exact ⟨Text.isBlank_of_isNameChar hc, by rintro rfl; cases hc⟩

private theorem bare_of_sound (hsound : w.Sound) (hready : Ready w) : Bare w := by
  refine ⟨hsound.ne_nil, fun d hd => ⟨(hready d hd).1, ?_⟩⟩
  rintro rfl
  cases w with
  | nil => cases hd
  | cons c w =>
    obtain rfl := Option.some.inj hd
    refine hsound.unbraced ?_
    rw [Text.tokens, Lexeme.lex_bracket (by simp)]
    rfl

/-- What holds of the first character of a text holds of that of its front. -/
private theorem head_of_append {p : Char → Prop} (h : ∀ d ∈ (w ++ z).head?, p d) : ∀ d ∈ w.head?, p d := by
  cases w with
  | nil => nofun
  | cons c w => exact h

theorem Separates.append (hk : Separates k) (hz : Separates z) : Separates (k ++ z) := fun d hd =>
  (List.mem_append.mp hd).elim (hk d) (hz d)

/-- Blanks and semicolons are blanks up to the first semicolon. -/
private theorem Separates.split (h : Separates z) :
    ∃ b y : Text, z = b ++ y ∧ (∀ d ∈ b, Text.isBlank d) ∧ y.Follows ∧ Separates y := by
  obtain ⟨b, y, rfl, hb, hy⟩ := leadingBlank_split z
  refine ⟨b, y, rfl, hb, ?_, fun d hd => h d (List.mem_append_right b hd)⟩
  cases y with
  | nil => exact .inl rfl
  | cons d y =>
    have hd := hy d rfl
    rcases h d (List.mem_append_right b List.mem_cons_self) with hblank | rfl
    · rw [hblank] at hd
      cases hd
    · exact .inr ⟨y, rfl⟩

section
variable {s : Text} {first : Statement} {stop : Nat}

/-- What is left behind a front and one more part. -/
private theorem dropBytes_behind (start : Nat) (w e z : Text) :
    dropBytes (start + byteLength w + byteLength e - start) (w ++ (e ++ z)) = z := by
  have hsize : start + byteLength w + byteLength e - start = byteLength (w ++ e) := by
    rw [Text.byteLength_append]
    omega
  rw [hsize, ← List.append_assoc, Text.dropBytes_byteLength]

/-- A statement up to the next semicolon. -/
private theorem exists_sole_upTo (hk : ∀ d ∈ k, Text.isBlank d) (hz : z.Follows)
    (hrest : Separates (dropBytes (start + byteLength w + byteLength e - start) (w ++ (e ++ z))))
    (hbare : Bare (w ++ e)) (hready : Ready (w ++ e)) (hclosed : (w ++ e).Closed)
    (hreads : ∃ f : Nat → Statement, ∀ start u, u.Follows →
      readFirst start (w ++ (e ++ u)) = (f start, start + byteLength w + byteLength e)) :
    ∃ x b y f, w ++ (e ++ z) = x ++ (b ++ y) ∧ Sole k x b y f := by
  obtain ⟨f, hreads⟩ := hreads
  rw [dropBytes_behind] at hrest
  refine ⟨w ++ e, [], z, f, by simp, hk, nofun, hrest, hz, hbare, hready, ?_, fun start u hu => ?_⟩
  · rwa [List.append_nil]
  · rw [List.nil_append, List.append_assoc, hreads start u hu, Text.byteLength_append, Nat.add_assoc]

/-- A word and what follows it, up to the next semicolon. -/
private theorem exists_sole_word (hk : ∀ d ∈ k, Text.isBlank d) (hz : z.Follows) (hname : w.IsName)
    (hw : ∀ d ∈ (e ++ z).head?, Lexeme.isNameChar d = false) (he : e.ClosedAt true)
    (hrest : Separates (dropBytes (start + byteLength w + byteLength e - start) (w ++ (e ++ z))))
    (hreads : ∃ f : Nat → Statement, ∀ start u, u.Follows →
      readFirst start (w ++ (e ++ u)) = (f start, start + byteLength w + byteLength e)) :
    ∃ x b y f, w ++ (e ++ z) = x ++ (b ++ y) ∧ Sole k x b y f := by
  obtain ⟨hbare, hready⟩ := bare_of_isName hname e
  have hclosed := (Text.Crosses.name hname (head_of_append hw) false).closedAt_of he
  exact exists_sole_upTo hk hz hrest hbare hready hclosed hreads

/-- A name, a lone `=` and a value, up to the next semicolon. -/
private theorem exists_sole_assign {name m : Text} (hk : ∀ d ∈ k, Text.isBlank d) (hz : z.Follows) (hname : name.IsName)
    (hother : name ∉ leadingWords) (hm : ∀ d ∈ m, Text.isBlank d)
    (hw : ∀ d ∈ (m ++ '=' :: (e ++ z)).head?, Lexeme.isNameChar d = false)
    (hu : ∀ d ∈ (e ++ z).head?, d ≠ '=' ∧ d ≠ '>')
    (hvalue : assignment? (m ++ '=' :: (e ++ z)) = some (byteLength (m ++ ['=']))) (he : e.Closed)
    (hrest : Separates (dropBytes (start + byteLength (name ++ (m ++ ['='])) + byteLength e - start)
      (name ++ (m ++ ['=']) ++ (e ++ z)))) :
    ∃ x b y f, name ++ (m ++ ['=']) ++ (e ++ z) = x ++ (b ++ y) ∧ Sole k x b y f := by
  have hjoin (t : Text) : m ++ '=' :: t = m ++ ['='] ++ t := by simp
  rw [hjoin, ← List.append_assoc _ e z] at hw hvalue
  have hsign : (m ++ ['='] ++ e).ClosedAt true := by
    obtain ⟨c, hblanks, -⟩ := Text.Crosses.blanks hm true ('=' :: e)
    rw [← hjoin]
    exact (hblanks.trans (.assign (head_of_append hu) c)).closedAt_of he
  have hclosed : (name ++ (m ++ ['=']) ++ e).Closed := by
    rw [List.append_assoc]
    exact (Text.Crosses.name hname (head_of_append hw) false).closedAt_of hsign
  obtain ⟨hbare, hready⟩ := bare_of_isName hname (m ++ ['='] ++ e)
  rw [← List.append_assoc name] at hbare hready
  exact exists_sole_upTo hk hz hrest hbare hready hclosed ⟨_, fun start _ hu =>
    reads_assign hname hother (head_of_append (head_of_append hw)) hsign.steady.whole hz hvalue he hu start⟩

/-- A condition behind its word closes its brackets, and what follows is read as behind an operand. -/
private theorem closed_conditional (loops : Bool) {c t : Text} (hk : ∀ d ∈ k, Text.isBlank d) (hc : c.Steady false)
    (ht : t.ClosedAt true) : (conditionalWord loops ++ (k ++ (parenthesized c ++ t))).Closed := by
  obtain ⟨a, hblank, -⟩ := Text.Crosses.blanks hk true (parenthesized c ++ t)
  refine Text.Crosses.closedAt_of ?_ ht
  exact ((Text.Crosses.name (conditionalWord_isName loops) (isNameChar_condition hk c t) false).trans hblank).trans
    (.group .parentheses hc a t)

/-- A condition and a body that is read in the same way wherever it stands. -/
private theorem sole_conditional (loops : Bool) {m c y b : Text} {g : Nat → Body} (hk : ∀ d ∈ k, Text.isBlank d)
    (hm : ∀ d ∈ m, Text.isBlank d) (hc : c.Steady false) (hy : (y ++ b).ClosedAt true) (hb : ∀ d ∈ b, Text.isBlank d)
    (hseparates : Separates z) (hz : z.Follows)
    (hbody : ∀ start u, u.Follows → readBody start (y ++ (b ++ u)) = (g start, start + byteLength y)) :
    Sole k (conditionalWord loops ++ (m ++ (parenthesized c ++ y))) b z fun start =>
      .conditional loops (.closed (start + byteLength (conditionalWord loops) + byteLength m)
        (behindCondition start loops m c)) (g (behindCondition start loops m c)) := by
  obtain ⟨hbare, hready⟩ := bare_of_isName (conditionalWord_isName loops) (m ++ (parenthesized c ++ y))
  refine ⟨hk, hb, hseparates, hz, hbare, hready, ?_, fun start u hu => ?_⟩
  · have hclosed := closed_conditional loops hm hc hy
    simpa only [List.append_assoc] using hclosed
  · have hread := reads_conditional loops hm hc start (y ++ (b ++ u))
    rw [hbody _ u hu] at hread
    simp only [List.append_assoc, hread, Prod.mk.injEq, true_and]
    simp only [behindCondition, Text.byteLength_append]
    omega

/-- A condition and a body in braces. -/
private theorem exists_sole_braced (loops : Bool) {m c y u : Text} (hk : ∀ d ∈ k, Text.isBlank d)
    (hm : ∀ d ∈ m, Text.isBlank d) (hc : c.Steady false) (hy : ∀ d ∈ y, Text.isBlank d) (he : e.Steady false)
    (hu : Separates u) :
    ∃ x b z f, conditionalWord loops ++ m ++ parenthesized c ++ (y ++ (braced e ++ u)) = x ++ (b ++ z) ∧
      Sole k x b z f := by
  obtain ⟨b, z, rfl, hb, hz, hseparates⟩ := hu.split
  have hclosed : (y ++ braced e ++ b).ClosedAt true := by
    obtain ⟨a, hblank, -⟩ := Text.Crosses.blanks hy true (braced e ++ b)
    rw [List.append_assoc]
    exact (hblank.trans (.group .braces he a b)).closedAt_of (Text.closedAt_blanks hb true)
  have hsole := sole_conditional loops hk hm hc hclosed hb hseparates hz fun start u _ =>
    reads_braced hy he start (b ++ u)
  exact ⟨_, b, z, _, by simp, hsole⟩

/-- A condition and a body without braces. -/
private theorem exists_sole_bare (loops : Bool) {m c y u : Text} (hk : ∀ d ∈ k, Text.isBlank d)
    (hm : ∀ d ∈ m, Text.isBlank d) (hc : c.Steady false) (hy : ∀ d ∈ y, Text.isBlank d) (hw : Bare w)
    (hclosed : ∀ a, w.ClosedAt a) (hu : u.Follows) (hseparates : Separates u) :
    ∃ x b z f, conditionalWord loops ++ m ++ parenthesized c ++ (y ++ (w ++ u)) = x ++ (b ++ z) ∧ Sole k x b z f := by
  have hvalue : (y ++ w ++ []).ClosedAt true := by
    obtain ⟨a, hblank, -⟩ := Text.Crosses.blanks hy true w
    rw [List.append_nil]
    exact hblank.closedAt_of (hclosed a)
  have hsole := sole_conditional loops hk hm hc hvalue (List.forall_mem_nil _) hseparates hu fun start _ hu =>
    reads_bare hy hw (hclosed false) hu start
  exact ⟨_, [], u, _, by simp, hsole⟩

/-- A statement that is a condition and its body. -/
private theorem exists_sole_conditional {loops : Bool} {head : Condition} {code : Body}
    (h : Behind s start (conditionalWord loops ++ w)) (hk : ∀ d ∈ k, Text.isBlank d)
    (hread : readConditional loops (start + byteLength (conditionalWord loops)) w =
      (.conditional loops head code, stop))
    (haccepted : Accepted s (.conditional loops head code)) (hclear : Clear false s (.conditional loops head code))
    (hrest : Separates (dropBytes (stop - start) (conditionalWord loops ++ w))) :
    ∃ x b z f, conditionalWord loops ++ w = x ++ (b ++ z) ∧ Sole k x b z f := by
  cases hclear with
  | conditional hfound hclear =>
    obtain ⟨m, c, t, rfl, hm, hc⟩ := readConditional_split (congrArg Prod.fst hread)
    have hparenthesis : ∀ d ∈ (parenthesized c ++ t).head?, Text.isBlank d = false := fun d hd => by
      obtain rfl := Option.some.inj hd
      decide
    rw [readConditional_blank hm hparenthesis, readConditional_closed hc] at hread
    obtain ⟨hconditional, rfl⟩ := Prod.mk.inj hread
    obtain ⟨-, -, rfl⟩ := Statement.conditional.inj hconditional
    clear hconditional hread
    have hjoin : conditionalWord loops ++ (m ++ (parenthesized c ++ t)) =
        conditionalWord loops ++ m ++ parenthesized c ++ t := by simp
    have hplace : start + byteLength (conditionalWord loops) + byteLength m + byteLength (parenthesized c) =
        start + byteLength (conditionalWord loops ++ m ++ parenthesized c) := by
      simp only [Text.byteLength_append, Nat.add_assoc]
    rw [hjoin] at h hrest ⊢
    rw [hplace] at hfound hclear haccepted hrest
    have hreads := readsBody_readBody (start + byteLength (conditionalWord loops ++ m ++ parenthesized c)) t
    generalize readBody (start + byteLength (conditionalWord loops ++ m ++ parenthesized c)) t = r
      at hreads hfound hclear haccepted hrest
    cases hreads with
    | missing place hr => exact (hr ▸ hfound : (Body.missing place).Found).elim
    | unclosed brace hr => exact (hr ▸ hfound : (Body.unclosed brace).Found).elim
    | braced y e u ht hy he hr =>
      subst ht hr
      simp only at hrest
      rw [Nat.add_assoc _ (byteLength y), ← Text.byteLength_append y, ← List.append_assoc y, dropBytes_behind] at hrest
      exact exists_sole_braced loops hk hm hc hy he hrest
    | bare y w u ht hy hw hu havoids hr =>
      subst ht hr
      simp only at hrest
      rw [Nat.add_assoc _ (byteLength y), ← Text.byteLength_append y, ← List.append_assoc y, dropBytes_behind] at hrest
      have hne : w ≠ [] := by
        rintro rfl
        exact Nat.lt_irrefl _ hfound
      have hbare : Bare w := ⟨hne, head_of_append hw.head⟩
      have hpos : 0 < start + byteLength (conditionalWord loops ++ m ++ parenthesized c) + byteLength y := by
        have hpos := byteLength_parenthesized_pos c
        rw [Text.byteLength_append]
        omega
      have haccepted := (haccepted.bare hpos).statements
      have hclear := hclear _ _ rfl
      rw [h.append.slice_append] at haccepted hclear
      have hclosed (a : Bool) := closedAt_of_clear (fun d hd => (hbare.head d hd).1) havoids
        (fun s hs => ⟨hclear s hs, haccepted s hs⟩) a
      exact exists_sole_bare loops hk hm hc hy hbare hclosed hu hrest

/-- The statement that a text consists of, behind the blanks in front of it. -/
private theorem exists_sole_of_reads (h : Behind s start v) (hk : ∀ d ∈ k, Text.isBlank d) (hv : Ready v)
    (hreads : Reads start v (first, stop)) (haccepted : first.Accepted s) (hclear : first.Clear false s)
    (helse : first.isElse = false) (hrest : Separates (dropBytes (stop - start) v)) :
    ∃ x b z f, v = x ++ (b ++ z) ∧ Sole k x b z f := by
  have hhead : ∀ d ∈ v.head?, Text.isBlank d = false := fun d hd => (hv d hd).1
  cases hreads with
  | expression hword hr =>
    obtain ⟨rfl, rfl⟩ := Prod.mk.inj hr
    obtain ⟨w, z, rfl, hfound, hz, -⟩ := Text.findOutside_split v
    simp only [upToSemicolon, Nat.add_zero, dropBytes, hfound] at haccepted hrest
    have hsound := haccepted.expression
    rw [h.at.left.slice] at hsound
    have hready : Ready w := head_of_append hv
    refine exists_sole_upTo (w := []) hk hz hrest (bare_of_sound hsound hready) hready hsound.closed
      ⟨fun start => .expression start (start + byteLength w), fun start u hu => ?_⟩
    exact reads_expression hsound.closed (fun d hd => (hready d hd).1) hz hword hu start
  | giveBack hword hr =>
    obtain ⟨rfl, rfl⟩ := Prod.mk.inj hr
    obtain ⟨w, rfl, hname, hw⟩ := word?_split hhead hword
    obtain ⟨e, z, rfl, hfound, hz, -⟩ := Text.findOutside_split w
    rw [upToSemicolon_append, hfound] at haccepted hclear hrest
    have hslice : slice s (start + byteLength "return".toList)
        (start + byteLength "return".toList + byteLength e) = e := h.slice_append
    have hsound := haccepted.giveBack
    rw [hslice] at hsound
    cases hclear with
    | giveBack hclosed =>
      rw [hslice] at hclosed
      exact exists_sole_word hk hz hname hw hclosed hrest
        ⟨_, fun start _ hu => reads_giveBack hsound.closed hw hu start⟩
  | jump leaves hword hr =>
    obtain ⟨rfl, rfl⟩ := Prod.mk.inj hr
    obtain ⟨w, rfl, hname, hw⟩ := word?_split hhead hword
    obtain ⟨e, z, rfl, hfound, hz, -⟩ := Text.findOutside_split w
    rw [upToSemicolon_append, hfound] at haccepted hrest
    have hslice : slice s (start + byteLength (jumpWord leaves))
        (start + byteLength (jumpWord leaves) + byteLength e) = e := h.slice_append
    have hblank := haccepted.jump
    rw [hslice] at hblank
    exact exists_sole_word hk hz hname hw (Text.closedAt_blanks hblank true) hrest
      ⟨_, fun start _ hu => reads_jump (Text.closedAt_blanks hblank false) hw hu start⟩
  | assign name value hword hother hvalue hr =>
    obtain ⟨rfl, rfl⟩ := Prod.mk.inj hr
    obtain ⟨w, rfl, hname, hw⟩ := word?_split hhead hword
    rw [Text.dropBytes_byteLength] at hvalue
    have hsome := hvalue
    obtain ⟨m, u, rfl, hm, rfl, hu⟩ := assignment?_split hvalue
    obtain ⟨e, z, rfl, hfound, hz, -⟩ := Text.findOutside_split u
    have hsplit : name ++ (m ++ '=' :: (e ++ z)) = name ++ (m ++ ['=']) ++ (e ++ z) := by simp
    have hsize : byteLength name + byteLength (m ++ ['=']) = byteLength (name ++ (m ++ ['='])) :=
      (Text.byteLength_append name _).symm
    rw [hsize, hsplit, upToSemicolon_append, hfound] at haccepted hrest
    rw [hsplit] at h
    have hsound := haccepted.assign
    rw [h.slice_append] at hsound
    rw [hsplit]
    exact exists_sole_assign hk hz hname hother hm hw hu hsome hsound.closed hrest
  | conditional loops hword hr =>
    obtain ⟨w, rfl, hname, hw⟩ := word?_split hhead hword
    rw [Text.dropBytes_byteLength] at hr
    obtain ⟨head, code, hread⟩ := readConditional_eq loops (start + byteLength (conditionalWord loops)) w
    rw [← hr] at hread
    obtain rfl : first = _ := hread
    exact exists_sole_conditional h hk hr.symm haccepted hclear hrest
  | otherwise hword hif hr =>
    obtain ⟨rfl, -⟩ := Prod.mk.inj hr
    cases helse
  | elseIf hword hif hnone hr =>
    obtain ⟨rfl, -⟩ := Prod.mk.inj hr
    cases helse
  | elseIfElse hword hif hagain hr =>
    obtain ⟨rfl, -⟩ := Prod.mk.inj hr
    cases helse

private theorem separates_of_readAll {t : Text} (h : readAll start t = []) : Separates t := by
  obtain ⟨k, u, rfl, hk, hu⟩ := separators_split t
  rw [readAll_separators hk, readAll] at h
  simp only [separators_ready hu, dropBytes] at h
  split at h
  · rename_i hnil
    rwa [hnil, List.append_nil]
  · cases h

end

end Statement

/-- The text is accepted as one statement, in some scope. No semicolon stands in front of the statement, and the bracket
reader sees through it. -/
structure Text.PlainStatement (s : Text) : Prop where
  accepted : ∃ env offset scope r, Returns (parseBlock env s offset scope) r ∧ r.1.actions.length = 1
  immediate : ∀ d ∈ (Text.trimStart s).head?, d ≠ ';'
  clear : ∀ first ∈ Statement.readAll 0 s, first.2.Clear false s

theorem Statement.exists_sole {s : Text} (hs : s.PlainStatement) :
    ∃ k x b z f, s = k ++ (x ++ (b ++ z)) ∧ Sole k x b z f := by
  obtain ⟨⟨env, offset, scope, r, h, hone⟩, himmediate, hclear⟩ := hs
  obtain ⟨place, first, hall, next, hfirst⟩ := h.single hone
  have hclear := hclear _ (hall ▸ List.mem_cons_self)
  obtain ⟨k, v, rfl, hk, hv⟩ := leadingBlank_split s
  have hseparates : Separates k := fun d hd => .inl (hk d hd)
  have hbehind : Text.Behind (k ++ v) (byteLength k) v := by
    have hself := (Text.Behind.self (k ++ v)).append
    rwa [Nat.zero_add] at hself
  have hready : Ready v := by
    refine fun d hd => ⟨hv d hd, himmediate d ?_⟩
    have hdrop : Text.trimStart (k ++ v) = v.dropWhile Text.isBlank := List.dropWhile_append_of_pos hk
    rw [hdrop]
    cases v with
    | nil => cases hd
    | cons c v =>
      rw [List.dropWhile_cons_of_neg (by simp [hv c rfl])]
      exact hd
  rw [readAll_separators hseparates, Nat.zero_add] at hall
  have hne : v ≠ [] := by
    rintro rfl
    rw [readAll_nil] at hall
    cases hall
  have hforward := (readFirst_checks hbehind hready hne).forward
  rw [readAll_ready hready hne hforward] at hall
  obtain ⟨hhead, hrest⟩ := List.cons.inj hall
  obtain ⟨rfl, rfl⟩ := Prod.mk.inj hhead
  obtain ⟨x, b, z, f, rfl, hsole⟩ := exists_sole_of_reads hbehind hk hready (reads_readFirst _ _)
    ⟨env, offset, scope, none, next, hfirst⟩ hclear hfirst.not_isElse (separates_of_readAll hrest)
  exact ⟨k, x, b, z, f, rfl, hsole⟩

end Reckoner
