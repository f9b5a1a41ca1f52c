import Reckoner.Proofs.Braces.Bodies
import Reckoner.Proofs.Rendering.Blocks

/-! A statement behind a condition or an `else`, with and without braces. Both forms are parsed to the same block,
except where a semicolon or a later `else` tells them apart. -/
namespace Reckoner

open Parse (Same blockContext)
open Render (parenthesized braced)
open Statement (Separates NoElse readAll word? conditionalWord)
open Text (byteLength dropBytes)

namespace Statement.Sole
variable {env : Environment} {k x b z u r : Text} {f : Nat → Statement}

/-- An `if` leaves the local variables as they are. -/
private theorem statement_locals (h : Sole k x b z f) (env : Environment)
    (hif : word? (x ++ (b ++ z)) = some "if".toList)
    (t : Text) (o : Nat) (scope : Scope) :
    Always (fun _ => True) (Parse.statement (blockContext env t o) scope none (f 0))
      fun r => r.2.locals = scope.locals := by
  have hread : readFirst 0 (x ++ (b ++ z)) = _ := Reads.eq (.conditional false hif rfl)
  rw [h.reads 0 h.follows] at hread
  have hisIf := readConditional_isIf (0 + byteLength (conditionalWord false))
    (dropBytes (byteLength (conditionalWord false)) (x ++ (b ++ z)))
  rw [← hread] at hisIf
  obtain ⟨head, code, hf⟩ := eq_conditional hisIf
  have hall : Parse.Admits env fun _ => True := .of_forall fun _ => trivial
  have hcontext : (blockContext env t o).Scoped fun _ => True :=
    ⟨fun _ _ scope => parseExpression_scoped hall _ _ scope _, fun _ _ scope => parseBlock_scoped hall _ _ scope⟩
  simp only at hf
  rw [hf]
  refine (Parse.conditional_becomes hall hcontext scope none false head code).mono fun r hr => ?_
  obtain ⟨condition, block, haction⟩ := hr.isIf rfl
  have hscoped := hr.inScope
  rw [haction] at hscoped
  exact hscoped.2.locals_eq

/-- What stands behind the statement. -/
private theorem behind_separates (h : Sole k x b z f) : Separates (b ++ z) :=
  Separates.append (fun d hd => .inl (h.behind d hd)) h.separates

private theorem noElse_append {m : Text} (hm : Separates m) (h : NoElse r) : NoElse (m ++ r) := by
  rwa [NoElse, separators_append hm, Text.dropBytes_append]

/-- What is read for an `else` directly in front of an `if`. -/
private theorem reads_elseIf (h : Sole k x b z f) (hu : u.Follows) (hif : word? (x ++ (b ++ u)) = some "if".toList)
    (hnone : NoElse (b ++ u)) (start : Nat) :
    readFirst start ("else".toList ++ ' ' :: k ++ (x ++ (b ++ u))) =
      (.otherwiseIf start (f (start + byteLength ("else".toList ++ ' ' :: k))) none,
        start + byteLength ("else".toList ++ ' ' :: k ++ x)) := by
  have hblank : ∀ d ∈ ' ' :: k, Text.isBlank d := List.forall_mem_cons.mpr ⟨by decide, h.front⟩
  have hhead : ∀ d ∈ (x ++ (b ++ u)).head?, Text.isBlank d = false := fun d hd => (h.start_ready _ d hd).1
  have hword : word? ("else".toList ++ (' ' :: k ++ (x ++ (b ++ u)))) = some "else".toList :=
    word?_name (by decide) fun d hd => Option.some.inj hd ▸ rfl
  rw [List.append_assoc]
  generalize hkeep : "else".toList ++ (' ' :: k ++ (x ++ (b ++ u))) = t at hword
  have ht : t = "else".toList ++ ' ' :: k ++ (x ++ (b ++ u)) := by rw [← hkeep, List.append_assoc]
  have hbehind : behindElse t = byteLength ("else".toList ++ ' ' :: k) := by
    have hfour : (4 : Nat) = byteLength "else".toList := rfl
    rw [behindElse, hfour, ← hkeep, Text.dropBytes_byteLength, leadingBlank_append hblank hhead, Text.byteLength_append]
  have hinner : innerIf start t = (f (start + byteLength ("else".toList ++ ' ' :: k)),
      start + byteLength ("else".toList ++ ' ' :: k) + byteLength x) := by
    have hread : readFirst (start + byteLength ("else".toList ++ ' ' :: k)) (x ++ (b ++ u)) = _ :=
      Reads.eq (.conditional false hif rfl)
    rw [h.reads _ hu] at hread
    rw [innerIf, hbehind, hread, ht, Text.dropBytes_append, Nat.add_assoc]
    rfl
  have hskip : max 4 ((innerIf start t).2 - start) = byteLength ("else".toList ++ ' ' :: k ++ x) := by
    have hfour : byteLength "else".toList = 4 := rfl
    rw [hinner]
    simp only [Text.byteLength_append, hfour]
    omega
  have hafter : t = "else".toList ++ ' ' :: k ++ x ++ (b ++ u) := by rw [ht]; simp
  refine Reads.eq (.elseIf hword ?_ ?_ ?_)
  · rwa [hbehind, ht, Text.dropBytes_byteLength]
  · rwa [behindInnerIf, hskip, hafter, Text.dropBytes_byteLength, Text.dropBytes_append]
  · rw [hinner, Nat.add_assoc, ← Text.byteLength_append]

/-- How an `else` directly in front of an `if` is parsed. -/
private theorem parse_elseIf (h : Sole k x b z f) (env : Environment) (hif : word? (x ++ (b ++ z)) = some "if".toList)
    (front : Text) (o start : Nat) (scope : Scope) (previous : Option Action) :
    Same (Parse.statement (blockContext env (front ++ (x ++ b) ++ u) o) scope previous
        (.otherwiseIf start (f (byteLength front)) none))
      (Parse.alternative env (k ++ (x ++ (b ++ z))) scope previous) := by
  have hshort := h.readAll_eq (.inl rfl) 0
  rw [List.append_nil, readAll_nil] at hshort
  have hwithin : (f 0).Within (x ++ b) := ((readAll_checks (.self (x ++ b))).2 (0, f 0) (hshort ▸ List.mem_cons_self)).2
  have hfirst : Same (Parse.statement (blockContext env (front ++ (x ++ b) ++ u) o) scope none (f (byteLength front)))
      (Parse.statement (blockContext env (x ++ b) 0) scope none (f 0)) := by
    rw [h.place_eq]
    exact Parse.statement_inside hwithin scope none
  have hlocals := h.statement_locals env hif (x ++ b) 0 scope
  have hblock : parseBlock env (x ++ b) 0 scope =
      (fun r => Parse.finish scope ([r.1], r.2)) <$>
        Parse.statement (blockContext env (x ++ b) 0) scope none (f 0) := by
    rw [Parse.parseBlock_finish, hshort]
    simp [Parse.statements, Parse.isGiveBack]
  unfold Parse.statement Parse.alternative
  refine .ite (fun _ => .throw trivial) fun _ => ?_
  have hwhole : Same (parseBlock env (x ++ b) 0 scope >>= fun r => pure (Action.otherwise r.1, r.2))
      (parseBlock env (k ++ (x ++ (b ++ z))) 0 scope >>= fun r => pure (Action.otherwise r.1, r.2)) :=
    Agree.bind h.parseBlock_same fun r _ hr => hr ▸ .pure rfl
  refine Same.trans ?_ hwhole
  rw [hblock, bind_map_left]
  refine Agree.bind (hfirst.and hlocals) fun r _ hr => .pure ?_
  obtain ⟨rfl, hlocals⟩ := hr
  have hdrop : r.2.locals.drop scope.locals.length = [] := by rw [hlocals, List.drop_length]
  have htake : r.2.locals.take scope.locals.length = r.2.locals := by rw [hlocals, List.take_length]
  simp only [Parse.finish, hdrop, htake]

private theorem word?_eq (h : Sole k x b z f) (hr : r.Follows) :
    word? (x ++ (b ++ (z ++ r))) = word? (x ++ (b ++ z)) := by
  have hwhole := h.closed.steady.whole
  rw [← List.append_assoc, ← List.append_assoc x b z, word?_append hwhole (h.follows_append hr),
    word?_append hwhole h.follows]

private theorem trimStart_eq (h : Sole k x b z f) (u : Text) : Text.trimStart (k ++ (x ++ u)) = x ++ u := by
  rw [Text.trimStart, List.dropWhile_append_of_pos h.front]
  have hready := h.start_ready u
  cases hx : x ++ u with
  | nil => rfl
  | cons c w =>
    rw [hx] at hready
    rw [List.dropWhile_cons_of_neg]
    simp [(hready c rfl).1]

/-- An `if` behind an `else`, which no other `else` follows. -/
private theorem else_stands_if (h : Sole k x b z f) (env : Environment) (hr : r.Follows)
    (hif : word? (x ++ (b ++ z)) = some "if".toList) (hnone : NoElse r) (front : Text) :
    ∃ next, Parse.ElseStands env front (' ' :: (k ++ (x ++ (b ++ z)) ++ r)) (k ++ (x ++ (b ++ z))) (' ' :: k ++ x)
      (b ++ z ++ r) next := by
  have hafter := noElse_append h.behind_separates hnone
  rw [List.append_assoc] at hafter
  have hread := h.reads_elseIf (h.follows_append hr) ((h.word?_eq hr).trans hif) hafter (byteLength front)
  have htext : ' ' :: (k ++ (x ++ (b ++ z)) ++ r) = ' ' :: k ++ x ++ (b ++ z ++ r) := by simp
  have hsplit : "else".toList ++ ' ' :: (k ++ (x ++ (b ++ z)) ++ r) =
      "else".toList ++ ' ' :: k ++ x ++ (b ++ (z ++ r)) := by simp
  refine ⟨.otherwiseIf (byteLength front) (f (byteLength front + byteLength ("else".toList ++ ' ' :: k))) none, htext, ?_,
    fun o scope previous => ?_⟩
  · have hname : Text.IsName "else".toList := by decide
    have hready := (bare_of_isName hname (' ' :: k ++ x ++ (b ++ (z ++ r)))).2
    have hne : "else".toList ++ ' ' :: k ++ x ≠ [] := List.cons_ne_nil _ _
    rw [← List.append_assoc] at hread
    have hall := readAll_cons (by simpa using hready) hne hread
    rw [hsplit, hall, ← Text.byteLength_append]
    simp
  · have hparse := h.parse_elseIf env hif (front ++ ("else".toList ++ ' ' :: k)) o (byteLength front) scope previous
      (u := z ++ r)
    have hwhole : front ++ ("else".toList ++ ' ' :: k) ++ (x ++ b) ++ (z ++ r) =
        front ++ ("else".toList ++ ' ' :: (k ++ (x ++ (b ++ z)) ++ r)) := by simp
    rw [Text.byteLength_append] at hparse
    rwa [hwhole] at hparse

/-- A statement of another kind behind an `else`. -/
private theorem else_stands_other (h : Sole k x b z f) (env : Environment) (hr : r.Follows)
    (hif : word? (x ++ (b ++ z)) ≠ some "if".toList) (front : Text) :
    ∃ next, Parse.ElseStands env front (' ' :: (k ++ (x ++ (b ++ z)) ++ r)) (k ++ (x ++ (b ++ z))) (' ' :: k ++ (x ++ b))
      (z ++ r) next := by
  obtain ⟨code, hbody⟩ := h.stands_bare env (front ++ "else".toList) hr
  have htrim : Text.trimStart (' ' :: (k ++ (x ++ (b ++ z)) ++ r)) = x ++ (b ++ (z ++ r)) := by
    have hblank : Text.isBlank ' ' := by decide
    have hinner := h.trimStart_eq (b ++ (z ++ r))
    rw [Text.trimStart] at hinner ⊢
    rw [List.dropWhile_cons_of_pos hblank, ← hinner]
    simp
  have hspace : ∀ d ∈ (' ' :: (k ++ (x ++ (b ++ z)) ++ r)).head?, Lexeme.isNameChar d = false := fun d hd =>
    Option.some.inj hd ▸ rfl
  rw [← h.word?_eq hr, ← htrim] at hif
  exact Parse.alternative_stands front hspace hif hbody

/-- The statement behind an `else`. -/
private theorem else_stands (h : Sole k x b z f) (env : Environment) (hr : r.Follows)
    (hnone : word? (x ++ (b ++ z)) = some "if".toList → NoElse r) (front : Text) :
    ∃ next written m, Separates m ∧ Parse.ElseStands env front (' ' :: (k ++ (x ++ (b ++ z)) ++ r))
      (k ++ (x ++ (b ++ z))) written (m ++ r) next := by
  by_cases hif : word? (x ++ (b ++ z)) = some "if".toList
  · obtain ⟨next, hnext⟩ := h.else_stands_if env hr hif (hnone hif) front
    exact ⟨next, _, b ++ z, h.behind_separates, hnext⟩
  · obtain ⟨next, hnext⟩ := h.else_stands_other env hr hif front
    exact ⟨next, _, z, h.separates, hnext⟩

end Statement.Sole

/-- A brace is no word. -/
private theorem Statement.word?_brace (t : Text) : word? (Text.trimStart ('\x7b' :: t)) = none := by
  have hblank : ¬Text.isBlank '\x7b' := by decide
  rw [Text.trimStart, List.dropWhile_cons_of_neg hblank]
  have hhead : (Text.tokens ('\x7b' :: t)).head? = some .leftBrace := by
    rw [Text.tokens, Lexeme.lex_bracket (by simp)]
    rfl
  exact word?_eq_none hhead (by decide)

/-- What stands in front of a body: a condition behind its word, or an `else` behind an `if`. The body of that `if`
stands in braces or in front of a semicolon. -/
inductive Opening
  | conditional (loops : Bool) (c : Text)
  | otherwise (c p : Text)
  | otherwiseBehind (c p : Text)

namespace Opening

def text : Opening → Text
  | .conditional loops c => conditionalWord loops ++ parenthesized c
  | .otherwise c p => "if".toList ++ parenthesized c ++ braced p ++ "else".toList
  | .otherwiseBehind c p => "if".toList ++ parenthesized c ++ ' ' :: p ++ ";else".toList

/-- The condition ends with the parentheses around it, and an earlier body with its braces or its semicolon. -/
def Closed : Opening → Prop
  | .conditional _ c => c.Steady false
  | .otherwise c p => c.Steady false ∧ p.Steady false
  | .otherwiseBehind c p => c.Steady false ∧ Statement.Bare p ∧ p.Closed

def isElse : Opening → Bool
  | .conditional .. => false
  | .otherwise .. | .otherwiseBehind .. => true

/-- The parts are parsed one after the other, the text `s` as a block of its own. -/
def parse (env : Environment) (s : Text) (scope : Scope) : Opening → Parse (List Action × Scope)
  | .conditional loops c => do
    let t ← parseExpression env c 0 scope {}
    let (b, inner) ← parseBlock env s 0 { scope with inLoop := scope.inLoop || loops }
    return ([if loops then .loop t b else .when t b], { inner with inLoop := scope.inLoop })
  | .otherwise c p | .otherwiseBehind c p => do
    let t ← parseExpression env c 0 scope {}
    let (b, inner) ← parseBlock env p 0 scope
    let (other, last) ← parseBlock env s 0 { inner with inLoop := scope.inLoop }
    return ([.when t b, .otherwise other], last)

variable {env : Environment} {scope : Scope} {place : Nat} {s v written m r front p w c : Text} {code : Body}

private theorem conditional_same (loops : Bool) (hc : c.Steady false) (hm : Separates m)
    (h : Parse.BodyStands env (conditionalWord loops ++ parenthesized c) v s code written (m ++ r)) :
    Same (parseBlock env (conditionalWord loops ++ parenthesized c ++ v) place scope)
      ((conditional loops c).parse env s scope >>= fun l =>
        Parse.finish scope <$> Parse.statements (blockContext env r 0) l.2 l.1.reverse (readAll 0 r)) := by
  obtain ⟨first, hread, hparse⟩ := Parse.conditional_stands place scope loops hc h
  have hparts : (conditional loops c).parse env s scope >>= (fun l =>
      Parse.finish scope <$> Parse.statements (blockContext env r 0) l.2 l.1.reverse (readAll 0 r)) =
      Parse.conditional env loops c s scope >>= fun a =>
        Parse.finish scope <$> Parse.statements (blockContext env r 0) a.2 [a.1] (readAll 0 r) := by
    simp only [parse, Parse.conditional, bind_assoc, pure_bind, List.reverse_singleton]
  have htext : conditionalWord loops ++ parenthesized c ++ v =
      conditionalWord loops ++ parenthesized c ++ written ++ (m ++ r) := by rw [h.text]; simp
  rw [hparts, Parse.parseBlock_finish, hread, Parse.statements, if_neg (by decide), map_bind]
  refine Agree.bind (hparse none) fun a _ ha => ?_
  subst ha
  rw [htext]
  exact Agree.map ((Parse.statements_rest hm _ r).mono fun _ _ h => congrArg _ h)

/-- An `if`, separators, and an `else`. -/
private theorem otherwise_same {y next} (place : Nat) (scope : Scope) (hc : c.Steady false) (hy : Separates y)
    (hm : Separates m)
    (hp : Parse.BodyStands env ("if".toList ++ parenthesized c) (w ++ (y ++ ("else".toList ++ v))) p code w
      (y ++ ("else".toList ++ v)))
    (h : Parse.ElseStands env ("if".toList ++ parenthesized c ++ w ++ y) v s written (m ++ r) next) :
    Same (parseBlock env ("if".toList ++ parenthesized c ++ w ++ y ++ ("else".toList ++ v)) place scope)
      ((otherwise c p).parse env s scope >>= fun l =>
        Parse.finish scope <$> Parse.statements (blockContext env r 0) l.2 l.1.reverse (readAll 0 r)) := by
  obtain ⟨first, hread, hparse⟩ := Parse.conditional_stands place scope false hc hp
  have hparts : (otherwise c p).parse env s scope >>= (fun l =>
      Parse.finish scope <$> Parse.statements (blockContext env r 0) l.2 l.1.reverse (readAll 0 r)) =
      Parse.conditional env false c p scope >>= fun a => Parse.alternative env s a.2 (some a.1) >>= fun b =>
        Parse.finish scope <$> Parse.statements (blockContext env r 0) b.2 [b.1, a.1] (readAll 0 r) := by
    simp [parse, Parse.conditional, Parse.alternative, Parse.isWhen]
  have htext : conditionalWord false ++ parenthesized c ++ (w ++ (y ++ ("else".toList ++ v))) =
      "if".toList ++ parenthesized c ++ w ++ y ++ ("else".toList ++ v) := by simp [conditionalWord]
  have hrest : "if".toList ++ parenthesized c ++ w ++ y ++ ("else".toList ++ v) =
      "if".toList ++ parenthesized c ++ w ++ y ++ "else".toList ++ written ++ (m ++ r) := by rw [h.text]; simp
  have hfront : byteLength (conditionalWord false ++ parenthesized c ++ w) + byteLength y =
      byteLength ("if".toList ++ parenthesized c ++ w ++ y) := (Text.byteLength_append _ y).symm
  rw [htext] at hread hparse
  rw [Statement.readAll_separators hy, hfront, h.read] at hread
  rw [hparts, Parse.parseBlock_finish, hread, Parse.statements, if_neg (by decide), map_bind]
  have hwhen : Always (fun _ => True) (Parse.conditional env false c p scope) fun r => Parse.isWhen (some r.1) :=
    (Keeps.returned _).bind fun t _ => (Keeps.returned _).bind fun r _ => .pure rfl
  refine Agree.bind ((hparse none).and hwhen) fun a _ ha => ?_
  obtain ⟨rfl, ha⟩ := ha
  obtain ⟨action, inner⟩ := a
  have hgoes : Parse.isGiveBack [action].head? = false := by
    cases action <;> first | rfl | cases ha
  simp only
  rw [Parse.statements, if_neg (by rw [hgoes]; decide), map_bind]
  refine Agree.bind (h.parse place inner (some action)) fun b _ hb => ?_
  subst hb
  rw [hrest]
  exact Agree.map ((Parse.statements_rest hm _ r).mono fun _ _ h => congrArg _ h)

/-- The parts in front of a body are parsed, then the body, and then what follows it. -/
private theorem parseBlock_same (o : Opening) (env : Environment) (place : Nat) (scope : Scope) (ho : o.Closed)
    (hbody : ∀ t, ∃ code written m, Separates m ∧ Parse.BodyStands env t v s code written (m ++ r))
    (helse : o.isElse → ∀ t, ∃ next written m, Separates m ∧ Parse.ElseStands env t v s written (m ++ r) next) :
    Same (parseBlock env (o.text ++ v) place scope) (o.parse env s scope >>= fun l =>
      Parse.finish scope <$> Parse.statements (blockContext env r 0) l.2 l.1.reverse (readAll 0 r)) := by
  cases o with
  | conditional loops c =>
    obtain ⟨code, written, m, hm, h⟩ := hbody (conditionalWord loops ++ parenthesized c)
    exact conditional_same loops ho hm h
  | otherwise c p =>
    obtain ⟨hc, hp⟩ := ho
    obtain ⟨code, h⟩ := Parse.stands_braced env ("if".toList ++ parenthesized c) ("else".toList ++ v) hp
    obtain ⟨next, written, m, hm, hnext⟩ := helse rfl ("if".toList ++ parenthesized c ++ braced p ++ [])
    have hsame := otherwise_same place scope hc (List.forall_mem_nil _) hm h hnext
    simpa only [text, List.append_nil, List.append_assoc] using hsame
  | otherwiseBehind c p =>
    obtain ⟨hc, hbare, hp⟩ := ho
    have hspace : ∀ d ∈ [' '], Text.isBlank d := List.forall_mem_singleton.mpr (by decide)
    obtain ⟨code, h⟩ := Parse.stands_bare env ("if".toList ++ parenthesized c) hspace (List.cons_ne_nil _ _) hbare hp
      (.inr ⟨"else".toList ++ v, rfl⟩)
    obtain ⟨next, written, m, hm, hnext⟩ := helse rfl ("if".toList ++ parenthesized c ++ ' ' :: p ++ [';'])
    have hseparates : Separates [';'] := fun d hd => .inr (List.mem_singleton.mp hd)
    have hsame := otherwise_same place scope hc hseparates hm h hnext
    change Same _ ((otherwise c p).parse env s scope >>= _)
    simpa [text] using hsame

end Opening

/-- Braces around a single statement do not matter. What follows the statement may not be an `else` that would belong to
it, and without anything behind it all is parsed part by part. -/
theorem parseBlock_braces (env : Environment) (scope : Scope) (place : Nat) {front : Opening}
    (hfront : front.Closed)
    {s : Text} (hs : s.PlainStatement) :
    (∀ r : Text, r.Follows → (front.isElse → word? (Text.trimStart s) = some "if".toList → NoElse r) →
      Same (parseBlock env (front.text ++ ' ' :: (s ++ r)) place scope)
        (parseBlock env (front.text ++ (braced s ++ r)) place scope)) ∧
    Same (parseBlock env (front.text ++ ' ' :: s) place scope) (Parse.finish scope <$> front.parse env s scope) := by
  obtain ⟨k, x, b, z, f, rfl, h⟩ := Statement.exists_sole hs
  have hsame {r : Text} (hr : r.Follows)
      (hnone : front.isElse → word? (Text.trimStart (k ++ (x ++ (b ++ z)))) = some "if".toList → NoElse r) :=
    front.parseBlock_same env place scope hfront
      (fun t => (h.stands_bare env t hr).imp fun code hbody => ⟨_, z, h.separates, hbody⟩)
      fun helse t => h.else_stands env hr (fun hif => hnone helse (by rwa [h.trimStart_eq])) t
  refine ⟨fun r hr hnone => (hsame hr hnone).trans (Same.symm ?_), ?_⟩
  · refine front.parseBlock_same env place scope hfront (fun t => ?_) fun helse t => ?_
    · obtain ⟨code, hbody⟩ := Parse.stands_braced env t r h.steady
      exact ⟨code, _, [], List.forall_mem_nil _, hbody⟩
    · obtain ⟨code, hbody⟩ := Parse.stands_braced env (t ++ "else".toList) r h.steady
      have hbrace : ∀ d ∈ (braced (k ++ (x ++ (b ++ z))) ++ r).head?, Lexeme.isNameChar d = false := fun d hd =>
        Option.some.inj hd ▸ rfl
      have hword : word? (Text.trimStart (braced (k ++ (x ++ (b ++ z))) ++ r)) ≠ some "if".toList := by
        rw [braced, List.cons_append, List.cons_append, Statement.word?_brace]
        exact (Option.some_ne_none _).symm
      obtain ⟨next, hnext⟩ := Parse.alternative_stands t hbrace hword hbody
      exact ⟨next, _, [], List.forall_mem_nil _, hnext⟩
  · have hnil := hsame (.inl rfl) fun _ _ => Statement.noElse_nil
    have hparts : (fun l : List Action × Scope => Parse.finish scope <$>
        Parse.statements (blockContext env [] 0) l.2 l.1.reverse (readAll 0 [])) =
        fun l => pure (Parse.finish scope l) := by
      funext l
      rw [Statement.readAll_nil, Parse.statements, map_pure, List.reverse_reverse]
    rwa [List.append_nil, hparts, ← map_eq_pure_bind] at hnil

/-- A vector is returned behind an `else`, and a statement follows. -/
theorem parseBlock_braces_of_return :
    let scope : Scope := .function [['c'], ['x']] none
    let vector : Tree := .vector 2 1 [.argument 1, .argument 0]
    let b : Block := ⟨[.when (.argument 0) ⟨[.assign (.argument 1) (.argument 0)], [], 0, 0⟩,
      .otherwise ⟨[.giveBack vector], [], 0, 0⟩, .compute (.argument 1)], [], 0, 0⟩
    (Opening.otherwise ['c'] "x=c".toList).Closed ∧ Text.PlainStatement "return <x,c>".toList ∧
      Text.Follows ";x".toList ∧
      (parseBlock {} "if(c)\x7bx=c\x7delse\x7breturn <x,c>\x7d;x".toList 0 scope).run.run {} = (.ok (b, scope), {}) ∧
      (parseBlock {} "if(c)\x7bx=c\x7delse return <x,c>;x".toList 0 scope).run.run {} = (.ok (b, scope), {}) := by
  intro scope vector b
  have hclosed : (Opening.otherwise ['c'] "x=c".toList).Closed := by
    refine ⟨Text.steady_name (by decide) false, ?_⟩
    have hname : Text.IsName ['x'] := by decide
    have hsign : ∀ d ∈ "=c".toList.head?, Lexeme.isNameChar d = false := fun d hd => Option.some.inj hd ▸ rfl
    have hvalue : ∀ d ∈ ['c'].head?, d ≠ '=' ∧ d ≠ '>' := fun d hd => Option.some.inj hd ▸ by decide
    exact Text.Steady.name hname hsign (.assign hvalue (Text.steady_name (by decide) false) true) false
  have hplain : Text.PlainStatement "return <x,c>".toList := by
    have hread : readAll 0 "return <x,c>".toList = [(0, .giveBack 6 12)] := by with_unfolding_all rfl
    have htokens : (Text.slice "return <x,c>".toList 6 12).tokens =
        [.less, .identifier, .comma, .identifier, .greater] := by with_unfolding_all rfl
    have hrun : (parseBlock {} "return <x,c>".toList 0 (.function [['c'], ['x']] none)).run.run {} =
        (.ok (⟨[.giveBack (.vector 2 1 [.argument 1, .argument 0])], [], 0, 0⟩,
          .function [['c'], ['x']] none), {}) := by
      unfold parseBlock parseExpression parseExpression
      with_unfolding_all rfl
    have hhead : ∀ d ∈ (Text.trimStart "return <x,c>".toList).head?, d ≠ ';' := fun d hd =>
      Option.some.inj hd ▸ by decide
    refine ⟨⟨{}, 0, scope, _, ⟨{}, congrArg Prod.fst hrun⟩, rfl⟩, hhead, fun first hfirst => ?_⟩
    rw [hread, List.mem_singleton] at hfirst
    subst hfirst
    refine .giveBack ⟨false, htokens ▸ ⟨⟨?_, rfl⟩, ?_⟩⟩
    · simp [Nesting.Sealed, Nesting.level, Nesting.feed, Nesting.closes, Nesting.opens]
    · simp [Nesting.Avoids]
  have hbraced : (parseBlock {} "if(c)\x7bx=c\x7delse\x7breturn <x,c>\x7d;x".toList 0
      (.function [['c'], ['x']] none)).run.run {} = (.ok (b, .function [['c'], ['x']] none), {}) := by
    unfold parseBlock parseBlock parseExpression parseExpression
    with_unfolding_all rfl
  have hfollows : Text.Follows ";x".toList := .inr ⟨_, rfl⟩
  have hword : word? (Text.trimStart "return <x,c>".toList) ≠ some "if".toList := by
    have hreturn : word? (Text.trimStart "return <x,c>".toList) = some "return".toList := by with_unfolding_all rfl
    rw [hreturn]
    decide
  have hsame := (parseBlock_braces {} scope 0 hclosed hplain).1 _ hfollows fun _ hif => absurd hif hword
  have hfront : (Opening.otherwise ['c'] "x=c".toList).text ++ ' ' :: ("return <x,c>".toList ++ ";x".toList) =
      "if(c)\x7bx=c\x7delse return <x,c>;x".toList := by decide
  have hfront' : (Opening.otherwise ['c'] "x=c".toList).text ++ (braced "return <x,c>".toList ++ ";x".toList) =
      "if(c)\x7bx=c\x7delse\x7breturn <x,c>\x7d;x".toList := by decide
  rw [hfront, hfront'] at hsame
  exact ⟨hclosed, hplain, hfollows, hbraced, hsame.run_eq hbraced⟩

/-- Each condition on the statement is needed: these three are accepted alone and in braces, and without braces they are
refused or leave more statements behind. The body ends at the semicolon in front of the first one, nothing is left for the
body of the second one, and the third one is cut inside its vector, as behind `return` a `<` is read as a comparison. -/
theorem parseBlock_braces_misses :
    let scope : Scope := .function [['c'], ['x']] none
    let statements (t : Text) := ((parseBlock {} t 0 scope).run.run {}).1.toOption.map (·.1.actions.length)
    ∀ front ∈ [Opening.conditional false ['c'], .conditional true ['c'], .otherwise ['c'] ['x']],
      ∀ s ∈ [";x".toList, "while(x) ;".toList, "return <x;c>".toList],
        statements s = some 1 ∧ (statements (front.text ++ braced s)).isSome ∧
          statements (front.text ++ ' ' :: s) ≠ statements (front.text ++ braced s) := by
  -- blocks are nested three deep in these texts, and expressions two deep
  unfold parseBlock parseBlock parseBlock parseExpression parseExpression
  decide +kernel

end Reckoner
