import Reckoner.Proofs.Cutting.Boundary
import Reckoner.Proofs.Pieces
import Reckoner.Proofs.Relocation.Block
import Reckoner.Proofs.Rendering.Closing

/-! A rendered statement is read and parsed to itself where it stands in a block. -/
namespace Reckoner

open Parse (statement)
open Render (Reparses ReadsBehindReturn braced parenthesized tree action actions block inside isChain)
open Statement (readFirst readConditional word? separators)
open Text (byteLength dropBytes)

namespace Text
variable {t v w : Text} {start : Nat}

/-- What stands between two brackets. -/
theorem At.between {c d : Char} (hc : c.utf8Size = 1) (hd : d.utf8Size = 1) (h : t.At start (c :: w ++ [d])) :
    Text.slice t (start + 1) (start + byteLength (c :: w ++ [d]) - 1) = w := by
  have hright : t.At (start + 1) w := by
    have hinner := At.right (w := [c]) (At.left h)
    rwa [byteLength_cons, hc] at hinner
  have hstop : start + byteLength (c :: w ++ [d]) - 1 = start + 1 + byteLength w := by
    simp only [List.cons_append, byteLength_cons, byteLength_append, byteLength_nil, hc, hd]
    omega
  rw [hstop, hright.slice]

end Text

/-- What a computation with the same outcomes tells. -/
theorem Parse.Yields.of_same {α : Type} {n : Nat} {x y : Parse α} {Q : α → Prop} (h : Parse.Same x y)
    (hy : Parse.Yields n y Q) : Parse.Yields n x Q := by
  intro s hs
  obtain ⟨hstate, hsame⟩ := h s s rfl
  obtain ⟨hkept, hends⟩ := hy s hs
  refine ⟨hstate ▸ hkept, ?_⟩
  cases hx : (x.run.run s).1 <;> cases hr : (y.run.run s).1 <;> rw [hx, hr] at hsame <;> rw [hr] at hends
  · exact hends
  · exact hsame.elim
  · exact hsame.elim
  · exact hsame ▸ hends

open Parse (blockContext)

private theorem Tree.Scoped.withPending {s : Scope} {t : Tree} (pending : Option Pending) (h : t.Scoped s) :
    t.Scoped { s with pending } :=
  h.congr (by rfl) (by rfl)

mutual

/-- A function whose body is being parsed changes no slots. -/
theorem Action.Scoped.withPending {s s' : Scope} {previous : Option Action} (pending : Option Pending) :
    {a : Action} → a.Scoped s previous s' → a.Scoped { s with pending } previous { s' with pending }
  | .compute _, ⟨ht, h⟩ => ⟨ht.withPending pending, by rw [h]⟩
  | .giveBack _, ⟨ht, h⟩ => ⟨ht.withPending pending, by rw [h]⟩
  | .assign _ _, ⟨ht, name, hn, hk, h⟩ => by
    refine ⟨ht.withPending pending, name, hn, hk, ?_⟩
    cases h with
    | argument h => exact .argument h
    | localVariable ha h => exact .localVariable ha h
    | declared ha h => exact .declared (s := { s with pending }) ha h
  | .when _ _, ⟨ht, h⟩ => ⟨ht.withPending pending, h.withPending pending⟩
  | .otherwise _, ⟨hp, h⟩ => ⟨hp, h.withPending pending⟩
  | .loop _ _, ⟨ht, inner, h, hs⟩ => ⟨ht.withPending pending, { inner with pending }, h.withPending pending, by rw [hs]⟩
  | .leaveLoop, ⟨hl, h⟩ => ⟨hl, by rw [h]⟩
  | .nextRound, ⟨hl, h⟩ => ⟨hl, by rw [h]⟩

theorem Action.AllScoped.withPending {s s' : Scope} {previous : Option Action} (pending : Option Pending) :
    {list : List Action} → Action.AllScoped s previous list s' →
      Action.AllScoped { s with pending } previous list { s' with pending }
  | [], h => by rw [Action.AllScoped, h]
  | _ :: _, ⟨hg, next, ha, hr⟩ => ⟨hg, { next with pending }, ha.withPending pending, hr.withPending pending⟩

theorem Block.Scoped.withPending {s s' : Scope} (pending : Option Pending) :
    {b : Block} → b.Scoped s s' → b.Scoped { s with pending } { s' with pending }
  | ⟨_, _, _, _⟩, ⟨last, ha, hf, hl, hz, hs⟩ =>
    ⟨{ last with pending }, ha.withPending pending, hf, hl, hz, by rw [hs]⟩

end

theorem Action.isWhen_unlabelled (a : Action) :
    Parse.isWhen (some a.unlabelled) = Parse.isWhen (some a) := by
  cases a <;> rfl

theorem Action.isGiveBack_unlabelled (a : Action) :
    Parse.isGiveBack (some a.unlabelled) = Parse.isGiveBack (some a) := by
  cases a <;> rfl

/-- The statement `a` is what is read at the start of the text `w ++ r`, up to the end of `w`, and it is parsed to
itself there, with the scope `s'` behind it. Of the statement `previous` before it only matters whether it is an
`if`. -/
def Statement.Recovers (n : Nat) (c : Parse.BlockContext) (s : Scope) (previous : Option Action) (start : Nat) (w r : Text)
    (a : Action) (s' : Scope) : Prop :=
  ∃ first, readFirst start (w ++ r) = (first, start + byteLength w) ∧
    ∀ before, Parse.isWhen before = Parse.isWhen previous →
      Parse.Yields n (statement c s before first) fun p => p.1.unlabelled = a.unlabelled ∧ p.2 = s'

theorem Render.Reparses.parse {n : Nat} {env : Environment} {s : Scope} {a : Action} {t : Tree}
    (h : Reparses n env s.pending s.names a) (ht : t ∈ a.expression?) (offset : Nat) :
    Parse.Yields n (parseExpression env (tree env s.names t) offset s {}) fun u =>
      u.unlabelled = t.unlabelled :=
  have hsight : s.SameSight ⟨s.params, s.locals, 0, false, s.pending⟩ := ⟨rfl, rfl, rfl⟩
  .of_same (parseExpression_same env _ offset 0 hsight {}) (h t ht)

namespace Statement
variable {env : Environment} {s s' inner : Scope} {previous : Option Action} {start offset : Nat} {T r v : Text}
  {t : Tree} {a : Action} {b : Block} {n : Nat}

private theorem expression_at (h : Reparses n env s.pending s.names a) (ht : t ∈ a.expression?) {first stop : Nat}
    (hslice : Text.slice T first stop = tree env s.names t) :
    Parse.Yields n ((blockContext env T offset).expression first stop s) fun u =>
      u.unlabelled = t.unlabelled := by
  change Parse.Yields n (parseExpression env (Text.slice T first stop) _ s {}) _
  rw [hslice]
  exact h.parse ht _

private theorem body_at {Q : Block × Scope → Prop} (hat : T.At start (braced v))
    (hb : ∀ offset, Parse.Yields n (parseBlock env v offset s) Q) :
    Parse.Yields n (Parse.body (blockContext env T offset) s
      (.braced start (start + byteLength (braced v)))) Q := by
  change Parse.Yields n (parseBlock env (Text.slice T (start + 1) (start + byteLength (braced v) - 1)) _ s) Q
  rw [braced, hat.between rfl rfl]
  exact hb _

theorem recovers_compute (h : Reparses n env s.pending s.names (.compute t))
    (hw : Render.Readable (tree env s.names t)) (hat : T.At start (tree env s.names t)) (hr : r.Follows) :
    Recovers n (blockContext env T offset) s previous start (tree env s.names t) r (.compute t) s := by
  refine ⟨_, readFirst_expression hw.closed hw.framed hw.speaks hr, fun _ _ => ?_⟩
  unfold statement
  refine (expression_at h rfl hat.slice).bind fun u hu => .pure ⟨?_, rfl⟩
  simp only [Action.unlabelled, hu]

theorem recovers_giveBack (h : Reparses n env s.pending s.names (.giveBack t))
    (hw : Render.Readable (tree env s.names t)) (hat : T.At start ("return ".toList ++ tree env s.names t))
    (hr : r.Follows) :
    Recovers n (blockContext env T offset) s previous start ("return ".toList ++ tree env s.names t) r
      (.giveBack t) s := by
  refine ⟨_, readFirst_giveBack hw.closed hr, fun _ _ => ?_⟩
  have hspace : Text.slice T (start + 6) (start + byteLength ("return ".toList ++ tree env s.names t)) =
      ' ' :: tree env s.names t := by
    have hright : T.At (start + 6) (' ' :: tree env s.names t) :=
      Text.At.right (w := "return".toList) (v := ' ' :: tree env s.names t) hat
    have hstop : start + byteLength ("return ".toList ++ tree env s.names t) =
        start + 6 + byteLength (' ' :: tree env s.names t) := by
      rw [Nat.add_assoc]
      exact congrArg (start + ·) (Text.byteLength_append "return".toList (' ' :: tree env s.names t))
    rw [hstop, hright.slice]
  unfold statement
  change Parse.Yields n (parseExpression env (Text.slice T _ _) _ s {} >>= _) _
  rw [hspace]
  have hsight : s.SameSight s := ⟨rfl, rfl, rfl⟩
  have hsame := parseExpression_space env hw.framed.first.ne_nil (offset + (start + 6)) 0 hsight {}
  refine (Parse.Yields.of_same hsame (h.parse rfl 0)).bind fun u hu => .pure ⟨?_, rfl⟩
  simp only [Action.unlabelled, hu]

theorem recovers_assign {name : Text} {target : Target} (hn : name.IsName) (hk : isKeyword name = false)
    (ha : s.Assigns name target s') (h : Reparses n env s.pending s.names (.assign target t))
    (hw : Render.Readable (tree env s.names t)) (hat : T.At start (name ++ '=' :: tree env s.names t))
    (hr : r.Follows) :
    Recovers n (blockContext env T offset) s previous start (name ++ '=' :: tree env s.names t) r
      (.assign target t) s' := by
  refine ⟨_, readFirst_assign hn hk hw.closed hw.framed hr, fun _ _ => ?_⟩
  have hvalue : Text.slice T (start + byteLength name + 1)
      (start + byteLength (name ++ '=' :: tree env s.names t)) = tree env s.names t := by
    have hright : T.At (start + byteLength name + 1) (tree env s.names t) := Text.At.right (w := ['=']) hat.right
    have hsize : '='.utf8Size = 1 := rfl
    have hstop : start + byteLength (name ++ '=' :: tree env s.names t) =
        start + byteLength name + 1 + byteLength (tree env s.names t) := by
      simp only [Text.byteLength_append, Text.byteLength_cons, hsize, Nat.add_assoc]
    rw [hstop, hright.slice]
  unfold statement Parse.assign
  rw [hk, if_neg (by decide)]
  refine (expression_at h rfl hvalue).bind fun u hu => ?_
  cases ha with
  | argument ha =>
    rw [ha]
    exact .pure ⟨by simp only [Action.unlabelled, hu], rfl⟩
  | localVariable ha hl =>
    rw [ha, hl]
    exact .pure ⟨by simp only [Action.unlabelled, hu], rfl⟩
  | declared ha hl =>
    rw [ha, hl]
    exact .pure ⟨by simp only [Action.unlabelled, hu], rfl⟩

theorem recovers_jump (leaves : Bool) {word : Text} (hl : s.inLoop)
    (h : readFirst start (word ++ r) =
      (.jump leaves start (start + byteLength word) (start + byteLength word), start + byteLength word)) :
    Recovers n (blockContext env T offset) s previous start word r (if leaves then .leaveLoop else .nextRound) s := by
  refine ⟨_, h, fun _ _ => ?_⟩
  have hnothing (k : Nat) : Text.slice T k k = [] := by
    rw [Text.slice, Nat.sub_self, Text.takeBytes]
  have hjump : Parse.jump (blockContext env T offset) s leaves start (start + byteLength word)
      (start + byteLength word) = .ok (if leaves then .leaveLoop else .nextRound) := by
    unfold Parse.jump
    rw [hl, if_neg (by decide)]
    simp only [blockContext, hnothing]
    rfl
  unfold statement
  rw [hjump]
  exact .pure ⟨rfl, rfl⟩

/-- A condition and a block are parsed to themselves behind their word. -/
private theorem conditional_parses (loops : Bool) (b : Block) (inner : Scope) (h : Reparses n env s.pending s.names a)
    (ht : t ∈ a.expression?) (hat : T.At start (parenthesized (tree env s.names t) ++ braced v))
    (hb : ∀ offset, Parse.Yields n (parseBlock env v offset { s with inLoop := s.inLoop || loops })
      fun p => p.1.unlabelled = b.unlabelled ∧ p.2 = inner) :
    Parse.Yields n (statement (blockContext env T offset) s previous
      (.conditional loops (.closed start (start + byteLength (parenthesized (tree env s.names t))))
        (.braced (start + byteLength (parenthesized (tree env s.names t)))
          (start + byteLength (parenthesized (tree env s.names t) ++ braced v))))) fun p =>
        p.1.unlabelled = (if loops then Action.loop t b else .when t b).unlabelled ∧
          p.2 = { inner with inLoop := s.inLoop } := by
  unfold statement
  rw [Text.byteLength_append, ← Nat.add_assoc]
  refine (expression_at h ht (hat.left.between rfl rfl)).bind fun u hu => ?_
  refine (body_at hat.right hb).bind fun p hp => .pure ?_
  obtain ⟨hcode, hinner⟩ := hp
  cases loops with
  | true => exact ⟨by simp only [if_true, Action.unlabelled, hu, hcode], by rw [hinner]⟩
  | false => exact ⟨by simp only [Bool.false_eq_true, if_false, Action.unlabelled, hu, hcode], by rw [hinner]⟩

theorem recovers_when (h : Reparses n env s.pending s.names (.when t b)) (hc : (tree env s.names t).Steady false)
    (hv : v.Steady false) (hat : T.At start ("if".toList ++ parenthesized (tree env s.names t) ++ braced v))
    (hb : ∀ offset, Parse.Yields n (parseBlock env v offset s) fun p =>
      p.1.unlabelled = b.unlabelled ∧ p.2 = inner) (hi : inner.inLoop = s.inLoop) :
    Recovers n (blockContext env T offset) s previous start
      ("if".toList ++ parenthesized (tree env s.names t) ++ braced v) r (.when t b) inner := by
  have hstop (w : Text) : start + byteLength ("if".toList ++ w) = start + 2 + byteLength w := by
    rw [Text.byteLength_append, Nat.add_assoc]
    rfl
  rw [List.append_assoc] at hat
  have hread := readFirst_if start (tree env s.names t) v r
  rw [readConditional_rendered false hc hv] at hread
  refine ⟨_, ?_, fun _ _ => (conditional_parses false b inner h rfl hat.right ?_).mono fun p hp => ?_⟩
  · rw [List.append_assoc "if".toList, List.append_assoc "if".toList, hstop]
    exact hread
  · rwa [Bool.or_false]
  · rw [← hi] at hp
    exact hp

theorem recovers_loop (h : Reparses n env s.pending s.names (.loop t b)) (hc : (tree env s.names t).Steady false)
    (hv : v.Steady false) (hat : T.At start ("while".toList ++ parenthesized (tree env s.names t) ++ braced v))
    (hb : ∀ offset, Parse.Yields n (parseBlock env v offset { s with inLoop := true }) fun p =>
      p.1.unlabelled = b.unlabelled ∧ p.2 = inner) :
    Recovers n (blockContext env T offset) s previous start
      ("while".toList ++ parenthesized (tree env s.names t) ++ braced v) r (.loop t b)
      { inner with inLoop := s.inLoop } := by
  have hstop (w : Text) : start + byteLength ("while".toList ++ w) = start + 5 + byteLength w := by
    rw [Text.byteLength_append, Nat.add_assoc]
    rfl
  rw [List.append_assoc] at hat
  have hread := readFirst_while start (tree env s.names t) v r
  rw [readConditional_rendered true hc hv] at hread
  refine ⟨_, ?_, fun _ _ => conditional_parses true b inner h rfl hat.right ?_⟩
  · rw [List.append_assoc "while".toList, List.append_assoc "while".toList, hstop]
    exact hread
  · rwa [Bool.or_true]

theorem recovers_otherwise (hp : Parse.isWhen previous) (hv : v.Steady false)
    (hat : T.At start ("else".toList ++ braced v))
    (hb : ∀ offset, Parse.Yields n (parseBlock env v offset s) fun p =>
      p.1.unlabelled = b.unlabelled ∧ p.2 = inner) :
    Recovers n (blockContext env T offset) s previous start ("else".toList ++ braced v) r (.otherwise b) inner := by
  refine ⟨_, readFirst_otherwise hv, fun before hbefore => ?_⟩
  have hstop : start + byteLength ("else".toList ++ braced v) = start + 4 + byteLength (braced v) := by
    rw [Text.byteLength_append, Nat.add_assoc]
    rfl
  unfold statement
  rw [hbefore.trans hp, if_neg (by decide), hstop]
  refine (body_at hat.right hb).bind fun p hp => .pure ?_
  obtain ⟨hcode, hinner⟩ := hp
  exact ⟨by simp only [Action.unlabelled, hcode], hinner⟩

section
variable {c w : Text} {b' : Block} {middle : Scope}

theorem separators_starts (hw : w.Starts) (r : Text) :
    dropBytes (separators (';' :: (w ++ r))) (';' :: (w ++ r)) = w ++ r ∧ separators (';' :: (w ++ r)) = 1 := by
  have hone : separators (';' :: (w ++ r)) = 1 := by
    rw [separators_semicolon, separators_eq_zero (hw.head r)]
  exact ⟨hone ▸ Text.dropBytes_byteLength [';'] (w ++ r), hone⟩

private theorem elseIf_eq (c v r : Text) :
    "else ".toList ++ ("if".toList ++ parenthesized c ++ braced v) ++ r = elseIf c v r := by
  simp only [elseIf, List.append_assoc]

/-- What is read behind an `else` is what is read of the `if` alone. -/
private theorem readConditional_behindElse {first : Statement}
    (h : readFirst (start + 5) ("if".toList ++ parenthesized c ++ braced v ++ r) =
      (first, start + 5 + byteLength ("if".toList ++ parenthesized c ++ braced v))) :
    readConditional false (start + 7) (parenthesized c ++ braced v ++ r) =
      (first, start + 7 + byteLength (parenthesized c ++ braced v)) := by
  rw [List.append_assoc "if".toList, List.append_assoc "if".toList, readFirst_if, Text.byteLength_append "if".toList,
    ← Nat.add_assoc] at h
  exact h

private theorem byteLength_elseIf (start : Nat) (c v : Text) :
    start + byteLength ("else ".toList ++ ("if".toList ++ parenthesized c ++ braced v)) =
      start + 7 + byteLength (parenthesized c ++ braced v) := by
  rw [List.append_assoc "if".toList, Text.byteLength_append, Text.byteLength_append, ← Nat.add_assoc,
    ← Nat.add_assoc]
  rfl

theorem recovers_elseIf (hp : Parse.isWhen previous)
    (hr : word? (dropBytes (separators r) r) ≠ some "else".toList)
    (h : Recovers n (blockContext env T offset) s none (start + 5) ("if".toList ++ parenthesized c ++ braced v) r
      (.when t b) inner) :
    Recovers n (blockContext env T offset) s previous start
      ("else ".toList ++ ("if".toList ++ parenthesized c ++ braced v)) r
      (.otherwise ⟨[.when t b], [], s.locals.length, inner.frameSize⟩) inner := by
  obtain ⟨first, hread, hfirst⟩ := h
  refine ⟨.otherwiseIf start first none, ?_, fun before hbefore => ?_⟩
  · rw [elseIf_eq, readFirst_elseIf start (readConditional_behindElse hread), if_neg hr, byteLength_elseIf]
  · unfold statement
    rw [hbefore.trans hp, if_neg (by decide)]
    refine (hfirst none rfl).bind fun p hp => .pure ?_
    obtain ⟨haction, rfl⟩ := hp
    exact ⟨by simp only [Action.unlabelled, Block.unlabelled, Action.allUnlabelled, haction], rfl⟩

theorem recovers_elseIf_otherwise (hp : Parse.isWhen previous)
    (hw : w.Starts) (hword : word? (w ++ r) = some "else".toList)
    (h : Recovers n (blockContext env T offset) s none (start + 5) ("if".toList ++ parenthesized c ++ braced v)
      (';' :: (w ++ r)) (.when t b) middle)
    (h' : Recovers n (blockContext env T offset) middle (some (.when t b))
      (start + 5 + byteLength ("if".toList ++ parenthesized c ++ braced v) + 1) w r
      (.otherwise b') inner) :
    Recovers n (blockContext env T offset) s previous start
      ("else ".toList ++ ("if".toList ++ parenthesized c ++ braced v ++ ';' :: w)) r
      (.otherwise ⟨[.when t b, .otherwise b'], [], s.locals.length, inner.frameSize⟩) inner := by
  obtain ⟨first, hread, hfirst⟩ := h
  obtain ⟨second, hread', hsecond⟩ := h'
  obtain ⟨hdrop, hone⟩ := separators_starts hw r
  have hjoin : "else ".toList ++ ("if".toList ++ parenthesized c ++ braced v ++ ';' :: w) ++ r =
      elseIf c v (';' :: (w ++ r)) := by
    simp only [elseIf, List.append_assoc, List.cons_append]
  have hstop : start + byteLength ("else ".toList ++ ("if".toList ++ parenthesized c ++ braced v ++ ';' :: w)) =
      start + byteLength ("else ".toList ++ ("if".toList ++ parenthesized c ++ braced v)) + 1 + byteLength w := by
    rw [← List.append_assoc "else ".toList, Text.byteLength_append, Text.byteLength_cons, ← Nat.add_assoc,
      ← Nat.add_assoc]
    rfl
  have hsecondStart : start + 5 + byteLength ("if".toList ++ parenthesized c ++ braced v) =
      start + byteLength ("else ".toList ++ ("if".toList ++ parenthesized c ++ braced v)) := by
    rw [Text.byteLength_append "else ".toList, ← Nat.add_assoc]
    rfl
  rw [hsecondStart] at hread'
  rw [byteLength_elseIf] at hread' hstop
  refine ⟨.otherwiseIf start first (some second), ?_, fun before hbefore => ?_⟩
  · rw [hjoin, readFirst_elseIf start (readConditional_behindElse hread), hdrop, if_pos hword, hone, hread', hstop]
  · unfold statement
    rw [hbefore.trans hp, if_neg (by decide)]
    refine (hfirst none rfl).bind fun p hp => ?_
    obtain ⟨action, scope⟩ := p
    obtain ⟨haction, rfl⟩ := hp
    refine (hsecond (some action) ?_).bind fun p hp => .pure ?_
    · rw [← Action.isWhen_unlabelled, haction]
      rfl
    · obtain ⟨hother, rfl⟩ := hp
      exact ⟨by simp only [Action.unlabelled, Block.unlabelled, Action.allUnlabelled, haction, hother], rfl⟩

end

end Statement

end Reckoner
