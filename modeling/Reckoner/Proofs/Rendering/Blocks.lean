import Reckoner.Proofs.Rendering.Recovery

/-! A rendered block is parsed to itself: statement by statement along the text between its braces. -/
namespace Reckoner

open Parse (blockContext statements)
open Render
open Statement
open Text (byteLength dropBytes)

private theorem Action.allUnlabelled_eq (list : List Action) :
    Action.allUnlabelled list = list.map Action.unlabelled := by
  induction list with
  | nil => rfl
  | cons a list ih => rw [allUnlabelled, ih, List.map_cons]

namespace Statement

def NoElse (r : Text) : Prop := word? (dropBytes (separators r) r) ≠ some "else".toList

theorem noElse_nil : NoElse [] := by
  have hword : word? [] = none := by
    rw [word?, Lexeme.lex]
  have hdrop : dropBytes (separators []) [] = [] := rfl
  rw [NoElse, hdrop, hword]
  exact (Option.some_ne_none _).symm

def behind (env : Environment) (names : Names) (r : Text) : List Action → Text
  | [] => r
  | a :: rest => ';' :: (Text.join [';'] (actions env names (a :: rest)) ++ r)

def RecoversAll (n : Nat) (c : Parse.BlockContext) (env : Environment) (names : Names) (r : Text) (s : Scope)
    (previous : Option Action) (start : Nat) : List Action → Scope → Prop
  | [], s' => s' = s
  | a :: rest, s' => Parse.isGiveBack previous = false ∧ (action env names a).Starts ∧ ∃ next,
    Recovers n c s previous start (action env names a) (behind env names r rest) a next ∧
      RecoversAll n c env names r next (some a) (start + byteLength (action env names a) + 1) rest s'

section
variable {env : Environment} {names : Names} {c : Parse.BlockContext} {s s' : Scope} {previous : Option Action}
  {start n : Nat} {r : Text}

private theorem join_actions (a : Action) (rest : List Action) :
    Text.join [';'] (actions env names (a :: rest)) ++ r = action env names a ++ behind env names r rest := by
  cases rest with
  | nil => rw [actions_cons, actions_nil, Text.join_singleton, behind]
  | cons b rest =>
    rw [actions_cons, actions_cons, Text.join_cons, behind, List.append_assoc]
    rfl

private theorem behind_follows (hr : r.Follows) (rest : List Action) : (behind env names r rest).Follows := by
  cases rest with
  | nil => exact hr
  | cons b rest => exact .inr ⟨_, rfl⟩

private theorem readAll_behind (start : Nat) (rest : List Action) :
    readAll start (behind env names [] rest) = readAll (start + 1) (Text.join [';'] (actions env names rest)) := by
  cases rest with
  | nil =>
    rw [behind, readAll_nil]
    exact (readAll_nil _).symm
  | cons b rest => rw [behind, readAll_semicolon, List.append_nil]

/-- What is recovered one after the other is what the block is parsed to. -/
private theorem RecoversAll.parse {list : List Action} (before : List Action)
    (h : RecoversAll n c env names [] s previous start list s')
    (hg : Parse.isGiveBack before.head? = Parse.isGiveBack previous)
    (hw : Parse.isWhen before.head? = Parse.isWhen previous) :
    Parse.Yields n
      (statements c s before (readAll start (Text.join [';'] (actions env names list)))) fun p =>
        Action.allUnlabelled p.1 = Action.allUnlabelled (before.reverse ++ list) ∧ p.2 = s' := by
  induction list generalizing s previous start before with
  | nil =>
    have hread : readAll start (Text.join [';'] (actions env names [])) = [] := readAll_nil start
    rw [hread]
    exact .pure ⟨by rw [List.append_nil], h.symm⟩
  | cons a rest ih =>
    obtain ⟨hfirst, hstarts, next, ⟨first, hread, hparse⟩, hrest⟩ := h
    have hall := readAll_first hstarts hread
    rw [← join_actions, List.append_nil, readAll_behind] at hall
    rw [hall]
    unfold statements
    rw [hg, hfirst, if_neg (by decide)]
    refine (hparse _ hw).bind fun p hp => ?_
    obtain ⟨action, scope⟩ := p
    obtain ⟨haction, rfl⟩ := hp
    have hgiveBack := Action.isGiveBack_unlabelled action
    have hwhen := Action.isWhen_unlabelled action
    rw [haction] at hgiveBack hwhen
    have hsameGiveBack : Parse.isGiveBack (action :: before).head? = Parse.isGiveBack (some a) :=
      hgiveBack.symm.trans (Action.isGiveBack_unlabelled a)
    have hsameWhen : Parse.isWhen (action :: before).head? = Parse.isWhen (some a) :=
      hwhen.symm.trans (Action.isWhen_unlabelled a)
    refine (ih (action :: before) hrest hsameGiveBack hsameWhen).mono fun q hq => ⟨?_, hq.2⟩
    rw [hq.1]
    simp [Action.allUnlabelled_eq, haction]

end
end Statement

namespace Render
variable {env : Environment} {names seen : Names} {s s' : Scope} {previous : Option Action} {r : Text}
  {n : Nat}

/-- A statement that is no expression starts with a word, and with `else` only an `else` does. -/
private theorem action_word (env : Environment) (hn : names.Cover s') (hr : r.Follows) :
    {a : Action} → a.Scoped s previous s' →
    (∀ t, a ≠ .compute t) → ∃ name w, action env names a = name ++ w ∧ name.IsName ∧
      (∀ d ∈ (w ++ r).head?, Lexeme.isNameChar d = false) ∧ (name = "else".toList ↔ ∃ b, a = .otherwise b)
  | .compute t, _, hc => absurd rfl (hc t)
  | .assign target t, h, _ => by
    obtain ⟨-, name, hname, hkey, hassigns⟩ := h
    refine ⟨name, '=' :: tree env names t, ?_, hname, fun d hd => Option.some.inj hd ▸ rfl, fun he => ?_, nofun⟩
    · rw [action_assign, hassigns.target hn]
    · rw [he] at hkey
      exact nomatch hkey
  | .giveBack t, _, _ => ⟨"return".toList, ' ' :: tree env names t, rfl, by decide,
      fun d hd => Option.some.inj hd ▸ rfl, fun he => absurd he (by decide), nofun⟩
  | .when condition body, _, _ => ⟨"if".toList, parenthesized (tree env names condition) ++ block env names body, by
      rw [action_when, List.append_assoc], by decide, fun d hd => Option.some.inj hd ▸ rfl,
      fun he => absurd he (by decide), nofun⟩
  | .loop condition body, _, _ => ⟨"while".toList, parenthesized (tree env names condition) ++ block env names body, by
      rw [action_loop, List.append_assoc], by decide, fun d hd => Option.some.inj hd ▸ rfl,
      fun he => absurd he (by decide), nofun⟩
  | .otherwise b, _, _ => by
    rw [action_otherwise]
    split
    · exact ⟨"else".toList, ' ' :: Text.join [';'] (actions env names b.actions), rfl, by decide,
        fun d hd => Option.some.inj hd ▸ rfl, fun _ => ⟨b, rfl⟩, fun _ => rfl⟩
    · exact ⟨"else".toList, braced (inside env names b), rfl, by decide,
        fun d hd => Option.some.inj hd ▸ rfl, fun _ => ⟨b, rfl⟩, fun _ => rfl⟩
  | .leaveLoop, _, _ => ⟨"break".toList, [], rfl, by decide, hr.isNameChar,
      fun he => absurd he (by decide), nofun⟩
  | .nextRound, _, _ => ⟨"continue".toList, [], rfl, by decide, hr.isNameChar,
      fun he => absurd he (by decide), nofun⟩

private theorem action_starts (hs : s.Tidy env) (hn : names.Cover s') {a : Action} (h : a.Scoped s previous s') :
    (action env names a).Starts := by
  by_cases hc : ∃ t, a = .compute t
  · obtain ⟨t, rfl⟩ := hc
    rw [action_compute, tree_sight (hn.of_extends h.extends) t h.1]
    exact (tree_framed hs.legible t h.1).first
  · obtain ⟨name, w, ha, hname, -⟩ := action_word env hn (.inl rfl) h fun t ht => hc ⟨t, ht⟩
    rw [ha]
    exact hname.framed.first.append w

private theorem word?_otherwise (b : Block) (r : Text) :
    word? (action env names (.otherwise b) ++ r) = some "else".toList := by
  have hname : Text.IsName "else".toList := by decide
  rw [action_otherwise]
  split
  · exact word?_name (t := ' ' :: (Text.join [';'] (actions env names b.actions) ++ r)) hname
      fun d hd => Option.some.inj hd ▸ rfl
  · exact word?_name (t := braced (inside env names b) ++ r) hname fun d hd => Option.some.inj hd ▸ rfl

/-- Only an `else` starts with the word. -/
private theorem word?_action (hs : s.Tidy env) (hn : names.Cover s') (hm : seen.Cover s') (hr : r.Follows) {a : Action}
    (h : a.Scoped s previous s') (hreparses : a.Every (Reparses n env s.pending) seen s.locals.length) :
    Statement.word? (action env names a ++ r) = some "else".toList ↔ ∃ b, a = .otherwise b := by
  by_cases hc : ∃ t, a = .compute t
  · obtain ⟨t, rfl⟩ := hc
    have ht := Reparses.readable (hreparses.here (hm.of_extends h.extends)) hs rfl h.1
    rw [action_compute, tree_sight (hn.of_extends h.extends) t h.1]
    refine ⟨fun hword => ?_, nofun⟩
    exact nomatch (Statement.word?_speaks ht.closed ht.framed ht.speaks hr hword).1
  · obtain ⟨name, w, ha, hname, hend, helse⟩ := action_word env hn hr h fun t ht => hc ⟨t, ht⟩
    rw [ha, List.append_assoc, Statement.word?_name hname hend, Option.some.injEq, helse]

/-- An `else` follows only an `if`. -/
private theorem noElse_behind (hs : s.Tidy env) (hn : names.Cover s') (hm : seen.Cover s') (hr : r.Follows) {a : Action}
    {rest : List Action} (h : Action.AllScoped s previous (a :: rest) s') (hp : Parse.isWhen previous = false)
    (hreparses : Action.EveryOf (Reparses n env s.pending) seen s.locals.length (a :: rest)) :
    NoElse (behind env names r (a :: rest)) := by
  obtain ⟨-, next, ha, hrest⟩ := h
  have hn' := hn.of_extends hrest.extends
  have hm' := hm.of_extends hrest.extends
  obtain ⟨hdrop, -⟩ := separators_starts (action_starts hs hn' ha) (behind env names r rest)
  rw [NoElse, behind, join_actions, hdrop]
  intro hword
  obtain ⟨b, rfl⟩ := (word?_action hs hn' hm' (behind_follows hr rest) ha hreparses.1).mp hword
  rw [ha.1] at hp
  cases hp

mutual

theorem action_recovers {n : Nat} {names seen : Names} {s s' : Scope} {previous : Option Action} {T r : Text}
    {start offset : Nat} :
    (a : Action) → a.Scoped s previous s' → names.Cover s' → seen.Cover s' → s.Tidy env →
    a.Every (Reparses n env s.pending) seen s.locals.length → a.Every (ReadsBehindReturn env) seen s.locals.length →
    T.At start (action env names a) → r.Follows → ((∃ b, a = .otherwise b) → NoElse r) →
    Recovers n (blockContext env T offset) s previous start (action env names a) r a s'
  | .compute t, h, hn, hm, hs, hr, hg, hat, hf, he => by
    have hreparses := hr.here (hm.of_extends h.extends)
    have ht := Reparses.readable hreparses hs rfl h.1
    rw [action_compute, tree_sight (hn.of_extends h.extends) t h.1] at hat ⊢
    obtain rfl := h.2
    exact recovers_compute hreparses ht hat hf
  | .giveBack t, h, hn, hm, hs, hr, hg, hat, hf, he => by
    have hreparses := hr.here (hm.of_extends h.extends)
    have ht := Reparses.readable hreparses hs rfl h.1
    rw [action_giveBack, tree_sight (hn.of_extends h.extends) t h.1] at hat ⊢
    obtain rfl := h.2
    exact recovers_giveBack hreparses ht hat hf
  | .assign target t, h, hn, hm, hs, hr, hg, hat, hf, he => by
    have hreparses := hr.here (hm.of_extends h.extends)
    have ht := Reparses.readable hreparses hs rfl h.1
    obtain ⟨hscoped, name, hname, hkey, hassigns⟩ := h
    rw [action_assign, tree_sight (hn.of_extends hassigns.extends) t hscoped, hassigns.target hn] at hat ⊢
    exact recovers_assign hname hkey hassigns hreparses ht hat hf
  | .when condition body, h, hn, hm, hs, hr, hg, hat, hf, he => by
    have hcover := hm.of_extends h.2.extends
    have hcover' := hn.of_extends h.2.extends
    have hreparses := hr.here hcover
    have ht := Reparses.readable hreparses hs rfl h.1
    have hr' := ((Action.every_iff _ _ _).mp hr).2 body rfl
    have hg' := ((Action.every_iff _ _ _).mp hg).2 body rfl
    have hinside := inside_decides body h.2 hcover' hcover hs hr'
    rw [action_when, tree_sight hcover' condition h.1, block_eq] at hat ⊢
    refine recovers_when hreparses ht.closed.steady (hinside.steady hg') hat (fun offset => ?_) h.2.extends.inLoop
    exact inside_parses body h.2 hcover' hcover hs hr' hg'
  | .loop condition body, h, hn, hm, hs, hr, hg, hat, hf, he => by
    have hextends := h.extends
    obtain ⟨hcondition, inner, hb, rfl⟩ := h
    have hcover := hm.of_extends hextends
    have hcover' := hn.of_extends hextends
    have hreparses := hr.here hcover
    have ht := Reparses.readable hreparses hs rfl hcondition
    have hr' := ((Action.every_iff _ _ _).mp hr).2 body rfl
    have hg' := ((Action.every_iff _ _ _).mp hg).2 body rfl
    have hinner : names.Cover { s with inLoop := true } := ⟨hcover'.arguments, hcover'.locals⟩
    have hinner' : seen.Cover { s with inLoop := true } := ⟨hcover.arguments, hcover.locals⟩
    have htidy : Scope.Tidy env { s with inLoop := true } := hs.congr rfl rfl rfl
    have hinside := inside_decides body hb hinner hinner' htidy hr'
    rw [action_loop, tree_sight hcover' condition hcondition, block_eq] at hat ⊢
    refine recovers_loop hreparses ht.closed.steady (hinside.steady hg') hat fun offset => ?_
    exact inside_parses body hb hinner hinner' htidy hr' hg'
  | .otherwise ⟨list, locals, firstSlot, frameSize⟩, h, hn, hm, hs, hr, hg, hat, hf, he => by
    have hextends := h.2.extends
    have hcover := hm.of_extends hextends
    have hcover' := hn.of_extends hextends
    have hr' := ((Action.every_iff _ _ _).mp hr).2 _ rfl
    have hg' := ((Action.every_iff _ _ _).mp hg).2 _ rfl
    rw [action_otherwise] at hat ⊢
    by_cases hchain : isChain ⟨list, locals, firstSlot, frameSize⟩
    · rw [if_pos hchain] at hat ⊢
      obtain ⟨last, ha, rfl, rfl, rfl, rfl⟩ := h.2
      have hsame := isChain_locals ha.extends hchain
      have hlast : { last with locals := last.locals.take s.locals.length } = last := by
        rw [hsame, List.take_length, ← hsame]
      rw [hlast] at hn ⊢
      rw [Block.every_iff, hcover.block ha.extends] at hr' hg'
      have hall : RecoversAll n (blockContext env T offset) env names r s none (start + 5) list last :=
        actions_recover list ha hn (.self last) hs hr' hg' hat.right hf fun _ => he ⟨_, rfl⟩
      have hdrop : last.locals.drop s.locals.length = [] := by rw [hsame, List.drop_length]
      rw [hdrop]
      rcases isChain_actions hchain with ⟨t, b, rfl⟩ | ⟨t, b, b', rfl⟩
      · obtain ⟨-, -, next, hfirst, rfl⟩ := hall
        simp only [actions_cons, actions_nil, Text.join_singleton]
        rw [action_when, block_eq] at hfirst ⊢
        exact recovers_elseIf h.1 (he ⟨_, rfl⟩) hfirst
      · obtain ⟨-, -, next, hfirst, -, hstarts, last', hsecond, rfl⟩ := hall
        simp only [actions_cons, actions_nil, Text.join_cons, Text.join_singleton]
        rw [behind, actions_cons, actions_nil, Text.join_singleton] at hfirst
        rw [action_when, block_eq] at hfirst hsecond ⊢
        exact recovers_elseIf_otherwise h.1 hstarts (word?_otherwise b' r) hfirst hsecond
    · rw [if_neg hchain] at hat ⊢
      have hinside := inside_decides _ h.2 hcover' hcover hs hr'
      refine recovers_otherwise h.1 (hinside.steady hg') hat fun offset => ?_
      exact inside_parses _ h.2 hcover' hcover hs hr' hg'
  | .leaveLoop, h, _, _, _, _, _, _, hf, _ => by
    obtain ⟨hl, rfl⟩ := h
    exact recovers_jump true hl (readFirst_break hf)
  | .nextRound, h, _, _, _, _, _, _, hf, _ => by
    obtain ⟨hl, rfl⟩ := h
    exact recovers_jump false hl (readFirst_continue hf)

theorem actions_recover {n : Nat} {names seen : Names} {s s' : Scope} {previous : Option Action} {T r : Text}
    {start offset : Nat} :
    (list : List Action) → Action.AllScoped s previous list s' → names.Cover s' → seen.Cover s' → s.Tidy env →
    Action.EveryOf (Reparses n env s.pending) seen s.locals.length list →
    Action.EveryOf (ReadsBehindReturn env) seen s.locals.length list →
    T.At start (Text.join [';'] (actions env names list)) → r.Follows →
    ((∃ b, list.getLast? = some (.otherwise b)) → NoElse r) →
    RecoversAll n (blockContext env T offset) env names r s previous start list s'
  | [], h, _, _, _, _, _, _, _, _ => h
  | [a], h, hn, hm, hs, hr, hg, hat, hf, he => by
    obtain ⟨hfirst, next, ha, rfl⟩ := h
    rw [actions_cons, actions_nil, Text.join_singleton] at hat
    refine ⟨hfirst, action_starts hs hn ha, s', ?_, rfl⟩
    exact action_recovers a ha hn hm hs hr.1 hg.1 hat hf fun ⟨b, hb⟩ => he ⟨b, congrArg some hb⟩
  | a :: b :: rest, h, hn, hm, hs, hr, hg, hat, hf, he => by
    obtain ⟨hfirst, next, ha, hrest⟩ := h
    have hn' := hn.of_extends hrest.extends
    have hm' := hm.of_extends hrest.extends
    have hs' := hs.action ha
    obtain ⟨ha₁, hr⟩ := hr
    obtain ⟨ha₂, hg⟩ := hg
    rw [ha.visible, ← ha.extends.pending] at hr
    rw [ha.visible] at hg
    rw [actions_cons, actions_cons, Text.join_cons] at hat
    have hbehind : T.At (start + byteLength (action env names a) + 1) (Text.join [';'] (actions env names (b :: rest))) :=
      Text.At.right (w := [';']) hat.right
    refine ⟨hfirst, action_starts hs hn' ha, next, ?_, ?_⟩
    · refine action_recovers a ha hn' hm' hs ha₁ ha₂ hat.left (behind_follows hf _) ?_
      rintro ⟨b', rfl⟩
      exact noElse_behind hs' hn hm hf hrest rfl hr
    · refine actions_recover (b :: rest) hrest hn hm hs' hr hg hbehind hf he

theorem inside_parses {n : Nat} {names seen : Names} {s s' : Scope} {offset : Nat} : (b : Block) → b.Scoped s s' →
    names.Cover s → seen.Cover s → s.Tidy env → b.Every (Reparses n env s.pending) seen →
    b.Every (ReadsBehindReturn env) seen →
    Parse.Yields n (parseBlock env (inside env names b) offset s) fun p =>
      p.1.unlabelled = b.unlabelled ∧ p.2 = s'
  | ⟨list, locals, firstSlot, frameSize⟩, h, hn, hm, hs, hr, hg => by
    obtain ⟨last, ha, rfl, rfl, rfl, rfl⟩ := h
    rw [Block.every_iff, hm.block ha.extends] at hr hg
    rw [inside_eq hn ha.extends, parseBlock_eq]
    have hall : RecoversAll n (blockContext env (Text.join [';'] (actions env last.names list)) offset) env last.names []
        s none 0 list last :=
      actions_recover list ha (.self last) (.self last) hs hr hg (Text.at_self _) (.inl rfl) fun _ => noElse_nil
    unfold Parse.block
    refine (hall.parse [] rfl rfl).bind fun p hp => .pure ?_
    obtain ⟨hactions, hscope⟩ := hp
    simp only [Block.unlabelled, hactions, hscope, List.reverse_nil, List.nil_append, and_self]

end

end Render
end Reckoner
