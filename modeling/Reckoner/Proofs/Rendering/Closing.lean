import Reckoner.Proofs.Rendering.Misread
import Reckoner.Proofs.Rendering.Reading
import Reckoner.Proofs.Rendering.Tidy

/-! Which rendered blocks close their braces: those in which every returned expression closes its brackets behind
the word `return`. -/
namespace Reckoner

open Nesting (level)
open Render (braced parenthesized)

namespace Text
variable {p q : Prop} {last : Bool} {a : Bool} {w v r : Text}

/-- Either `p` holds and the text closes what it opens, or `p` fails and so does every block that the text is a
statement of. When the text can only be a `last` statement, this is said of the end of a block. -/
structure Decides (p : Prop) (last : Bool) (w : Text) : Prop where
  whole : w.Whole
  decides : p ∧ w.Steady false ∨ ¬p ∧ ∀ st us, (last → us.head? = some Token.rightBrace) →
    ¬((level false).under (.leftBrace :: st)).Survives (w.tokens ++ us)

namespace Decides

private theorem of_steady (hp : p) (h : w.Steady false) (last : Bool) : w.Decides p last := ⟨h.whole, .inl ⟨hp, h⟩⟩

private theorem congr (h : w.Decides p last) (hpq : p ↔ q) : w.Decides q last := propext hpq ▸ h

theorem steady (h : w.Decides p last) (hp : p) : w.Steady false := by
  rcases h.decides with h | h
  · exact h.2
  · exact absurd hp h.1

/-- At the end of a block a text decides no less. -/
private theorem weaken (h : w.Decides p last) : w.Decides p true :=
  ⟨h.whole, h.decides.imp_right fun h' => ⟨h'.1, fun st us hlast => h'.2 st us fun _ => hlast rfl⟩⟩

private theorem under_ne_less (st : List Token) : (Token.leftBrace :: st).head? ≠ some .less := nofun

/-- One statement after the other. -/
private theorem semicolon (hw : w.Decides p false) (hv : v.Decides q last) : (w ++ ';' :: v).Decides (p ∧ q) last := by
  have hsplit : (w ++ ';' :: v).tokens = w.tokens ++ Token.semicolon :: v.tokens := by
    rw [tokens_whole hw.whole (breaks_semicolon v), tokens_semicolon]
  refine ⟨fun token ht => ?_, ?_⟩
  · rw [hsplit] at ht
    rcases List.mem_append.mp ht with ht | ht
    · exact hw.whole token ht
    · rcases List.mem_cons.mp ht with rfl | ht
      · nofun
      · exact hv.whole token ht
  · rcases hw.decides with ⟨hp, hsteady⟩ | ⟨hp, hfails⟩
    · rcases hv.decides with ⟨hq, hsteady'⟩ | ⟨hq, hfails⟩
      · exact .inl ⟨⟨hp, hq⟩, hsteady.semicolon hsteady'⟩
      · refine .inr ⟨fun h => hq h.2, fun st us hlast => ?_⟩
        obtain ⟨b, hleads⟩ := hsteady
        have hsemicolon : (level false).Leads (w.tokens ++ [Token.semicolon]) (level false) :=
          hleads.append (.cons (fun _ => rfl) (.nil _))
        rw [hsplit, List.append_cons, List.append_assoc,
          Nesting.survives_append (under_ne_less st) (List.cons_ne_nil _ _) hsemicolon]
        exact hfails st us hlast
    · refine .inr ⟨fun h => hp h.1, fun st us _ => ?_⟩
      rw [hsplit, List.append_assoc]
      exact hfails st _ nofun

/-- A block behind a word, or behind a word and a condition. -/
private theorem block {b : Bool} (hw : v.Decides q true) (hl : (level false).Leads w.tokens (level b))
    (hsplit : (w ++ Render.braced v).tokens = w.tokens ++ (Render.braced v).tokens) :
    (w ++ Render.braced v).Decides q last := by
  have hbraced : (Render.braced v).tokens = .leftBrace :: v.tokens ++ [.rightBrace] :=
    tokens_enclosed .braces hw.whole
  rw [hbraced] at hsplit
  refine ⟨fun token ht => ?_, ?_⟩
  · rw [hsplit] at ht
    simp only [List.cons_append, List.mem_append, List.mem_cons, List.not_mem_nil, or_false] at ht
    rcases ht with ht | rfl | ht | rfl
    · have hbroken : ((level false).feedAll w.tokens).broken = false := by rw [hl.state]; rfl
      exact (Nesting.broken_of_feedAll hbroken).2 token ht
    · nofun
    · exact hw.whole token ht
    · nofun
  · rcases hw.decides with ⟨hq, b', hsteady⟩ | ⟨hq, hfails⟩
    · refine .inl ⟨hq, true, ?_⟩
      rw [hsplit]
      exact hl.append (Nesting.leads_group .braces b hsteady)
    · refine .inr ⟨hq, fun st us _ => ?_⟩
      have hopen : (level b).Leads [Token.leftBrace] ((level false).under [.leftBrace]) :=
        .cons (fun _ => rfl) (.nil _)
      have hfront : ((level false).under (.leftBrace :: st)).Survives
            (w.tokens ++ [Token.leftBrace] ++ (v.tokens ++ .rightBrace :: us)) ↔
          (((level false).under [.leftBrace]).under (.leftBrace :: st)).Survives (v.tokens ++ .rightBrace :: us) :=
        Nesting.survives_append (under_ne_less st) (List.cons_ne_nil _ _) (hl.append hopen)
      rw [hsplit]
      simp only [List.append_assoc, List.cons_append, List.nil_append] at hfront ⊢
      rw [hfront]
      exact hfails (.leftBrace :: st) (.rightBrace :: us) fun _ => rfl

/-- What starts with a word goes on alike behind another word. -/
private theorem behindWord {name : Text} (hn : name.IsName) (hw : w.Decides p last) {ts : List Token}
    (hfirst : w.tokens = .identifier :: ts) : (name ++ ' ' :: w).Decides p last := by
  have hsplit : (name ++ ' ' :: w).tokens = .identifier :: .identifier :: ts := by
    rw [tokens_name (t := ' ' :: w) hn fun _ hd => Option.some.inj hd ▸ rfl, tokens_space, hfirst]
  refine ⟨fun token ht => ?_, ?_⟩
  · rw [hsplit, ← hfirst] at ht
    rcases List.mem_cons.mp ht with rfl | ht
    · nofun
    · exact hw.whole token ht
  · rcases hw.decides with ⟨hp, b, hsteady⟩ | ⟨hp, hfails⟩
    · refine .inl ⟨hp, b, ?_⟩
      rw [hfirst] at hsteady
      rw [hsplit]
      exact .cons (fun _ => rfl) (.cons (fun _ => rfl) ⟨hsteady.closed.2, hsteady.state⟩)
    · refine .inr ⟨hp, fun st us hlast h => hfails st us hlast ?_⟩
      rw [hsplit, List.cons_append, Nesting.survives_cons (under_ne_less st) (List.cons_ne_nil _ _) fun _ => rfl,
        List.cons_append, Nesting.survives_cons (under_ne_less st) (List.cons_ne_nil _ _) fun _ => rfl] at h
      rw [hfirst, List.cons_append,
        Nesting.survives_cons (under_ne_less st) (List.cons_ne_nil _ _) fun _ => rfl]
      exact h

end Decides
end Text

namespace Render
variable {env : Environment}

/-- An expression that is returned closes the brackets that it opens also behind the word `return`, where a `<`
compares. -/
def ReadsBehindReturn (env : Environment) (names : Names) (a : Action) : Prop :=
  ∀ t, a = .giveBack t → (tree env names t).Steady true

private theorem tokens_condition {name c : Text} (hn : name.IsName) (hc : c.Whole) (r : Text) :
    (name ++ parenthesized c ++ r).tokens =
      .identifier :: .leftParen :: c.tokens ++ [.rightParen] ++ r.tokens := by
  have hname := Text.tokens_name (t := parenthesized c ++ r) hn fun _ hd => Option.some.inj hd ▸ rfl
  rw [List.append_assoc, hname, show parenthesized c ++ r = '(' :: c ++ [')'] ++ r from rfl,
    Text.tokens_group .parentheses hc]
  rfl

private theorem condition_decides {name c : Text} {p : Prop} (hn : name.IsName) (hc : c.Closed) {b : Text}
    (hb : b.Decides p true) : (name ++ parenthesized c ++ braced b).Decides p false := by
  have hwhole := hc.steady.whole
  have htokens := tokens_condition hn hwhole []
  rw [Text.tokens_nil, List.append_nil, List.append_nil] at htokens
  refine hb.block (b := true) ?_ ?_
  · obtain ⟨b, hc⟩ := hc.steady
    rw [htokens]
    exact .cons (fun _ => rfl) (Nesting.leads_group .parentheses true hc)
  · rw [tokens_condition hn hwhole, htokens]

/-- A statement that holds no block. -/
private theorem decides_leaf {seen : Names} {a : Action} {w : Text} (ha : a.body? = none)
    (hg : Parse.isGiveBack (some a) = false) (hw : w.Steady false) (visible : Nat) :
    w.Decides (a.Every (ReadsBehindReturn env) seen visible) (Parse.isGiveBack (some a)) := by
  refine .of_steady ((Action.every_iff a seen visible).mpr ⟨?_, ?_⟩) hw _
  · rintro u rfl
    exact nomatch hg
  · rw [ha]
    nofun

/-- A statement that holds a block. -/
private theorem decides_nested {seen : Names} {a : Action} {b : Block} {w : Text} (ha : a.body? = some b)
    (hw : w.Decides (b.Every (ReadsBehindReturn env) seen) false) (visible : Nat) :
    w.Decides (a.Every (ReadsBehindReturn env) seen visible) (Parse.isGiveBack (some a)) := by
  have hg : Parse.isGiveBack (some a) = false := by cases a <;> first | rfl | exact nomatch ha
  rw [hg]
  refine hw.congr ((Action.every_iff a seen visible).trans ⟨fun h => h.2 b ha, fun h => ⟨?_, ?_⟩⟩).symm
  · rintro u rfl
    exact nomatch ha
  · intro b' hb'
    obtain rfl := Option.some.inj (ha.symm.trans hb')
    exact h

/-- A returned expression closes its brackets behind the word, or its block is not closed. -/
private theorem decides_giveBack {t : Text} (ht : t.Closed) :
    Text.Decides (t.Steady true) true ("return ".toList ++ t) := by
  have hname : Text.IsName "return".toList := by decide
  have hsplit : Text.tokens ("return ".toList ++ t) = .identifier :: t.tokens := by
    rw [← Text.tokens_space t]
    exact Text.tokens_name (t := ' ' :: t) hname fun _ hd => Option.some.inj hd ▸ rfl
  refine ⟨fun token htoken => ?_, ?_⟩
  · rw [hsplit] at htoken
    rcases List.mem_cons.mp htoken with rfl | htoken
    · nofun
    · exact ht.steady.whole token htoken
  · by_cases hp : t.Steady true
    · obtain ⟨b, hsteady⟩ := hp
      refine .inl ⟨⟨b, hsteady⟩, b, ?_⟩
      rw [hsplit]
      exact .cons (fun _ => rfl) hsteady
    · refine .inr ⟨hp, fun st us hlast => ?_⟩
      obtain ⟨b, hclosed⟩ := ht.steady
      obtain ⟨vs, rfl⟩ : ∃ vs, us = .rightBrace :: vs := by
        cases us with
        | nil => exact nomatch hlast rfl
        | cons u vs => exact ⟨vs, by rw [Option.some.inj (hlast rfl)]⟩
      rw [hsplit, List.cons_append,
        Nesting.survives_cons (Text.Decides.under_ne_less st) (List.cons_ne_nil _ _) fun _ => rfl]
      exact (Nesting.leads_or_fails (m := level true) hclosed rfl rfl).resolve_left hp st vs

/-- What follows an `else` directly is an `if`, perhaps with an `else` of its own. -/
theorem isChain_actions {list : List Action} {locals : List Text} {firstSlot frameSize : Nat}
    (h : isChain ⟨list, locals, firstSlot, frameSize⟩) :
    (∃ t b, list = [.when t b]) ∨ ∃ t b b', list = [.when t b, .otherwise b'] := by
  simp only [isChain, Bool.and_eq_true] at h
  obtain ⟨-, h⟩ := h
  split at h
  · exact .inl ⟨_, _, rfl⟩
  · exact .inr ⟨_, _, _, rfl⟩
  · exact nomatch h

/-- What follows an `else` directly starts with a word, and does not give back. -/
private theorem isChain_decides (env : Environment) {b : Block} (h : isChain b) (names : Names) :
    Parse.isGiveBack b.actions.getLast? = false ∧
      ∃ ts, (Text.join [';'] (actions env names b.actions)).tokens = .identifier :: ts := by
  obtain ⟨list, locals, firstSlot, frameSize⟩ := b
  have hname : Text.IsName "if".toList := by decide
  have hword (c r : Text) : Text.tokens ("if".toList ++ parenthesized c ++ r) =
      .identifier :: (parenthesized c ++ r).tokens := by
    rw [List.append_assoc]
    exact Text.tokens_name (t := parenthesized c ++ r) hname fun _ hd => Option.some.inj hd ▸ rfl
  rcases isChain_actions h with ⟨t, b, rfl⟩ | ⟨t, b, b', rfl⟩
  · refine ⟨rfl, ?_⟩
    simp only [actions_cons, actions_nil, Text.join_singleton, action_when]
    exact ⟨_, hword _ _⟩
  · refine ⟨rfl, ?_⟩
    simp only [actions_cons, Text.join_cons, action_when, List.append_assoc]
    exact ⟨_, by simpa only [List.append_assoc] using hword _ _⟩

/-- Conditions that follow an `else` directly declare nothing. -/
theorem isChain_locals {s last : Scope} {list : List Action} {frameSize : Nat} (he : s.Extends last)
    (h : isChain ⟨list, last.locals.drop s.locals.length, s.locals.length, frameSize⟩) : last.locals = s.locals := by
  simp only [isChain, Bool.and_eq_true, List.isEmpty_iff] at h
  obtain ⟨rest, hrest⟩ := he.locals
  have hnil : rest = [] := by rw [← h.1, ← hrest, List.drop_left]
  rw [← hrest, hnil, List.append_nil]

mutual

theorem action_decides {n : Nat} {names seen : Names} {s s' : Scope} {previous : Option Action} :
    (a : Action) → a.Scoped s previous s' → names.Cover s' → seen.Cover s' → s.Tidy env →
    a.Every (Reparses n env s.pending) seen s.locals.length →
    (action env names a).Decides (a.Every (ReadsBehindReturn env) seen s.locals.length)
      (Parse.isGiveBack (some a))
  | .compute t, h, hn, hm, hs, hr => by
    have ht := Reparses.readable (hr.here (hm.of_extends h.extends)) hs rfl h.1
    rw [action_compute, tree_sight (hn.of_extends h.extends) t h.1]
    exact decides_leaf rfl rfl ht.closed.steady _
  | .giveBack t, h, hn, hm, hs, hr => by
    have hcover := hm.of_extends h.extends
    have ht := Reparses.readable (hr.here hcover) hs rfl h.1
    rw [action_giveBack, tree_sight (hn.of_extends h.extends) t h.1]
    refine (decides_giveBack ht.closed).congr ((Action.every_iff _ _ _).trans ?_).symm
    rw [hcover.upTo]
    exact ⟨fun h => h.1 t rfl, fun h => ⟨fun u hu => Action.giveBack.inj hu ▸ h, nofun⟩⟩
  | .assign target t, h, hn, hm, hs, hr => by
    have ht := Reparses.readable (hr.here (hm.of_extends h.extends)) hs rfl h.1
    obtain ⟨hscoped, name, hname, hkey, hassigns⟩ := h
    rw [action_assign, tree_sight (hn.of_extends hassigns.extends) t hscoped, hassigns.target hn]
    refine decides_leaf rfl rfl (.name (t := '=' :: _) hname (fun _ hd => Option.some.inj hd ▸ rfl) ?_ false) _
    refine .assign (fun d hd => ?_) ht.closed.steady true
    have hfirm := ht.framed.first.head [] d (by rwa [List.append_nil])
    exact ⟨hfirm.equals, hfirm.greater⟩
  | .when condition body, h, hn, hm, hs, hr => by
    have hcover := hm.of_extends h.2.extends
    have hcover' := hn.of_extends h.2.extends
    have hname : Text.IsName "if".toList := by decide
    have ht := Reparses.readable (hr.here hcover) hs rfl h.1
    have hb := inside_decides body h.2 hcover' hcover hs (((Action.every_iff _ _ _).mp hr).2 body rfl)
    rw [action_when, tree_sight hcover' condition h.1, block_eq]
    exact decides_nested rfl (condition_decides hname ht.closed hb) _
  | .loop condition body, h, hn, hm, hs, hr => by
    obtain ⟨hcondition, inner, hb, rfl⟩ := h
    have hextends : s.Extends { inner with inLoop := s.inLoop } :=
      @Action.Scoped.extends s _ none (.loop condition body) ⟨hcondition, inner, hb, rfl⟩
    have hcover := hm.of_extends hextends
    have hcover' := hn.of_extends hextends
    have hname : Text.IsName "while".toList := by decide
    have ht := Reparses.readable (hr.here hcover) hs rfl hcondition
    have hinside := inside_decides body hb ⟨hcover'.arguments, hcover'.locals⟩ ⟨hcover.arguments, hcover.locals⟩
      (hs.congr rfl rfl rfl) (((Action.every_iff _ _ _).mp hr).2 body rfl)
    rw [action_loop, tree_sight hcover' condition hcondition, block_eq]
    exact decides_nested rfl (condition_decides hname ht.closed hinside) _
  | .otherwise ⟨list, locals, firstSlot, frameSize⟩, h, hn, hm, hs, hr => by
    have hextends := h.2.extends
    have hcover := hm.of_extends hextends
    have hcover' := hn.of_extends hextends
    have hname : Text.IsName "else".toList := by decide
    have hr' := ((Action.every_iff _ _ _).mp hr).2 _ rfl
    rw [action_otherwise]
    refine decides_nested rfl ?_ _
    split
    · rename_i hchain
      obtain ⟨hlast, ts, hfirst⟩ := isChain_decides env hchain names
      obtain ⟨last, ha, rfl, rfl, -, -⟩ := h.2
      simp only at hlast hfirst
      have hsame := isChain_locals ha.extends hchain
      have hlastCover : names.Cover last := ⟨hcover'.arguments.trans ha.extends.params.symm, hsame ▸ hcover'.locals⟩
      rw [Block.every_iff, hcover.block ha.extends] at hr'
      rw [Block.every_iff, hcover.block ha.extends]
      have hactions := actions_decides list ha hlastCover (.self last) hs hr'
      rw [hlast] at hactions
      exact hactions.behindWord hname hfirst
    · have hb := inside_decides _ h.2 hcover' hcover hs hr'
      have htokens := Text.tokens_name (t := []) hname fun _ hd => nomatch hd
      rw [Text.tokens_nil, List.append_nil] at htokens
      refine hb.block (b := true) ?_ ?_
      · rw [htokens]
        exact .cons (fun _ => rfl) (.nil _)
      · rw [htokens]
        exact Text.tokens_name (t := braced _) hname fun _ hd => Option.some.inj hd ▸ rfl
  | .leaveLoop, h, hn, hm, hs, hr => by
    have hname : Text.IsName "break".toList := by decide
    exact decides_leaf rfl rfl (Text.steady_name hname false) _
  | .nextRound, h, hn, hm, hs, hr => by
    have hname : Text.IsName "continue".toList := by decide
    exact decides_leaf rfl rfl (Text.steady_name hname false) _

theorem actions_decides {n : Nat} {names seen : Names} {s s' : Scope} {previous : Option Action} :
    (list : List Action) → Action.AllScoped s previous list s' → names.Cover s' → seen.Cover s' → s.Tidy env →
    Action.EveryOf (Reparses n env s.pending) seen s.locals.length list →
    (Text.join [';'] (actions env names list)).Decides
      (Action.EveryOf (ReadsBehindReturn env) seen s.locals.length list) (Parse.isGiveBack list.getLast?)
  | [], _, _, _, _, _ => .of_steady trivial (Text.steady_nil false) _
  | [a], h, hn, hm, hs, hr => by
    obtain ⟨-, next, ha, rfl⟩ := h
    rw [actions_cons, actions_nil, Text.join_singleton]
    exact (action_decides a ha hn hm hs hr.1).congr ⟨fun h => ⟨h, trivial⟩, And.left⟩
  | a :: b :: rest, h, hn, hm, hs, hr => by
    obtain ⟨-, next, ha, hrest⟩ := h
    have hfirst := action_decides a ha (hn.of_extends hrest.extends) (hm.of_extends hrest.extends) hs hr.1
    have hg : Parse.isGiveBack (some a) = false := hrest.1
    have hvisible : a.visible s.locals.length = next.locals.length := ha.visible
    obtain ⟨ha', hr'⟩ := hr
    rw [hvisible, ← ha.extends.pending] at hr'
    have hothers := actions_decides (b :: rest) hrest hn hm (hs.action ha) hr'
    rw [hg] at hfirst
    rw [actions_cons, actions_cons, Text.join_cons, Action.everyOf_cons, hvisible]
    exact hfirst.semicolon hothers

theorem inside_decides {n : Nat} {names seen : Names} {s s' : Scope} :
    (b : Block) → b.Scoped s s' → names.Cover s → seen.Cover s → s.Tidy env →
    b.Every (Reparses n env s.pending) seen →
    (inside env names b).Decides (b.Every (ReadsBehindReturn env) seen) true
  | ⟨list, locals, firstSlot, frameSize⟩, h, hn, hm, hs, hr => by
    obtain ⟨last, ha, rfl, rfl, -, -⟩ := h
    rw [Block.every_iff, hm.block ha.extends] at hr
    rw [Block.every_iff, hm.block ha.extends, inside_eq hn ha.extends]
    exact (actions_decides list ha (.self last) (.self last) hs hr).weaken

end

end Render
end Reckoner
