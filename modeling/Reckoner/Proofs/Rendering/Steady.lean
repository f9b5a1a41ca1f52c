import Reckoner.Proofs.Accepted
import Reckoner.Proofs.Joining
import Reckoner.Render

/-! Texts that close the brackets they open, put together: between brackets, behind words and one after the
other with semicolons between them. -/
namespace Reckoner

open Nesting (level)

inductive Text.Partners : Char → Char → Prop
  | parentheses : Partners '(' ')'
  | braces : Partners '\x7b' '\x7d'

namespace Nesting

/-- A bracket group leads from the outside of all brackets to the outside of all brackets. -/
theorem leads_group {c d : Char} (hp : Text.Partners c d) (a : Bool) {b : Bool} {ts : List Token}
    (h : (level false).Leads ts (level b)) :
    (level a).Leads (Lexeme.single c :: ts ++ [Lexeme.single d]) (level true) := by
  have hst : [Lexeme.single c].head? ≠ some .less := by cases hp <;> nofun
  have hcloses : (level a).closes (Lexeme.single c) = false := by cases hp <;> rfl
  have hopen : (level a).feed (Lexeme.single c) = (level false).under [Lexeme.single c] := by cases hp <;> rfl
  have hclose : ((level b).under [Lexeme.single c]).feed (Lexeme.single d) = level true := by cases hp <;> rfl
  have hinner := h.under hst (List.cons_ne_nil _ _)
  have hlast : ((level b).under [Lexeme.single c]).Leads [Lexeme.single d] (level true) :=
    hclose ▸ Leads.cons (fun hn => nomatch hn) (.nil _)
  exact .cons (fun _ => hcloses) (hopen ▸ hinner.append hlast)

end Nesting

namespace Text
variable {a : Bool} {s t r : Text}

/-- The text closes the brackets and strings that it opens. The flag tells whether an operand stands before it,
so that `<` compares. -/
def Steady (a : Bool) (t : Text) : Prop := ∃ b, (level a).Leads t.tokens (level b)

theorem Closed.steady (h : t.Closed) : t.Steady false := by
  obtain ⟨b, h⟩ := h
  exact ⟨b, h.leads⟩

def Whole (t : Text) : Prop := ∀ token ∈ t.tokens, token ≠ .openString

theorem Steady.whole (h : t.Steady a) : t.Whole := by
  obtain ⟨b, h⟩ := h
  have hbroken : ((level a).feedAll t.tokens).broken = false := by rw [h.state]; rfl
  exact (Nesting.broken_of_feedAll hbroken).2

theorem lex_whole (h : t.Whole) (hr : r.Breaks) (offset : Nat) :
    Lexeme.lex 10 offset (t ++ r) = Lexeme.lex 10 offset t ++ Lexeme.lex 10 (offset + byteLength t) r := by
  refine Lexeme.lex_append (Lexeme.ends_of_breaks hr) offset t fun l hl => h l.token ?_
  rw [← tokens_eq offset]
  exact List.mem_map_of_mem hl

theorem tokens_whole (h : t.Whole) (hr : r.Breaks) : (t ++ r).tokens = t.tokens ++ r.tokens := by
  rw [tokens, lex_whole h hr, List.map_append, tokens_eq, tokens_eq]

theorem breaks_nil : Breaks [] := nofun

theorem breaks_semicolon (t : Text) : Breaks (';' :: t) := fun _ h => .inl (Option.some.inj h).symm

private theorem Partners.breaks {c d : Char} (hp : Partners c d) (t : Text) : Breaks (d :: t) := by
  intro e he
  obtain rfl := Option.some.inj he
  cases hp
  · exact .inr (.inl rfl)
  · exact .inr (.inr (.inl rfl))

theorem Partners.lex_left {c d : Char} (hp : Partners c d) (offset : Nat) (t : Text) :
    Lexeme.lex 10 offset (c :: t) = ⟨Lexeme.single c, offset, offset + 1⟩ :: Lexeme.lex 10 (offset + 1) t :=
  Lexeme.lex_bracket (by cases hp <;> simp) offset t

private theorem Partners.lex_right {c d : Char} (hp : Partners c d) (offset : Nat) (t : Text) :
    Lexeme.lex 10 offset (d :: t) = ⟨Lexeme.single d, offset, offset + 1⟩ :: Lexeme.lex 10 (offset + 1) t :=
  Lexeme.lex_bracket (by cases hp <;> simp) offset t

/-- The lexemes of a bracket group and of what follows it. -/
theorem lex_group {c d : Char} (hp : Partners c d) (h : t.Whole) (offset : Nat) (r : Text) :
    Lexeme.lex 10 offset (c :: t ++ [d] ++ r) = ⟨Lexeme.single c, offset, offset + 1⟩ ::
      (Lexeme.lex 10 (offset + 1) t ++
        ⟨Lexeme.single d, offset + 1 + byteLength t, offset + byteLength (c :: t ++ [d])⟩ ::
          Lexeme.lex 10 (offset + byteLength (c :: t ++ [d])) r) := by
  have hsize : byteLength (c :: t ++ [d]) = 1 + byteLength t + 1 := by
    have hc : c.utf8Size = 1 := by cases hp <;> rfl
    have hd : d.utf8Size = 1 := by cases hp <;> rfl
    simp [hc, hd, Nat.add_assoc]
  have hjoin : c :: t ++ [d] ++ r = c :: (t ++ d :: r) := by simp
  rw [hjoin, hp.lex_left, lex_whole h (hp.breaks r), hp.lex_right, hsize]
  simp only [Nat.add_assoc]

theorem tokens_group {c d : Char} (hp : Partners c d) (h : t.Whole) (r : Text) :
    tokens (c :: t ++ [d] ++ r) = Lexeme.single c :: t.tokens ++ [Lexeme.single d] ++ r.tokens := by
  rw [tokens, lex_group hp h]
  simp [tokens_eq]

theorem tokens_nil : tokens [] = [] := by
  rw [tokens, Lexeme.lex]
  rfl

theorem tokens_enclosed {c d : Char} (hp : Partners c d) (h : t.Whole) :
    tokens (c :: t ++ [d]) = Lexeme.single c :: t.tokens ++ [Lexeme.single d] := by
  have hgroup := tokens_group hp h []
  rwa [tokens_nil, List.append_nil, List.append_nil] at hgroup

/-- The group that such a text stands in ends with it. -/
theorem groupEnd_group {c d : Char} (hp : Partners c d) (h : t.Steady false) (r : Text) :
    groupEnd (c :: t ++ [d] ++ r) = some (byteLength (c :: t ++ [d])) := by
  have hcloser : (Lexeme.single c).closer = some (Lexeme.single d) := by cases hp <;> rfl
  have hless : Lexeme.single c ≠ .less := by cases hp <;> nofun
  unfold groupEnd
  rw [lex_group hp h.whole]
  obtain ⟨b, hleads⟩ := h
  rw [← tokens_eq (0 + 1)] at hleads
  simp only [hcloser]
  rw [Nesting.group_inside hless hcloser _ hleads]
  simp

/-- The first semicolon outside of brackets is the one behind a closed text. -/
theorem findOutside_closed (h : t.Closed) (hr : r = [] ∨ ∃ next, r = ';' :: next) :
    findOutside .semicolon (t ++ r) = byteLength t := by
  have hbreaks : r.Breaks := by
    rcases hr with rfl | ⟨next, rfl⟩
    · exact breaks_nil
    · exact breaks_semicolon next
  unfold findOutside
  rw [lex_whole h.steady.whole hbreaks]
  obtain ⟨b, h⟩ := h
  rw [Nesting.find_append _ (by rw [tokens_eq]; exact h.avoids), tokens_eq]
  rw [show Nesting.outside = level false from rfl, h.leads.state]
  rcases hr with rfl | ⟨next, rfl⟩
  · rw [Lexeme.lex, Nesting.find, List.append_nil]
  · rw [Lexeme.lex_bracket (by simp), Nesting.find, if_pos ⟨rfl, rfl⟩, Nat.zero_add]

theorem tokens_name {name : Text} (hn : name.IsName) (ht : ∀ d ∈ t.head?, Lexeme.isNameChar d = false) :
    (name ++ t).tokens = .identifier :: t.tokens := by
  rw [tokens, Lexeme.lex_name hn ht, List.map_cons, tokens_eq]

theorem tokens_space (t : Text) : tokens (' ' :: t) = t.tokens := by
  rw [tokens, Lexeme.lex_space, tokens_eq]

theorem tokens_assign (ht : ∀ d ∈ t.head?, d ≠ '=' ∧ d ≠ '>') : tokens ('=' :: t) = .assign :: t.tokens := by
  rw [tokens, Lexeme.lex_assign ht, List.map_cons, tokens_eq]

theorem tokens_semicolon (t : Text) : tokens (';' :: t) = .semicolon :: t.tokens := by
  rw [tokens, Lexeme.lex_bracket (by simp), List.map_cons, tokens_eq]
  rfl

theorem steady_nil (a : Bool) : Steady a [] := ⟨a, by rw [tokens_nil]; exact .nil _⟩

/-- Two such texts with a semicolon between them. -/
theorem Steady.semicolon (hs : s.Steady a) (ht : t.Steady false) : Steady a (s ++ ';' :: t) := by
  rw [Steady, tokens_whole hs.whole (breaks_semicolon t), tokens_semicolon]
  obtain ⟨b, hs⟩ := hs
  obtain ⟨b', ht⟩ := ht
  exact ⟨b', hs.append (.cons (fun _ => rfl) ht)⟩

/-- Behind a word an operand has ended. -/
theorem Steady.name {name : Text} (hn : name.IsName) (hd : ∀ d ∈ t.head?, Lexeme.isNameChar d = false)
    (ht : t.Steady true) (a : Bool) : Steady a (name ++ t) := by
  rw [Steady, tokens_name hn hd]
  obtain ⟨b, ht⟩ := ht
  exact ⟨b, .cons (fun _ => rfl) ht⟩

theorem steady_name {name : Text} (hn : name.IsName) (a : Bool) : Steady a name := by
  have hname := Steady.name hn (t := []) (fun _ hd => nomatch hd) (steady_nil true) a
  rwa [List.append_nil] at hname

theorem Steady.assign (hd : ∀ d ∈ t.head?, d ≠ '=' ∧ d ≠ '>') (ht : t.Steady false) (a : Bool) :
    Steady a ('=' :: t) := by
  rw [Steady, tokens_assign hd]
  obtain ⟨b, ht⟩ := ht
  exact ⟨b, .cons (fun _ => rfl) ht⟩

end Text
end Reckoner
