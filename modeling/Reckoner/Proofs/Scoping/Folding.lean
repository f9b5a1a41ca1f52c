import Reckoner.Parse
import Reckoner.Proofs.Folding
import Reckoner.Proofs.Scoping.Builtins

/-! The parser builds scoped trees: from the names in sight, through the sections of an expression and the
folding of its operators. -/
namespace Reckoner

/-- A base of a number literal whose evaluation met a scope fault. -/
def ParseError.isScopeFault : ParseError → Bool
  | .invalidBase (.failed e) _ => e.isScopeFault
  | _ => false

namespace Parse

/-- The errors in `E` are all those that parsing in the environment can meet, provided that the bases of
number literals are evaluated in scope. -/
structure Admits (env : Environment) (E : ParseError → Prop) : Prop where
  other (e : ParseError) : e.isScopeFault = false → E e
  base (position : Nat) (t : Tree) : t.usesFrame = false → t.Scoped .top →
    Always E (evaluateBase env position t) fun _ => True

variable {env : Environment} {E : ParseError → Prop}

theorem Admits.of_forall (h : ∀ e, E e) : Admits env E where
  other e _ := h e
  base _ _ _ _ _ _ := ⟨trivial, by
    unfold Ends
    split
    · trivial
    · exact h _⟩

end Parse

mutual

/-- A tree that does not use its frame needs no scope. -/
theorem Tree.Scoped.top {s : Scope} : {t : Tree} → t.Scoped s → t.usesFrame = false → t.Scoped .top
  | .literal _, h, _ => h
  | .builtin _ _, h, hu => ⟨h.1, Tree.AllScoped.top h.2 hu⟩
  | .call _ _, h, hu => Tree.AllScoped.top h hu
  | .globalVariable _, _, _ => trivial
  | .vector _ _ _, h, hu => ⟨h.1, Tree.AllScoped.top h.2 hu⟩
  | .function ⟨_, _, _⟩ width, h, hu => by
    obtain ⟨rfl, pending, last, hb⟩ := h
    have hw : s.captureWidth = 0 := Nat.eq_zero_of_not_pos (of_decide_eq_false hu)
    unfold Scope.captureWidth at hw
    have hp : s.params = [] := List.eq_nil_of_length_eq_zero (by omega)
    have hl : s.locals = [] := List.eq_nil_of_length_eq_zero (by omega)
    rw [hp, hl] at hb
    exact ⟨hw, pending, last, hb⟩

theorem Tree.AllScoped.top {s : Scope} :
    {ts : List Tree} → Tree.AllScoped s ts → Tree.anyUsesFrame ts = false → Tree.AllScoped .top ts
  | [], _, _ => trivial
  | _ :: _, h, hu => by
    rw [Tree.anyUsesFrame, Bool.or_eq_false_iff] at hu
    exact ⟨Tree.Scoped.top h.1 hu.1, Tree.AllScoped.top h.2 hu.2⟩

end

theorem Tree.number_scoped (s : Scope) (n : Number) : (Tree.number n).Scoped s := nofun

namespace Scope
variable {s : Scope} {env : Environment} {E : ParseError → Prop} {name : Text}

private theorem slot?_scoped {t : Tree} (h : s.slot? env name = some t) : t.Scoped s := by
  simp only [slot?, Option.orElse_eq_orElse, Option.orElse_eq_or, Option.or_eq_some_iff,
    Option.map_eq_some_iff] at h
  rcases h with ⟨index, h, rfl⟩ | ⟨-, ⟨slot, h, rfl⟩ | ⟨-, slot, -, rfl⟩⟩
  · exact argument?_lt h
  · exact local?_lt h
  · trivial

theorem resolve_scoped (h : Parse.Admits env E) (ambient : Ambient) (position : Nat) :
    Ends E (s.resolve env ambient name position) (Tree.Scoped s) := by
  unfold resolve
  simp only
  split
  · rename_i t ht
    simp only [Option.orElse_eq_orElse, Option.orElse_eq_or, Option.or_eq_some_iff] at ht
    rcases ht with ht | ⟨-, ht | ⟨-, ht | ⟨-, ht⟩⟩⟩
    · split at ht
      · obtain ⟨m, -, rfl⟩ := Option.map_eq_some_iff.mp ht
        exact Tree.number_scoped s _
      · exact nomatch ht
    · exact slot?_scoped ht
    · split at ht
      · obtain rfl := Option.some.inj ht
        trivial
      · exact nomatch ht
    · obtain ⟨n, -, rfl⟩ := Option.map_eq_some_iff.mp ht
      exact Tree.number_scoped s n
  · split <;> exact h.other _ rfl

theorem callee_scoped (h : Parse.Admits env E) (count position : Nat) :
    Ends E (s.callee env name count position) fun
      | .value t => t.Scoped s
      | .function _ => True
      | .builtin op => op.arity.accepts count := by
  unfold callee
  split
  · exact slot?_scoped ‹_›
  · split
    · trivial
    · exact h.other _ rfl
  · split
    · assumption
    · exact h.other _ rfl
  · exact h.other _ rfl

end Scope

/-- Operators stand in a scope where their operands do. -/
theorem Tree.Scoped.structural (s : Scope) : Tree.Structural (Tree.Scoped s) where
  number := number_scoped s
  builtin hop hargs := ⟨hop, allScoped_iff.mpr hargs⟩
  operands h := allScoped_iff.mp h.2
  cells h := allScoped_iff.mp h.2
  vector h hlength hcells := ⟨hlength.trans h.1, allScoped_iff.mpr hcells⟩

end Reckoner
