import Mathlib.Data.List.Chain
import Mathlib.Tactic.MkIffOfInductiveProp
import Mathlib.Tactic.Tauto
import Reckoner.Proofs.Folding

/-! The grammar of flat expressions. It splits a list at one operator, while the folding goes over the list once for
each level; the two meet in the passes that have been made when a level is reached. -/
namespace Reckoner.Flat

/-! ### The grammar -/

def precedence : Builtin → Nat
  | .pow => 3
  | .rem | .mul | .div => 2
  | .add | .sub => 1
  | _ => 0

def Item.operand? : Item → Option Tree
  | .operand t => some t
  | .operator .. => none

/-- A way to read a flat expression. -/
inductive Grouping
  | operand (t : Tree)
  | node (op : Builtin) (left right : Grouping)

namespace Grouping

def tree : Grouping → Tree
  | operand t => t
  | node op left right => .builtin op [left.tree, right.tree]

def operands : Grouping → List Tree
  | operand t => [t]
  | node _ left right => left.operands ++ right.operands

def times (first : Grouping) (others : List Tree) : Grouping :=
  others.foldl (fun product t => .node .mul product (.operand t)) first

end Grouping

def Binds (n : Nat) (items : List Item) : Prop :=
  ∀ op position, .operator op position ∈ items → n ≤ precedence op

/-- The grammar: a run of operands is their product, and a list with operators is split at the last one of those that
bind least. -/
inductive Grouped : List Item → Grouping → Prop
  | run (t : Tree) (ts : List Tree) : Grouped ((t :: ts).map .operand) (.times (.operand t) ts)
  | split {op : Builtin} {position : Nat} {before behind : List Item} {left right : Grouping} (hop : op.isInfix)
      (hbefore : Binds (precedence op) before) (hbehind : Binds (precedence op + 1) behind)
      (hleft : Grouped before left) (hright : Grouped behind right) :
      Grouped (before ++ .operator op position :: behind) (.node op left right)

/-- A list that the grammar covers: it starts and ends with an operand, has no two operators side by side, and all of
them are written between operands. -/
@[mk_iff proper_iff_and] structure Proper (items : List Item) : Prop where
  first : ∃ t, items.head? = some (.operand t)
  last : ∃ t, items.getLast? = some (.operand t)
  apart : items.IsChain fun a b => a.operand?.isSome ∨ b.operand?.isSome
  known : ∀ op position, .operator op position ∈ items → op.isInfix

variable {op : Builtin} {position n m : Nat} {t u : Tree} {g g' left right : Grouping} {held : Option Tree}
  {items items' before behind before' behind' : List Item} {ts : List Tree} {level : Builtin → Bool}

theorem Binds.weaken (h : Binds m items) (hle : n ≤ m) : Binds n items := fun op position hitem =>
  hle.trans (h op position hitem)

private theorem Grouping.operands_times (g : Grouping) (ts : List Tree) : (g.times ts).operands = g.operands ++ ts := by
  induction ts generalizing g with
  | nil => exact (List.append_nil _).symm
  | cons t ts ih => exact (ih _).trans (List.append_assoc ..)

private theorem Grouped.operands (h : Grouped items g) : g.operands = items.filterMap Item.operand? := by
  induction h with
  | run t ts =>
    rw [Grouping.operands_times, List.filterMap_map]
    exact List.filterMap_some.symm
  | split _ _ _ _ _ ihleft ihright =>
    rw [List.filterMap_append, List.filterMap_cons_none rfl, ← ihleft, ← ihright, Grouping.operands]

theorem Grouped.ne_nil (h : Grouped items g) : items ≠ [] := by
  cases h with
  | run t ts => exact List.cons_ne_nil _ _
  | split => exact List.append_ne_nil_of_right_ne_nil _ (List.cons_ne_nil _ _)

private theorem operator_not_mem_run : Item.operator op position ∉ ts.map Item.operand := by
  simp only [List.mem_map, reduceCtorEq, and_false, exists_false, not_false_eq_true]

/-- Two places to split at are one: the operator of the one binds at least as strongly as that of the other. -/
private theorem split_unique {op' : Builtin} {position' : Nat} (hbefore : Binds (precedence op) before)
    (hbehind : Binds (precedence op + 1) behind) (hbefore' : Binds (precedence op') before')
    (hbehind' : Binds (precedence op' + 1) behind')
    (h : before ++ .operator op position :: behind = before' ++ .operator op' position' :: behind') :
    before = before' ∧ op = op' ∧ behind = behind' := by
  rcases List.append_eq_append_iff.mp h with ⟨_ | ⟨item, middle⟩, hfront, hback⟩ | ⟨_ | ⟨item, middle⟩, hfront, hback⟩
  · obtain ⟨hitem, hback⟩ := List.cons.inj hback
    exact ⟨by rw [hfront, List.append_nil], (Item.operator.inj hitem).1, hback⟩
  · obtain ⟨rfl, rfl⟩ := List.cons.inj hback
    have hle : precedence op' ≤ precedence op := hbefore' op position (by rw [hfront]; simp)
    have hlt : precedence op + 1 ≤ precedence op' := hbehind op' position' (by simp)
    omega
  · obtain ⟨hitem, hback⟩ := List.cons.inj hback
    exact ⟨by rw [hfront, List.append_nil], (Item.operator.inj hitem).1.symm, hback.symm⟩
  · obtain ⟨rfl, rfl⟩ := List.cons.inj hback
    have hle : precedence op ≤ precedence op' := hbefore op' position' (by rw [hfront]; simp)
    have hlt : precedence op' + 1 ≤ precedence op := hbehind' op position (by simp)
    omega

private theorem Grouped.unique (h : Grouped items g) (h' : Grouped items g') : g' = g := by
  induction h generalizing g' with
  | run t ts =>
    generalize hitems : (t :: ts).map Item.operand = items at h'
    cases h' with
    | run u us =>
      obtain ⟨rfl, rfl⟩ := List.cons.inj (List.map_injective_iff.mpr (fun _ _ => Item.operand.inj) hitems)
      rfl
    | split => exact (operator_not_mem_run (hitems ▸ List.mem_append_right _ List.mem_cons_self)).elim
  | @split op position before behind left right hop hbefore hbehind hleft hright ihleft ihright =>
    generalize hitems : before ++ Item.operator op position :: behind = items at h'
    cases h' with
    | run u us => exact (operator_not_mem_run (hitems ▸ List.mem_append_right _ List.mem_cons_self)).elim
    | split hop' hbefore' hbehind' hleft' hright' =>
      obtain ⟨rfl, rfl, rfl⟩ := split_unique hbefore hbehind hbefore' hbehind' hitems
      rw [ihleft hleft', ihright hright']

/-! ### Lists that the grammar covers -/

/-- What may follow, where `open` says that an operand has to come. -/
def Continues : Bool → List Item → Prop
  | isOpen, [] => isOpen = false
  | _, .operand _ :: rest => Continues false rest
  | isOpen, .operator op _ :: rest => isOpen = false ∧ op.isInfix ∧ Continues true rest

private theorem continues_append {isOpen : Bool} :
    Continues isOpen (before ++ .operator op position :: behind) ↔
      Continues isOpen before ∧ op.isInfix ∧ Continues true behind := by
  induction before generalizing isOpen with
  | nil => rfl
  | cons item before ih =>
    cases item with
    | operand t => exact ih
    | operator op' position' =>
      simp only [List.cons_append, Continues, ih]
      tauto

/-- A list has no operators, or a last one of those that bind least. -/
private theorem exists_split (items : List Item) :
    (∃ ts : List Tree, items = ts.map Item.operand) ∨
      ∃ before op position behind, items = before ++ .operator op position :: behind ∧
        Binds (precedence op) before ∧ Binds (precedence op + 1) behind := by
  induction items with
  | nil => exact .inl ⟨[], rfl⟩
  | cons item items ih =>
    rcases ih with ⟨ts, rfl⟩ | ⟨before, op, position, behind, rfl, hbefore, hbehind⟩
    · cases item with
      | operand t => exact .inl ⟨t :: ts, rfl⟩
      | operator op position =>
        exact .inr ⟨[], op, position, ts.map .operand, rfl, nofun, fun _ _ h => (operator_not_mem_run h).elim⟩
    · by_cases hitem : ∀ op' position', item = .operator op' position' → precedence op ≤ precedence op'
      · refine .inr ⟨item :: before, op, position, behind, rfl, fun op' position' h => ?_, hbehind⟩
        rcases List.mem_cons.mp h with h | h
        · exact hitem op' position' h.symm
        · exact hbefore op' position' h
      · push Not at hitem
        obtain ⟨op', position', rfl, hlt⟩ := hitem
        refine .inr ⟨[], op', position', _, rfl, nofun, fun other place h => ?_⟩
        rcases List.mem_append.mp h with h | h
        · have hle := hbefore other place h
          omega
        · rcases List.mem_cons.mp h with h | h
          · obtain ⟨rfl, rfl⟩ := Item.operator.inj h
            omega
          · have hle := hbehind other place h
            omega

private theorem exists_grouped (h : Continues true items) : ∃ g, Grouped items g := by
  induction hlength : items.length using Nat.strong_induction_on generalizing items with
  | _ length ih =>
    subst hlength
    rcases exists_split items with ⟨_ | ⟨t, ts⟩, rfl⟩ | ⟨before, op, position, behind, rfl, hbefore, hbehind⟩
    · cases h
    · exact ⟨_, .run t ts⟩
    · obtain ⟨hfront, hop, hback⟩ := continues_append.mp h
      obtain ⟨left, hleft⟩ := ih before.length (by simp) hfront rfl
      obtain ⟨right, hright⟩ := ih behind.length (by simp; omega) hback rfl
      exact ⟨_, .split hop hbefore hbehind hleft hright⟩

private theorem proper_cons_operand : Proper (.operand t :: .operand u :: items) ↔ Proper (.operand u :: items) := by
  simp [proper_iff_and, Item.operand?]

private theorem proper_cons_operator :
    Proper (.operand t :: .operator op position :: .operand u :: items) ↔
      op.isInfix ∧ Proper (.operand u :: items) := by
  simp only [proper_iff_and, List.head?_cons, Option.some.injEq, Item.operand.injEq, exists_eq',
    List.getLast?_cons_cons, Item.operand?, List.isChain_cons_cons, Option.isSome_some, Option.isSome_none,
    Bool.false_eq_true, or_false, or_true, true_and, List.mem_cons, reduceCtorEq, Item.operator.injEq, false_or, or_imp,
    and_imp, forall_and, forall_eq_apply_imp_iff, forall_eq]
  tauto

private theorem proper_cons (t : Tree) : (items : List Item) → (Proper (.operand t :: items) ↔ Continues false items)
  | [] => by simp [proper_iff_and, Continues]
  | .operand u :: items => proper_cons_operand.trans (proper_cons u items)
  | [.operator op position] => by simp [proper_iff_and, Continues]
  | .operator op position :: .operand u :: items => by
    rw [proper_cons_operator, proper_cons u items, Continues, Continues, eq_self, true_and]
  | .operator op position :: .operator op' position' :: items => by
    simp [proper_iff_and, Continues, Item.operand?]

private theorem proper_iff : (items : List Item) → (Proper items ↔ Continues true items)
  | [] => by simp [proper_iff_and, Continues]
  | .operand t :: items => proper_cons t items
  | .operator op position :: items => by simp [proper_iff_and, Continues]

/-! ### What the passes leave -/

private theorem joinOperands_append :
    joinOperands held (before ++ .operator op position :: behind) =
      joinOperands held before ++ .operator op position :: joinOperands none behind := by
  induction before generalizing held with
  | nil => cases held <;> rfl
  | cons item before ih =>
    cases item with
    | operand t => cases held <;> exact ih
    | operator op' position' => cases held <;> simp [joinOperands, release, ih]

private theorem joinOperands_run (g : Grouping) (ts : List Tree) :
    joinOperands (some g.tree) (ts.map .operand) = [.operand (g.times ts).tree] := by
  induction ts generalizing g with
  | nil => rfl
  | cons t ts ih => exact ih (.node .mul g (.operand t))

private theorem joinOperands_continues {isOpen : Bool} :
    Continues isOpen (joinOperands held items) ↔ Continues (isOpen && held.isNone) items := by
  induction items generalizing held isOpen with
  | nil => cases held <;> simp [joinOperands, release, Continues]
  | cons item items ih =>
    cases item with
    | operand t => cases held <;> simp [joinOperands, Continues, ih]
    | operator op position => cases held <;> simp [joinOperands, release, Continues, ih]

private theorem ok_of_map {α β ε : Type} {x : Except ε α} {f : α → β} {b : β} (h : f <$> x = .ok b) :
    ∃ a, x = .ok a ∧ f a = b := by
  cases x with
  | error => cases h
  | ok a => exact ⟨a, rfl, Except.ok.inj h⟩

private theorem ok_of_bind {α β ε : Type} {x : Except ε α} {f : α → Except ε β} {b : β} (h : x >>= f = .ok b) :
    ∃ a, x = .ok a ∧ f a = .ok b := by
  cases x with
  | error => cases h
  | ok a => exact ⟨a, rfl, h⟩

private theorem foldLevel_operand :
    foldLevel level held (.operand t :: items) = (release held ·) <$> foldLevel level (some t) items := by
  cases held <;> rw [foldLevel]

private theorem foldLevel_apply {left right : Tree} (hop : level op) :
    foldLevel level (some left) (.operator op position :: .operand right :: items) =
      foldLevel level (some (.builtin op [left, right])) items := by
  rw [foldLevel, if_pos hop]

private theorem foldLevel_pass (hop : ¬level op) :
    foldLevel level held (.operator op position :: items) =
      (release held <| .operator op position :: ·) <$> foldLevel level none items := by
  rw [foldLevel.eq_def]
  simp only
  rw [if_neg hop]
  rfl

/-- A pass leaves a list that is covered of such a list only. -/
private theorem foldLevel_continues {isOpen : Bool} (hlevel : ∀ op, level op → op.isInfix)
    (h : foldLevel level held items = .ok items') (hcontinues : Continues isOpen items') :
    Continues (isOpen && held.isNone) items := by
  fun_induction foldLevel level held items generalizing isOpen items' with
  | case1 held =>
    obtain rfl := Except.ok.inj h
    cases held with
    | none => rwa [Option.isNone_none, Bool.and_true]
    | some t => simp [Continues]
  | case2 held t rest ih =>
    obtain ⟨rest', hrest, rfl⟩ := ok_of_map h
    cases held with
    | none => simpa [Continues] using ih hrest hcontinues
    | some u => simpa [Continues] using ih hrest hcontinues
  | case3 op position hop left right rest ih =>
    have hrest := ih h hcontinues
    rw [Option.isNone_some, Bool.and_false] at hrest ⊢
    exact ⟨rfl, hlevel op hop, hrest⟩
  | case4 => cases h
  | case5 held op position rest hop ih =>
    obtain ⟨rest', hrest, rfl⟩ := ok_of_map h
    cases held with
    | none => simpa [Continues] using ⟨hcontinues.1, hcontinues.2.1, ih hrest hcontinues.2.2⟩
    | some t => simpa [Continues] using ⟨hcontinues.2.1, ih hrest hcontinues.2.2⟩

private theorem release_append (held : Option Tree) (items items' : List Item) :
    release held (items ++ items') = release held items ++ items' := by
  cases held <;> rfl

/-- A pass over the front of a list has put out items and holds an operand, or has just put out an operator. -/
private theorem foldLevel_front (h : foldLevel level held before = .ok before') :
    ∃ out held', before' = out ++ release held' [] ∧
      (held' = none → out = [] ∧ held = none ∨ ∃ out' op position, out = out' ++ [.operator op position]) ∧
      ∀ behind, foldLevel level held (before ++ behind) = (out ++ ·) <$> foldLevel level held' behind := by
  fun_induction foldLevel level held before generalizing before' with
  | case1 held =>
    obtain rfl := Except.ok.inj h
    exact ⟨[], held, rfl, fun hheld => .inl ⟨rfl, hheld⟩, fun behind => (id_map _).symm⟩
  | case2 held t rest ih =>
    obtain ⟨rest', hrest, rfl⟩ := ok_of_map h
    obtain ⟨out, held', rfl, hlast, hbehind⟩ := ih hrest
    refine ⟨release held out, held', release_append .., fun hnone => ?_, fun behind => ?_⟩
    · rcases hlast hnone with ⟨-, hheld⟩ | ⟨out', op, position, rfl⟩
      · cases hheld
      · exact .inr ⟨release held out', op, position, release_append ..⟩
    · rw [List.cons_append, foldLevel_operand, hbehind, Functor.map_map]
      simp only [release_append]
  | case3 op position hop left right rest ih =>
    obtain ⟨out, held', rfl, hlast, hbehind⟩ := ih h
    refine ⟨out, held', rfl, fun hnone => ?_, fun behind => ?_⟩
    · rcases hlast hnone with ⟨-, hheld⟩ | hout
      · cases hheld
      · exact .inr hout
    · rw [List.cons_append, List.cons_append, foldLevel_apply hop, hbehind]
  | case4 => cases h
  | case5 held op position rest hop ih =>
    obtain ⟨rest', hrest, rfl⟩ := ok_of_map h
    obtain ⟨out, held', rfl, hlast, hbehind⟩ := ih hrest
    refine ⟨release held (.operator op position :: out), held', release_append held (_ :: out) _,
      fun hnone => .inr ?_, fun behind => ?_⟩
    · rcases hlast hnone with ⟨rfl, -⟩ | ⟨out', op', position', rfl⟩
      · exact ⟨release held [], op, position, release_append held [] _⟩
      · exact ⟨release held (.operator op position :: out'), op', position', release_append held (_ :: out') _⟩
    · rw [List.cons_append, foldLevel_pass hop, hbehind, Functor.map_map]
      simp only [← release_append, List.cons_append]

/-- A pass goes through both sides of an operator of another level. -/
private theorem foldLevel_append (hop : ¬level op) (hbefore : foldLevel level held before = .ok before')
    (hbehind : foldLevel level none behind = .ok behind') :
    foldLevel level held (before ++ .operator op position :: behind) =
      .ok (before' ++ .operator op position :: behind') := by
  obtain ⟨out, held', rfl, -, hfront⟩ := foldLevel_front hbefore
  rw [hfront, foldLevel_pass hop, hbehind, List.append_assoc, ← release_append]
  rfl

/-- An operator of the level is applied to the tree of all that is before it. -/
private theorem foldLevel_last {left right : Tree} (hop : level op)
    (hbefore : foldLevel level held before = .ok [.operand left]) :
    foldLevel level held (before ++ [.operator op position, .operand right]) =
      .ok [.operand (.builtin op [left, right])] := by
  obtain ⟨out, _ | u, hout, hlast, hfront⟩ := foldLevel_front hbefore
  · rw [release, List.append_nil] at hout
    rcases hlast rfl with ⟨rfl, -⟩ | ⟨out', op', position', rfl⟩
    · cases hout
    · obtain ⟨-, hitem⟩ | ⟨-, hitem⟩ := List.append_eq_singleton_iff.mp hout.symm
      · cases hitem
      · cases hitem
  · obtain ⟨rfl, hu⟩ | ⟨-, hu⟩ := List.append_eq_singleton_iff.mp hout.symm
    · obtain rfl := Item.operand.inj (List.cons.inj hu).1
      rw [hfront, foldLevel_apply hop]
      rfl
    · cases hu

/-! ### The passes -/

def ofPrecedence (n : Nat) (op : Builtin) : Bool := op.isInfix && precedence op == n

private theorem levels_eq : levels = [3, 2, 1, 0].map ofPrecedence := by
  simp only [levels, List.map_cons, List.map_nil, List.cons.injEq, and_true]
  refine ⟨?_, ?_, ?_, ?_⟩ <;> funext op <;> cases op <;> rfl

def passes (n : Nat) (items : List Item) : Except ParseError (List Item) :=
  (List.range' n (4 - n)).reverse.foldlM (fun items m => foldLevel (ofPrecedence m) none items) items

private theorem fold_eq (leading : Option Nat) (items : List Item) :
    fold leading items = passes 0 (joinOperands none items) >>= fun
      | [.operand t] => .ok (if leading.isSome then negate t else t)
      | _ => .error (.missingOperand (leading.getD 0)) := by
  rw [fold, levels_eq, List.foldlM_map]
  rfl

private theorem passes_of_le (hn : 4 ≤ n) (items : List Item) : passes n items = .ok items := by
  rw [passes, show 4 - n = 0 by omega]
  rfl

private theorem passes_of_lt (hn : n < 4) (items : List Item) :
    passes n items = passes (n + 1) items >>= foldLevel (ofPrecedence n) none := by
  rw [passes, show 4 - n = 4 - (n + 1) + 1 by omega, List.range'_succ, List.reverse_cons, List.foldlM_append]
  simp only [List.foldlM_cons, List.foldlM_nil, bind_pure]
  rfl

private theorem passes_weaken (hle : n ≤ m) (h : passes m items = .ok [.operand t]) :
    passes n items = .ok [.operand t] := by
  induction hle with
  | refl => exact h
  | @step m hle ih =>
    refine ih ?_
    by_cases hm : m < 4
    · rw [passes_of_lt hm, h]
      rfl
    · rwa [passes_of_le (by omega)] at h ⊢

/-- The passes of the levels that bind more strongly than an operator go through both sides of it. -/
private theorem passes_append (hop : precedence op < n) (hbefore : passes n before = .ok before')
    (hbehind : passes n behind = .ok behind') :
    passes n (before ++ .operator op position :: behind) = .ok (before' ++ .operator op position :: behind') := by
  induction hcount : 4 - n generalizing n before' behind' with
  | zero =>
    rw [passes_of_le (by omega)] at hbefore hbehind ⊢
    rw [Except.ok.inj hbefore, Except.ok.inj hbehind]
  | succ count ih =>
    rw [passes_of_lt (by omega)] at hbefore hbehind ⊢
    obtain ⟨middle, hmiddle, hbefore⟩ := ok_of_bind hbefore
    obtain ⟨middle', hmiddle', hbehind⟩ := ok_of_bind hbehind
    have hlevel : ¬ofPrecedence n op := by
      rw [ofPrecedence, Bool.and_eq_true, beq_iff_eq, not_and]
      omega
    rw [ih (by omega) hmiddle hmiddle' (by omega)]
    exact foldLevel_append hlevel hbefore hbehind

private theorem passes_continues (h : passes n items = .ok items') (hcontinues : Continues true items') :
    Continues true items := by
  induction hcount : 4 - n generalizing n items' with
  | zero =>
    rw [passes_of_le (by omega)] at h
    rwa [Except.ok.inj h]
  | succ count ih =>
    rw [passes_of_lt (by omega)] at h
    obtain ⟨middle, hmiddle, h⟩ := ok_of_bind h
    exact ih hmiddle (foldLevel_continues (fun op hop => (Bool.and_eq_true_iff.mp hop).1) h hcontinues) (by omega)

private theorem precedence_lt (op : Builtin) : precedence op < 4 := by cases op <;> decide

/-- What the grammar splits is folded once the passes reach the level of the split. -/
private theorem Grouped.passes (h : Grouped items g) (hn : Binds n items) :
    passes n (joinOperands none items) = .ok [.operand g.tree] := by
  induction h generalizing n with
  | run t ts =>
    have hrun : joinOperands none ((t :: ts).map .operand) = [.operand (Grouping.times (.operand t) ts).tree] :=
      joinOperands_run (.operand t) ts
    rw [hrun]
    exact passes_weaken (Nat.le_add_right n 4) (passes_of_le (by omega) _)
  | @split op position before behind left right hop hbefore hbehind _ _ ihleft ihright =>
    have hle : n ≤ precedence op := hn op position (List.mem_append_right _ List.mem_cons_self)
    have hleft := ihleft hbefore
    rw [passes_of_lt (precedence_lt op)] at hleft
    obtain ⟨before', hbefore', hleft⟩ := ok_of_bind hleft
    refine passes_weaken hle ?_
    rw [joinOperands_append, passes_of_lt (precedence_lt op),
      passes_append (Nat.lt_succ_self _) hbefore' (ihright hbehind)]
    exact foldLevel_last (by rw [ofPrecedence, hop, beq_self_eq_true, Bool.and_self]) hleft

theorem Grouped.fold (h : Grouped items g) (leading : Option Nat) :
    fold leading items = .ok (if leading.isSome then negate g.tree else g.tree) := by
  rw [fold_eq, h.passes fun _ _ _ => Nat.zero_le _]
  rfl

private theorem fold_error (leading : Option Nat) (items : List Item) {e : ParseError}
    (h : fold leading items = .error e) :
    ∃ place, e = .missingOperand place := by
  have hall : ∀ item ∈ items, item.Has (fun _ => True) (fun _ => True) := fun item _ => by cases item <;> trivial
  have hends : Ends (fun e => ∃ place, e = .missingOperand place) (fold leading items) fun _ => True :=
    fold_has ⟨fun _ => trivial, fun _ => trivial, fun _ _ _ => trivial⟩ (fun place _ => ⟨place, rfl⟩) trivial hall
  rw [h] at hends
  exact hends

private theorem fold_ok (leading : Option Nat) (items : List Item) (h : fold leading items = .ok t) :
    ∃ u, passes 0 (joinOperands none items) = .ok [.operand u] := by
  rw [fold_eq] at h
  obtain ⟨items', hpasses, h⟩ := ok_of_bind h
  split at h
  · exact ⟨_, hpasses⟩
  · cases h

/-- The folding implements the grammar. A list that the grammar covers is grouped in one way, with all operands in their
order, and its tree is the one that comes out, with the sign of a leading minus; for every other list an operand is
missing. -/
theorem fold_grammar (leading : Option Nat) (items : List Item) :
    (Proper (joinOperands none items) →
      ∃ g, Grouped items g ∧ (∀ g', Grouped items g' → g' = g) ∧ g.operands = items.filterMap Item.operand? ∧
        fold leading items = .ok (if leading.isSome then negate g.tree else g.tree)) ∧
    (¬Proper (joinOperands none items) → ∃ place, fold leading items = .error (.missingOperand place)) := by
  constructor
  · intro hproper
    have hcontinues : Continues true items := joinOperands_continues.mp ((proper_iff _).mp hproper)
    obtain ⟨g, hg⟩ := exists_grouped hcontinues
    exact ⟨g, hg, fun g' => hg.unique, hg.operands, hg.fold leading⟩
  · intro hproper
    cases hfold : fold leading items with
    | error e =>
      obtain ⟨place, rfl⟩ := fold_error leading items hfold
      exact ⟨place, rfl⟩
    | ok t =>
      obtain ⟨u, hu⟩ := fold_ok leading items hfold
      exact (hproper ((proper_iff _).mpr (passes_continues hu rfl))).elim

/-- A run of operands binds more strongly than a power, and differences are taken from left to right. -/
example (a b c d e : Tree) :
    fold none [.operand a, .operator .sub 1, .operand b, .operand c, .operator .pow 4, .operand d, .operator .sub 6,
      .operand e] = .ok (.builtin .sub [.builtin .sub [a, .builtin .pow [.builtin .mul [b, c], d]], e]) := rfl

end Reckoner.Flat
