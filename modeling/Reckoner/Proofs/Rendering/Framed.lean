import Reckoner.Proofs.FirstWord
import Reckoner.Proofs.Scoping.Basic
import Reckoner.Render

/-! Rendered expressions start and end with characters that are not blank, and none starts like a separator, a
block or the rest of an operator. -/
namespace Reckoner

namespace Text

/-- A character that a rendered expression may start with. -/
structure Firm (c : Char) : Prop where
  blank : isBlank c = false
  semicolon : c ≠ ';'
  equals : c ≠ '='
  greater : c ≠ '>'
  brace : c ≠ '\x7b'

def Starts (t : Text) : Prop := ∃ c rest, t = c :: rest ∧ Firm c

structure Framed (t : Text) : Prop where
  first : t.Starts
  last : ∃ front c, t = front ++ [c] ∧ isBlank c = false

private theorem firm_of_isNameChar {c : Char} (h : Lexeme.isNameChar c) : Firm c := by
  refine ⟨isBlank_of_isNameChar h, ?_, ?_, ?_, ?_⟩ <;>
  · rintro rfl
    exact absurd h (by decide)

theorem firm_of_isDigit {c : Char} (h : c.isDigit) : Firm c :=
  firm_of_isNameChar (by simp [Lexeme.isNameChar, Char.isAlphanum, h])

namespace Framed
variable {s t : Text}

theorem of_forall (ht : t ≠ []) (h : ∀ c ∈ t, Firm c) : t.Framed := by
  refine ⟨?_, t.dropLast, t.getLast ht, (List.dropLast_append_getLast ht).symm, ?_⟩
  · cases t with
    | nil => exact absurd rfl ht
    | cons c rest => exact ⟨c, rest, rfl, h c List.mem_cons_self⟩
  · exact (h _ (List.getLast_mem ht)).blank

/-- Between two characters anything may stand. -/
theorem enclosed {c d : Char} (hc : Firm c) (hd : isBlank d = false) (t : Text) : Framed (c :: t ++ [d]) :=
  ⟨⟨c, t ++ [d], rfl, hc⟩, c :: t, d, rfl, hd⟩

theorem append (hs : s.Framed) (ht : t.Framed) (u : Text) : Framed (s ++ u ++ t) := by
  obtain ⟨c, rest, rfl, hc⟩ := hs.first
  obtain ⟨front, d, rfl, hd⟩ := ht.last
  refine ⟨⟨c, rest ++ u ++ (front ++ [d]), by simp, hc⟩, c :: rest ++ u ++ front, d, by simp, hd⟩

private theorem cons {c : Char} (hc : Firm c) (ht : t.Framed) : Framed (c :: t) := by
  obtain ⟨front, d, rfl, hd⟩ := ht.last
  exact ⟨⟨c, front ++ [d], rfl, hc⟩, c :: front, d, rfl, hd⟩

end Framed

theorem Starts.ne_nil {t : Text} (h : t.Starts) : t ≠ [] := by
  obtain ⟨c, rest, rfl, -⟩ := h
  exact List.cons_ne_nil c rest

theorem Starts.head {t : Text} (h : t.Starts) (r : Text) : ∀ c ∈ (t ++ r).head?, Firm c := by
  obtain ⟨c, rest, rfl, hc⟩ := h
  intro d hd
  exact Option.some.inj hd ▸ hc

theorem Starts.append {t : Text} (h : t.Starts) (r : Text) : Starts (t ++ r) := by
  obtain ⟨c, rest, rfl, hc⟩ := h
  exact ⟨c, rest ++ r, rfl, hc⟩

theorem IsName.framed {name : Text} (h : name.IsName) : name.Framed := by
  refine .of_forall ?_ fun c hc => firm_of_isNameChar (h.isNameChar c hc)
  rintro rfl
  exact h

theorem framed_parenthesized (t : Text) : (Render.parenthesized t).Framed :=
  .enclosed ⟨by decide, by decide, by decide, by decide, by decide⟩ (by decide) t

private theorem ofNat_isDigit {n : Nat} {c : Char} (h : c ∈ ofNat n) : c.isDigit :=
  Nat.isDigit_of_mem_toDigits (by decide) (by decide) h

theorem firm_dot : Firm '.' := ⟨by decide, by decide, by decide, by decide, by decide⟩

private theorem firm_minus : Firm '-' := ⟨by decide, by decide, by decide, by decide, by decide⟩

end Text

open Text (Firm Framed)

namespace Binary64

private theorem Decimal.positional_firm (x : Decimal) : x.positional ≠ [] ∧ ∀ c ∈ x.positional, Firm c := by
  have hdigits : ∀ c ∈ Text.ofNat x.digits, Firm c := fun c hc => Text.firm_of_isDigit (Text.ofNat_isDigit hc)
  have hzero : Firm '0' := Text.firm_of_isDigit rfl
  unfold positional
  simp only
  split
  · refine ⟨List.append_ne_nil_of_left_ne_nil Nat.toDigits_ne_nil _, fun c hc => ?_⟩
    rcases List.mem_append.mp hc with hc | hc
    · exact hdigits c hc
    · exact (List.eq_of_mem_replicate hc) ▸ hzero
  · split
    · refine ⟨List.append_ne_nil_of_right_ne_nil _ (List.cons_ne_nil _ _), fun c hc => ?_⟩
      rcases List.mem_append.mp hc with hc | hc
      · exact hdigits c (List.mem_of_mem_take hc)
      · rcases List.mem_cons.mp hc with rfl | hc
        · exact Text.firm_dot
        · exact hdigits c (List.mem_of_mem_drop hc)
    · refine ⟨List.cons_ne_nil _ _, fun c hc => ?_⟩
      rw [List.cons_append, List.cons_append] at hc
      rcases List.mem_cons.mp hc with rfl | hc
      · exact hzero
      · rcases List.mem_cons.mp hc with rfl | hc
        · exact Text.firm_dot
        · rcases List.mem_append.mp hc with hc | hc
          · exact (List.eq_of_mem_replicate hc) ▸ hzero
          · exact hdigits c hc

private theorem text_framed (x : Float) : (text x).Framed := by
  have hsigned {t : Text} (negative : Bool) (h : t.Framed) : (signed negative t).Framed := by
    cases negative with
    | false => exact h
    | true => exact .cons Text.firm_minus h
  have hname {t : Text} (h : t.IsName) : t.Framed := h.framed
  unfold text
  split
  · exact hname (by decide)
  · exact hsigned _ (hname (by decide))
  · refine hsigned _ ?_
    split
    · exact .of_forall (by decide) fun c hc => List.mem_singleton.mp hc ▸ Text.firm_of_isDigit rfl
    · exact .of_forall (Decimal.positional_firm _).1 (Decimal.positional_firm _).2

end Binary64

namespace Render
variable {env : Environment} {names : Names}

private theorem real_framed (x : Float) : (real x).Framed := by
  have hname {t : Text} (h : t.IsName) : t.Framed := h.framed
  unfold real
  simp only
  split
  · exact hname (by decide)
  · split
    · exact Text.framed_parenthesized _
    · split
      · exact hname (by decide)
      · exact Binary64.text_framed _

private theorem number_framed (n : Number) : (number n).Framed := by
  unfold number
  simp only
  split
  · split
    · exact real_framed _
    · exact Text.framed_parenthesized _
  · exact Text.framed_parenthesized _

private theorem value_framed (digits : Nat) (v : Value) : (value digits v).Framed := by
  have hless : Firm '<' := ⟨by decide, by decide, by decide, by decide, by decide⟩
  have hquote : Firm '"' := ⟨by decide, by decide, by decide, by decide, by decide⟩
  cases v with
  | number n => exact number_framed n
  | vector m => exact .enclosed hless (by decide) _
  | function f captured =>
    have hsplit : (Value.function f captured).text =
        '<' :: ("function of ".toList ++ Text.join ", ".toList f.params) ++ ['>'] := rfl
    rw [value, hsplit]
    exact .enclosed hless (by decide) _
  | bignum x =>
    have hsplit : value digits (.bignum x) = 'b' :: ("ig(\"".toList ++ x.toText 10 digits ++ ['"']) ++ [')'] := by
      simp [value]
    rw [hsplit]
    exact .enclosed (Text.firm_of_isNameChar rfl) (by decide) _
  | string t => exact .enclosed hquote (by decide) t

/-- All names that rendered text may mention are identifiers. -/
structure Legible (env : Environment) (names : Names) : Prop where
  arguments : ∀ name ∈ names.arguments, name.IsName
  locals : ∀ name ∈ names.locals, name.IsName
  functions (id : Nat) (name : Text) : env.functions.name? id = some name → name.IsName
  globals (slot : Nat) (name : Text) : env.globals.name? slot = some name → name.IsName

private theorem numbered_isName {word : Text} (hw : word.IsName) (n : Nat) : (word ++ Text.ofNat n).IsName := by
  cases word with
  | nil => exact hw.elim
  | cons c rest =>
    refine ⟨hw.1, fun d hd => ?_⟩
    rcases List.mem_append.mp hd with hd | hd
    · exact hw.2 d hd
    · simp [Lexeme.isNameChar, Char.isAlphanum, Text.ofNat_isDigit hd]

private theorem named_isName {list : List Text} (h : ∀ name ∈ list, name.IsName) (word : String)
    (hw : Text.IsName word.toList) (slot : Nat) : (named list word slot).IsName := by
  unfold named
  cases hslot : list[slot]? with
  | none => exact numbered_isName hw slot
  | some name => exact h name (List.mem_of_getElem? hslot)

theorem argument_isName (h : Legible env names) (index : Nat) : (names.argument index).IsName :=
  named_isName h.arguments "arg" (by decide) index

theorem localVariable_isName (h : Legible env names) (slot : Nat) : (names.localVariable slot).IsName :=
  named_isName h.locals "local" (by decide) slot

theorem functionName_isName (h : Legible env names) (id : Nat) : (functionName env id).IsName := by
  have hword : Text.IsName "function".toList := by decide
  unfold functionName
  cases hid : env.functions.name? id with
  | none => exact numbered_isName hword id
  | some name => exact h.functions id name hid

theorem globalName_isName (h : Legible env names) (slot : Nat) : (globalName env slot).IsName := by
  have hword : Text.IsName "global".toList := by decide
  unfold globalName
  cases hslot : env.globals.name? slot with
  | none => exact numbered_isName hword slot
  | some name => exact h.globals slot name hslot

theorem builtinName_isName {op : Builtin} (h : op.isInfix = false) : op.name.IsName := by
  cases op <;> first | exact absurd h (by decide) | decide

theorem isInfix_eq_false {op : Builtin} {n : Nat} (h : op.arity.accepts n) (hn : n ≠ 2) : op.isInfix = false := by
  cases op <;> first | rfl | exact absurd (eq_of_beq h) hn

theorem application_framed {name : Text} (h : name.IsName) (args : List Text) : (application name args).Framed := by
  have happend := h.framed.append (Text.framed_parenthesized (Text.join [','] args)) []
  rwa [List.append_nil] at happend

private theorem operand_framed {t : Tree} {written : Text} (h : written.Framed) : (operand t written).Framed := by
  unfold operand
  split
  · exact Text.framed_parenthesized written
  · exact h

theorem tree_framed (h : Legible env names) {s : Scope} : (t : Tree) → t.Scoped s → (tree env names t).Framed
  | .literal v, _ => value_framed _ v
  | .argument index, _ => (argument_isName h index).framed
  | .localVariable slot, _ => (localVariable_isName h slot).framed
  | .globalVariable slot, _ => (globalName_isName h slot).framed
  | .call id args, _ => application_framed (functionName_isName h id) _
  | .vector .., _ => .enclosed ⟨by decide, by decide, by decide, by decide, by decide⟩ (by decide) _
  | .function ⟨_, _, _⟩ _, _ => Text.framed_parenthesized _
  | .builtin op [], ht => by
    have hop : op.isInfix = false := isInfix_eq_false ht.1 (by decide)
    exact application_framed (builtinName_isName hop) _
  | .builtin op [t], ht => by
    rw [tree]
    split
    · exact .cons Text.firm_minus (operand_framed (tree_framed h t ht.2.1))
    · have hop : op.isInfix = false := isInfix_eq_false ht.1 (by simp)
      exact application_framed (builtinName_isName hop) _
  | .builtin op [t, u], ht => by
    rw [tree]
    split
    · exact (operand_framed (tree_framed h t ht.2.1)).append (operand_framed (tree_framed h u ht.2.2.1)) _
    · exact application_framed (builtinName_isName (Bool.not_eq_true _ ▸ ‹_›)) _
  | .builtin op (_ :: _ :: _ :: _), ht => by
    have hop : op.isInfix = false := isInfix_eq_false ht.1 (by simp)
    exact application_framed (builtinName_isName hop) _

end Render
end Reckoner
