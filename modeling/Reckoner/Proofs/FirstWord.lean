import Reckoner.Proofs.Accepted
import Reckoner.Proofs.Digits

/-! What the parser accepts as an expression does not start with a word of a statement, nor with an
assignment. -/
namespace Reckoner

namespace Text

theorem isBlank_of_isNameChar {c : Char} (h : Lexeme.isNameChar c) : isBlank c = false := by
  have hrange : (48 ≤ c.toNat ∧ c.toNat ≤ 57) ∨ (65 ≤ c.toNat ∧ c.toNat ≤ 90) ∨
      (97 ≤ c.toNat ∧ c.toNat ≤ 122) ∨ c.toNat = 95 := by
    simp only [Lexeme.isNameChar, Char.isAlphanum, Char.isDigit, Bool.or_eq_true, Bool.and_eq_true,
      decide_eq_true_eq, beq_iff_eq, ge_iff_le, UInt32.le_iff_toNat_le] at h
    rcases h with (h | h) | rfl
    · rcases range_of_isAlpha h with h | h
      · exact .inr (.inl h)
      · exact .inr (.inr (.inl h))
    · exact .inl h
    · exact .inr (.inr (.inr rfl))
  simp only [isBlank, blanks, List.contains_eq_mem, decide_eq_false_iff_not, List.mem_cons,
    List.not_mem_nil, or_false]
  omega

private theorem isNameChar_of_isAlpha {c : Char} (h : c.isAlpha) : Lexeme.isNameChar c := by
  simp [Lexeme.isNameChar, Char.isAlphanum, h]

theorem IsName.isNameChar {name : Text} (hn : name.IsName) : ∀ c ∈ name, Lexeme.isNameChar c := by
  cases name with
  | nil => exact nofun
  | cons c rest => exact List.forall_mem_cons.mpr ⟨isNameChar_of_isAlpha hn.1, hn.2⟩

/-- Blanks behind a name are trimmed. -/
theorem trim_name_append {name blanks : Text} (hn : name.IsName) (hb : ∀ c ∈ blanks, isBlank c) :
    trim (name ++ blanks) = name :=
  trim_padded (List.forall_mem_nil _) (fun c hc => isBlank_of_isNameChar (hn.isNameChar c hc)) hb

theorem pieces_eq_self {separator : Char} {t : Text} (h : separator ∉ t) : pieces separator t = [t] := by
  induction t with
  | nil => rfl
  | cons c t ih =>
    obtain ⟨hc, ht⟩ := by simpa using h
    rw [pieces, if_neg (Ne.symm hc), ih ht]

end Text

private theorem constant?_of_isKeyword {w : Text} (h : isKeyword w) : constant? w = none := by
  have hall : ∀ w ∈ keywords, constant? w = none := by decide
  exact hall w (by simpa [isKeyword] using h)

private theorem ofName?_of_isKeyword {w : Text} (h : isKeyword w) : Builtin.ofName? w = none := by
  have hall : ∀ w ∈ keywords, Builtin.ofName? w = none := by decide
  exact hall w (by simpa [isKeyword] using h)

structure Scope.Wordless (env : Environment) (s : Scope) : Prop where
  slot (w : Text) : isKeyword w → s.slot? env w = none
  function (w : Text) : isKeyword w → s.function? env w = none

namespace Scope
variable {env : Environment} {s : Scope} {w : Text}

private theorem Wordless.resolve (h : s.Wordless env) {ambient : Ambient} (hu : ambient.units = false)
    {position : Nat} {t : Tree} (hr : s.resolve env ambient w position = .ok t) : isKeyword w = false := by
  rw [← Bool.not_eq_true]
  intro hw
  simp [Scope.resolve, hu, h.slot w hw, h.function w hw, constant?_of_isKeyword hw] at hr

private theorem Wordless.callee (h : s.Wordless env) {count position : Nat} {c : Callee}
    (hc : s.callee env w count position = .ok c) : isKeyword w = false := by
  rw [← Bool.not_eq_true]
  intro hw
  simp [Scope.callee, h.slot w hw, h.function w hw, ofName?_of_isKeyword hw] at hc

end Scope

/-- A word of a statement is no parameter. -/
private theorem readParams_word {position : Nat} {w blanks : Text} {params : List Text} (hw : w.IsName)
    (hb : ∀ c ∈ blanks, Text.isBlank c) (h : readParams position (w ++ blanks) = .ok params) :
    isKeyword w = false := by
  have hcomma : ',' ∉ w := fun hc => absurd (hw.isNameChar ',' hc) (by decide)
  have htrim : Text.trim w = w := by simpa using @Text.trim_name_append w [] hw (by nofun)
  rw [← Bool.not_eq_true]
  intro hk
  unfold readParams at h
  rw [Text.trim_name_append hw hb] at h
  split at h
  · exact absurd hw.1 (by decide)
  · have hne : w ≠ [] := by
      rintro rfl
      exact hw
    simp [htrim, Text.pieces_eq_self hcomma, hk] at h
    rw [if_neg hne] at h
    split at h <;> exact nomatch h

/-- A text may be read as the start of an expression: its first word starts no statement, and no assignment
follows it. -/
def Text.Speaks (t : Text) : Prop :=
  ∀ l ls, Lexeme.lex 10 0 t = l :: ls → l.token = .identifier →
    isKeyword (Text.slice t l.start l.stop) = false ∧ ∀ next ∈ ls.head?, next.token ≠ .assign

namespace Parse
variable {c : Context} {piece : PieceParser} {blockPiece : BlockPieceParser}

structure Named (c : Context) (s : Section) : Prop where
  alone : s.kind = .variable → isKeyword (Text.slice c.text s.start s.stop) = false
  called (opening : Nat) : s.kind = .call opening → isKeyword (Text.slice c.text s.start opening) = false
  params (arrow : Nat) (braced : Bool) : s.kind = .function arrow braced →
    ∃ position params, readParams position (Text.slice c.text s.start arrow) = .ok params

private theorem ofExcept_always {α : Type} (r : Except ParseError α) :
    Always (fun _ => True) (ofExcept r) fun a => r = .ok a := by
  refine .lift ?_
  cases r with
  | ok a => exact rfl
  | error e => exact trivial

private theorem operand_named (hu : c.ambient.units = false) (hw : c.scope.Wordless c.env) (s : Section) :
    Always (fun _ => True) (operand c piece blockPiece s) fun _ => Named c s := by
  have hother (hv : s.kind ≠ .variable) (hc : ∀ opening, s.kind ≠ .call opening)
      (hf : ∀ arrow braced, s.kind ≠ .function arrow braced) (x : Parse Tree) :
      Always (fun _ => True) x fun _ => Named c s :=
    (always_top x).mono fun _ _ =>
      ⟨fun h => absurd h hv, fun opening h => absurd h (hc opening), fun arrow braced h => absurd h (hf arrow braced)⟩
  unfold operand
  simp only
  split
  · rename_i hk
    exact hother (by simp [hk]) (by simp [hk]) (by simp [hk]) _
  · rename_i hk
    exact (ofExcept_always _).mono fun t ht => ⟨fun _ => hw.resolve hu ht, by simp [hk], by simp [hk]⟩
  · rename_i opening hk
    refine (ofExcept_always _).bind fun callee hcallee => (always_top _).mono fun _ _ => ?_
    refine ⟨by simp [hk], fun opening' h => ?_, by simp [hk]⟩
    obtain rfl := SectionKind.call.inj (hk.symm.trans h)
    exact hw.callee hcallee
  · rename_i hk
    exact hother (by simp [hk]) (by simp [hk]) (by simp [hk]) _
  · rename_i hk
    exact hother (by simp [hk]) (by simp [hk]) (by simp [hk]) _
  · rename_i hk
    exact hother (by simp [hk]) (by simp [hk]) (by simp [hk]) _
  · rename_i hk
    exact hother (by simp [hk]) (by simp [hk]) (by simp [hk]) _
  · rename_i arrow braced hk
    unfold lambda
    refine (ofExcept_always _).bind fun params hparams => (always_top _).mono fun _ _ => ?_
    refine ⟨by simp [hk], by simp [hk], fun arrow' braced' h => ?_⟩
    obtain ⟨rfl, rfl⟩ := SectionKind.function.inj (hk.symm.trans h)
    exact ⟨_, params, hparams⟩
  · exact .throw trivial
  · exact .throw trivial

private theorem step_named (hu : c.ambient.units = false) (hw : c.scope.Wordless c.env) (progress : Progress)
    (s : Section) : Always (fun _ => True) (step c piece blockPiece progress s) fun _ => Named c s := by
  unfold step
  refine .ite (fun _ => .throw trivial) fun _ => .ite (fun hk => ?_) fun _ => ?_
  · exact (always_top _).mono fun _ _ => ⟨by simp [hk], by simp [hk], by simp [hk]⟩
  · exact (operand_named hu hw s).bind fun _ hf => .pure hf

private theorem mem_all_of_next {limit : Nat} {a : Bool} {ls rest : List Lexeme} {s : Section}
    (h : Section.next limit a ls = some (s, rest)) : s ∈ Section.all limit a ls := by
  rw [Section.all]
  split
  · rename_i hn
    exact nomatch hn.symm.trans h
  · rename_i first others hn
    obtain ⟨rfl, rfl⟩ := Prod.mk.inj (Option.some.inj (hn.symm.trans h))
    split <;> simp

private theorem mem_all_of_rest {limit : Nat} {a : Bool} {ls rest : List Lexeme} {s s' : Section}
    (h : Section.next limit a ls = some (s, rest)) (hb : s.broken = false)
    (hs : s' ∈ Section.all limit (s.kind ≠ .operators) rest) : s' ∈ Section.all limit a ls := by
  rw [Section.all]
  split
  · rename_i hn
    exact nomatch hn.symm.trans h
  · rename_i first others hn
    obtain ⟨rfl, rfl⟩ := Prod.mk.inj (Option.some.inj (hn.symm.trans h))
    rw [hb]
    exact List.mem_cons_of_mem _ hs

/-- The text from a name up to the lexeme behind it is the name and blanks. -/
private theorem slice_name {t : Text} {l next : Lexeme} {ls : List Lexeme} (h : Lexeme.lex 10 0 t = l :: next :: ls)
    (hl : l.token = .identifier) :
    ∃ blanks, Text.slice t l.start next.start = Text.slice t l.start l.stop ++ blanks ∧
      (Text.slice t l.start l.stop).IsName ∧ ∀ c ∈ blanks, Text.isBlank c := by
  obtain ⟨skipped, c, rest, count, rfl, -, hm, hstart, hstop, hnext⟩ := Lexeme.lex_eq_cons h
  obtain ⟨blanks, d, rest', -, hrest, hblanks, -, hstart', -, -⟩ := Lexeme.lex_eq_cons hnext.symm
  obtain ⟨hc, rfl⟩ := Lexeme.munch_identifier (hl ▸ hm)
  rw [Nat.zero_add] at hstart
  have hname : rest.take (rest.takeWhile Lexeme.isNameChar).length = rest.takeWhile Lexeme.isNameChar :=
    (List.prefix_iff_eq_take.mp (List.takeWhile_prefix _)).symm
  rw [hname, hstart] at hstop
  generalize hn : c :: rest.takeWhile Lexeme.isNameChar = name at hstop
  have hsplit : skipped ++ c :: rest = skipped ++ name ++ (blanks ++ d :: rest') := by
    have hrest' := List.take_append_drop (rest.takeWhile Lexeme.isNameChar).length rest
    rw [hname, hrest] at hrest'
    rw [List.append_assoc, ← hn, List.cons_append, hrest']
  refine ⟨blanks, ?_, ?_, fun e he => Text.isBlank_of_lexeme (hblanks e he)⟩
  · rw [hstart', hstop, hstart, hsplit, Text.slice_append, Nat.add_assoc, ← Text.byteLength_append,
      ← List.append_assoc, List.append_assoc skipped, Text.slice_append]
  · rw [hstop, hstart, hsplit, Text.slice_append, ← hn]
    exact ⟨hc, List.all_eq_true.mp List.all_takeWhile⟩

private theorem function_kind (limit start : Nat) (arrow : Lexeme) (ls : List Lexeme) :
    ∃ braced, (Section.function limit start arrow ls).1.kind = .function arrow.start braced := by
  unfold Section.function
  split
  · split <;> exact ⟨_, rfl⟩
  · exact ⟨_, rfl⟩

/-- Sections that are fine and well named do not start like a statement. -/
private theorem all_speaks (hs : ∀ s ∈ Section.all (Text.byteLength c.text) false (Lexeme.lex 10 0 c.text),
    Fine c s ∧ Named c s) : c.text.Speaks := by
  intro l ls hlex hl
  rw [hlex] at hs
  have hnext : Section.next (Text.byteLength c.text) false (l :: ls) =
      some (Section.named (Text.byteLength c.text) l ls) := by
    simp [Section.next, hl]
  have hvariable (h : Section.named (Text.byteLength c.text) l ls =
      (⟨.variable, l.start, l.stop, false⟩, ls)) :
      isKeyword (Text.slice c.text l.start l.stop) = false ∧ ∀ next ∈ ls.head?, next.token ≠ .assign := by
    rw [h] at hnext
    refine ⟨(hs _ (mem_all_of_next hnext)).2.alone rfl, fun next hn hassign => ?_⟩
    cases ls with
    | nil => cases hn
    | cons next' after =>
      obtain rfl := Option.some.inj hn
      have hundefined : Section.next (Text.byteLength c.text) true (next' :: after) =
          some (⟨.undefined, next'.start, next'.stop, false⟩, after) := by
        simp [Section.next, hassign, Token.isOperator]
      exact (hs _ (mem_all_of_rest hnext rfl (mem_all_of_next hundefined))).1.defined rfl
  unfold Section.named at hnext hvariable
  split at hnext
  · rename_i next after
    split at hnext
    · rename_i hadj
      have hstart : next.start = l.stop := by
        simp only [Section.adjacent, Bool.and_eq_true, beq_iff_eq] at hadj
        exact hadj.2
      refine ⟨?_, fun n hn => ?_⟩
      · rw [← hstart]
        exact (hs _ (mem_all_of_next hnext)).2.called next.start rfl
      · obtain rfl := Option.some.inj hn
        rw [Section.adjacent_token hadj]
        decide
    · rename_i hadj
      split at hnext
      · rename_i harrow
        obtain ⟨blanks, hslice, hname, hblanks⟩ := slice_name hlex hl
        obtain ⟨position, params, hparams⟩ : ∃ position params,
            readParams position (Text.slice c.text l.start next.start) = .ok params := by
          obtain ⟨braced, hkind⟩ := function_kind (Text.byteLength c.text) l.start next after
          have hstart := Section.function_start (Text.byteLength c.text) l.start next after
          rw [← hstart]
          exact (hs _ (mem_all_of_next hnext)).2.params next.start braced hkind
        rw [hslice] at hparams
        refine ⟨readParams_word hname hblanks hparams, fun n hn => ?_⟩
        obtain rfl := Option.some.inj hn
        rw [harrow]
        decide
      · rename_i harrow
        exact hvariable (by simp only [if_neg hadj, if_neg harrow])
  · exact hvariable rfl

private theorem expression_speaks (hc : c.ambient = {}) (hw : c.scope.Wordless c.env) (hp : AcceptablePieces c piece) :
    Always (fun _ => True) (expression c piece blockPiece) fun _ => c.text.Speaks := by
  unfold expression
  have hsteps : Always (fun _ => True)
      ((Section.ofText c.ambient.base false 0 c.text).foldlM (step c piece blockPiece) {})
      fun _ => ∀ s ∈ Section.ofText c.ambient.base false 0 c.text, Fine c s ∧ Named c s := by
    refine Keeps.foldlM_forall (fun progress s _ => ?_) _
    exact (step_fine hp progress s).and (step_named (by rw [hc]) hw progress s)
  refine hsteps.bind fun progress hs => (always_top _).mono fun _ _ => all_speaks ?_
  unfold Section.ofText at hs
  rw [Text.dropBytes, hc] at hs
  exact hs

end Parse

/-- What is accepted as an expression outside of brackets does not start like a statement. -/
theorem parseExpression_speaks {env : Environment} {scope : Scope} (hw : scope.Wordless env) (t : Text)
    (offset : Nat) : Always (fun _ => True) (parseExpression env t offset scope {}) fun _ => t.Speaks := by
  unfold parseExpression
  by_cases ht : t = []
  · rw [dif_pos ht]
    exact .throw trivial
  · rw [dif_neg ht]
    exact Parse.expression_speaks rfl hw fun before stop scope ambient =>
      parseExpression_acceptable env _ _ scope ambient

end Reckoner
