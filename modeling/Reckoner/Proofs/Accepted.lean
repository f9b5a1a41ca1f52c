import Reckoner.Parse
import Reckoner.Proofs.Outcome
import Reckoner.Proofs.Sections

/-! What the parser accepts as an expression closes every bracket that it opens, and has no separator outside
of brackets. -/
namespace Reckoner

def Text.tokensIn (base : Nat) (t : Text) : List Token := (Lexeme.lex base 0 t).map Lexeme.token

def Text.tokens (t : Text) : List Token := (Lexeme.lex 10 0 t).map Lexeme.token

/-- The text closes the brackets and strings that it opens, and has no such separator outside of them. -/
def Text.ClosedIn (base : Nat) (separator : Token) (t : Text) : Prop :=
  ∃ b, Nesting.Crosses separator false (t.tokensIn base) b

def Text.Closed (t : Text) : Prop := ∃ b, Nesting.Crosses .semicolon false t.tokens b

theorem Text.tokensIn_eq (base offset : Nat) (t : Text) :
    (Lexeme.lex base offset t).map Lexeme.token = t.tokensIn base := by
  have h := Lexeme.lex_shift base 0 offset t
  rw [Nat.zero_add] at h
  rw [h, List.map_map]
  rfl

theorem Text.tokens_eq (offset : Nat) (t : Text) : (Lexeme.lex 10 offset t).map Lexeme.token = t.tokens :=
  Text.tokensIn_eq 10 offset t

namespace Parse
variable {c : Context} {piece : PieceParser} {blockPiece : BlockPieceParser}

structure Acceptable (base : Nat) (t : Text) : Prop where
  ne_nil : t ≠ []
  /-- The piece does not consist of blanks. -/
  visible : ∃ c ∈ t, Text.isBlank c = false
  closed (separator : Token) : separator.separates → t.ClosedIn base separator

structure Fine (c : Context) (s : Section) : Prop where
  whole : s.broken = false
  defined : s.kind ≠ .undefined
  based (closing : Nat) : s.kind ≠ .square closing (some s.stop)
  body (arrow : Nat) : s.kind = .function arrow false → ∀ separator : Token, separator.separates →
    (Text.slice c.text (arrow + 2) s.stop).ClosedIn c.ambient.base separator

def AcceptablePieces (c : Context) (piece : PieceParser) : Prop :=
  ∀ before stop scope ambient, Always (fun _ => True) (piece before stop scope ambient) fun _ =>
    Acceptable ambient.base (Text.slice c.text (before + 1) stop)

theorem always_top {α : Type} (x : Parse α) : Always (fun _ => True) x fun _ => True := by
  refine fun s _ => ⟨trivial, ?_⟩
  unfold Ends
  split <;> trivial

private theorem square_based (hp : AcceptablePieces c piece) (start closing : Nat) (base : Option Nat) (stop : Nat) :
    Always (fun _ => True) (square c piece start closing base stop) fun _ => base ≠ some stop := by
  unfold square
  cases base with
  | none => exact (always_top _).mono fun _ _ => nofun
  | some first =>
    refine (hp (first - 1) stop c.scope c.ambient).bind fun t ht => ?_
    refine (always_top _).mono fun _ _ hstop => ht.ne_nil ?_
    obtain rfl := Option.some.inj hstop
    have hnone : first - (first - 1 + 1) = 0 := by omega
    rw [Text.slice, hnone, Text.takeBytes]

private theorem lambda_body (hp : AcceptablePieces c piece) (start arrow : Nat) (braced : Bool) (stop : Nat) :
    Always (fun _ => True) (lambda c piece blockPiece start arrow braced stop) fun _ =>
      braced = false → ∀ separator : Token, separator.separates →
        (Text.slice c.text (arrow + 2) stop).ClosedIn c.ambient.base separator := by
  unfold lambda
  refine (always_top (ofExcept _)).bind fun params _ => ?_
  cases braced with
  | true => exact (always_top _).mono fun _ _ => nofun
  | false =>
    have hpiece := hp (arrow + 1) stop (Scope.lambda params c.scope) { base := c.ambient.base }
    refine Keeps.bind (Keeps.map (R := fun _ => Acceptable c.ambient.base _) hpiece) fun body ht => ?_
    exact (always_top _).mono fun _ _ _ => ht.closed

private theorem operand_fine (hp : AcceptablePieces c piece) {s : Section} (hs : s.broken = false) :
    Always (fun _ => True) (operand c piece blockPiece s) fun _ => Fine c s := by
  have hfine (hd : s.kind ≠ .undefined) (hb : ∀ closing, s.kind ≠ .square closing (some s.stop))
      (hf : ∀ arrow, s.kind ≠ .function arrow false) (x : Parse Tree) :
      Always (fun _ => True) x fun _ => Fine c s :=
    (always_top x).mono fun _ _ => ⟨hs, hd, hb, fun arrow h => absurd h (hf arrow)⟩
  unfold operand
  simp only
  split
  · rename_i hk
    exact hfine (by simp [hk]) (by simp [hk]) (by simp [hk]) _
  · rename_i hk
    exact hfine (by simp [hk]) (by simp [hk]) (by simp [hk]) _
  · rename_i hk
    exact hfine (by simp [hk]) (by simp [hk]) (by simp [hk]) _
  · rename_i hk
    exact hfine (by simp [hk]) (by simp [hk]) (by simp [hk]) _
  · rename_i closing base hk
    refine (square_based hp _ _ _ _).mono fun _ hbase => ⟨hs, by simp [hk], fun closing' h => ?_, by simp [hk]⟩
    rw [hk] at h
    exact hbase (SectionKind.square.inj h).2
  · rename_i hk
    exact hfine (by simp [hk]) (by simp [hk]) (by simp [hk]) _
  · rename_i hk
    exact hfine (by simp [hk]) (by simp [hk]) (by simp [hk]) _
  · rename_i arrow braced hk
    refine (lambda_body hp _ _ _ _).mono fun _ hbody => ⟨hs, by simp [hk], by simp [hk], fun arrow' h => ?_⟩
    rw [hk] at h
    obtain ⟨rfl, rfl⟩ := SectionKind.function.inj h
    exact hbody rfl
  · exact .throw trivial
  · exact .throw trivial

theorem step_fine (hp : AcceptablePieces c piece) (progress : Progress) (s : Section) :
    Always (fun _ => True) (step c piece blockPiece progress s) fun _ => Fine c s := by
  unfold step
  refine .ite (fun _ => .throw trivial) fun hs => .ite (fun hk => ?_) fun _ => ?_
  · refine (always_top _).mono fun _ _ => ⟨Bool.not_eq_true _ ▸ hs, ?_, ?_, ?_⟩ <;> simp [hk]
  · exact (operand_fine hp (Bool.not_eq_true _ ▸ hs)).bind fun _ hf => .pure hf

/-- Sections that are all fine take up tokens that close what they open. -/
private theorem all_crosses {separator : Token} (hsep : separator.separates) (a : Bool) (before ls : List Lexeme)
    (hls : Lexeme.lex c.ambient.base 0 c.text = before ++ ls)
    (hfine : ∀ s ∈ Section.all (Text.byteLength c.text) a ls, Fine c s) :
    ∃ b, Nesting.Crosses separator a (ls.map Lexeme.token) b := by
  fun_induction Section.all (Text.byteLength c.text) a ls generalizing before with
  | case1 a ls hnext =>
    cases ls with
    | nil => exact ⟨a, .nil a⟩
    | cons l ls => exact nomatch hnext
  | case2 a ls first rest hnext hb => exact absurd hb (by simp [(hfine first List.mem_cons_self).whole])
  | case3 a ls first rest hnext hb =>
    rename_i ih
    obtain ⟨hfirst, hrest⟩ := List.forall_mem_cons.mp hfine
    rcases Section.next_takes hsep hnext hfirst.whole hfirst.defined with ⟨taken, rfl, hcrosses⟩ |
      ⟨head, body, arrow, rfl, rfl, harrow, hk, hstop, hcrosses⟩ | ⟨closing, hk⟩
    · obtain ⟨b, hb⟩ := ih (before ++ taken) (by rw [hls, List.append_assoc]) hrest
      rw [List.map_append]
      exact ⟨b, hcrosses.append hb⟩
    · have hmem : arrow ∈ Lexeme.lex c.ambient.base 0 c.text := by simp [hls]
      have hlex : Lexeme.lex c.ambient.base 0 c.text = (before ++ head) ++ arrow :: body := by simp [hls]
      have hbody := Lexeme.lex_behind hlex
      have hclosed := hfirst.body arrow.start hk separator hsep
      rw [← Lexeme.lex_arrow hmem harrow, hstop, Text.slice_to_end] at hclosed
      obtain ⟨b, hb⟩ := hclosed
      rw [Nat.sub_zero] at hbody
      rw [← Text.tokensIn_eq c.ambient.base arrow.stop, hbody] at hb
      refine ⟨b, ?_⟩
      rw [List.append_cons, List.map_append]
      exact hcrosses.append hb
    · exact absurd hk (hfirst.based closing)

/-- A text of blanks has no sections, or starts with one that is undefined. -/
private theorem visible_of_fine (hne : Section.ofText c.ambient.base false 0 c.text ≠ [])
    (hfine : ∀ s ∈ Section.ofText c.ambient.base false 0 c.text, Fine c s) :
    ∃ d ∈ c.text, Text.isBlank d = false := by
  by_contra hblank
  push Not at hblank
  unfold Section.ofText at hne hfine
  rw [Text.dropBytes] at hne hfine
  cases hlex : Lexeme.lex c.ambient.base 0 c.text with
  | nil =>
    rw [hlex] at hne
    exact hne (Section.all_nil _ _)
  | cons first ls =>
    obtain ⟨skipped, d, rest, count, htext, -, hm, -⟩ := Lexeme.lex_eq_cons hlex
    have hd : Text.isBlank d := by simpa using hblank d (by simp [htext])
    have hstray := Lexeme.munch_blank hd hm
    have hnext : Section.next (Text.byteLength c.text) false (first :: ls) =
        some (⟨.undefined, first.start, first.stop, false⟩, ls) := by
      simp only [Section.next, hstray]
      rfl
    rw [hlex, Section.all_eq hnext] at hfine
    exact (hfine _ List.mem_cons_self).defined rfl

/-- The sections of an expression that is accepted are fine, and there are some. -/
private theorem expression_fine (hp : AcceptablePieces c piece) :
    Always (fun _ => True) (expression c piece blockPiece) fun _ =>
      Section.ofText c.ambient.base false 0 c.text ≠ [] ∧
        ∀ s ∈ Section.ofText c.ambient.base false 0 c.text, Fine c s := by
  unfold expression
  by_cases hempty : Section.ofText c.ambient.base false 0 c.text = []
  · rw [hempty]
    exact .throw trivial
  have hsteps : Always (fun _ => True)
      ((Section.ofText c.ambient.base false 0 c.text).foldlM (step c piece blockPiece) {})
      fun _ => ∀ s ∈ Section.ofText c.ambient.base false 0 c.text, Fine c s :=
    Keeps.foldlM_forall (fun progress s _ => step_fine hp progress s) {}
  exact hsteps.bind fun progress hfine => (always_top _).mono fun _ _ => ⟨hempty, hfine⟩

/-- An expression that is accepted is acceptable. -/
private theorem expression_acceptable (hp : AcceptablePieces c piece) (hne : c.text ≠ []) :
    Always (fun _ => True) (expression c piece blockPiece) fun _ => Acceptable c.ambient.base c.text := by
  refine (expression_fine hp).mono fun _ hall => ?_
  obtain ⟨hempty, hfine⟩ := hall
  refine ⟨hne, visible_of_fine hempty hfine, fun separator hsep => ?_⟩
  unfold Section.ofText at hfine
  rw [Text.dropBytes] at hfine
  exact all_crosses hsep false [] _ rfl hfine

/-- No section starts with a brace. -/
private theorem expression_unbraced (hp : AcceptablePieces c piece) :
    Always (fun _ => True) (expression c piece blockPiece) fun _ =>
      (c.text.tokensIn c.ambient.base).head? ≠ some .leftBrace := by
  refine (expression_fine hp).mono fun _ hall hbrace => ?_
  obtain ⟨-, hfine⟩ := hall
  unfold Section.ofText at hfine
  rw [Text.dropBytes] at hfine
  rw [Text.tokensIn] at hbrace
  cases hlex : Lexeme.lex c.ambient.base 0 c.text with
  | nil =>
    rw [hlex] at hbrace
    cases hbrace
  | cons l ls =>
    rw [hlex] at hbrace hfine
    have hnext : Section.next (Text.byteLength c.text) false (l :: ls) =
        some (⟨.undefined, l.start, l.stop, false⟩, ls) := by
      simp only [Section.next, Option.some.inj hbrace]
      rfl
    rw [Section.all_eq hnext] at hfine
    exact (hfine _ List.mem_cons_self).defined rfl

end Parse

theorem parseExpression_acceptable (env : Environment) (t : Text) (offset : Nat) (scope : Scope)
    (ambient : Ambient) :
    Always (fun _ => True) (parseExpression env t offset scope ambient) fun _ =>
      Parse.Acceptable ambient.base t := by
  unfold parseExpression
  by_cases ht : t = []
  · rw [dif_pos ht]
    exact .throw trivial
  · rw [dif_neg ht]
    refine Parse.expression_acceptable (fun before stop scope ambient => ?_) ht
    exact parseExpression_acceptable env _ _ scope ambient
termination_by t.length
decreasing_by exact Text.length_slice_lt _ (Nat.succ_pos _) ht

/-- What is accepted as an expression is no block. -/
theorem parseExpression_unbraced (env : Environment) (t : Text) (offset : Nat) (scope : Scope)
    (ambient : Ambient) :
    Always (fun _ => True) (parseExpression env t offset scope ambient) fun _ =>
      (t.tokensIn ambient.base).head? ≠ some .leftBrace := by
  unfold parseExpression
  by_cases ht : t = []
  · rw [dif_pos ht]
    exact .throw trivial
  · rw [dif_neg ht]
    exact Parse.expression_unbraced fun before stop scope ambient => parseExpression_acceptable env _ _ scope ambient

end Reckoner
