import Mathlib.Data.List.Nodup
import Reckoner.Proofs.Scoping.Folding

/-! The parser builds scoped trees and blocks: from the pieces of an expression and the statements of a
block to the whole text. -/
namespace Reckoner.Parse
variable {env : Environment} {E : ParseError → Prop}

theorem freshLabel_always : Always E freshLabel fun _ => True := fun _ _ => ⟨trivial, trivial⟩

/-- A base is evaluated only when it does not use its frame. -/
private theorem evaluateBase_always (h : Admits env E) {s : Scope} {t : Tree} (position : Nat) (ht : t.Scoped s) :
    Always E (evaluateBase env position t) fun _ => True := by
  by_cases hu : t.usesFrame
  · unfold evaluateBase
    rw [if_pos hu]
    exact .throw (h.other _ rfl)
  · rw [Bool.not_eq_true] at hu
    exact h.base position t hu (ht.top hu)

def ScopedPieces (E : ParseError → Prop) (piece : PieceParser) : Prop :=
  ∀ before stop scope ambient, Always E (piece before stop scope ambient) (Tree.Scoped scope)

def ScopedBlocks (E : ParseError → Prop) (blockPiece : BlockPieceParser) : Prop :=
  ∀ before stop scope, Always E (blockPiece before stop scope) fun r => r.1.Scoped scope r.2

section Expression
variable {c : Context} {piece : PieceParser} {blockPiece : BlockPieceParser}

private theorem call_scoped (h : Admits c.env E) (hp : ScopedPieces E piece) (start opening stop : Nat) :
    Always E (call c piece start opening stop) (Tree.Scoped c.scope) := by
  unfold call
  refine (Keeps.lift (Scope.callee_scoped h _ _)).bind fun callee hcallee => ?_
  refine (Keeps.mapM fun p _ => hp p.1 p.2 _ _).bind fun args hargs => .pure ?_
  obtain ⟨hlength, hscoped⟩ := hargs
  cases callee with
  | value t => exact ⟨rfl, hcallee, Tree.allScoped_iff.mpr hscoped⟩
  | function id => exact Tree.allScoped_iff.mpr hscoped
  | builtin op => exact ⟨hlength ▸ hcallee, Tree.allScoped_iff.mpr hscoped⟩

private theorem cell_scoped (hp : ScopedPieces E piece) :
    (place : Option (Nat × Nat)) → Always E (cell c piece place) (Tree.Scoped c.scope)
  | none => .pure (Tree.number_scoped _ _)
  | some (before, stop) => by
    simp only [cell]
    split
    · exact .pure (Tree.number_scoped _ _)
    · exact hp before stop _ _

theorem length_flatten_of_forall {α : Type} {rows : List (List α)} {width : Nat}
    (h : ∀ row ∈ rows, row.length = width) : rows.flatten.length = width * rows.length := by
  have hlengths : rows.map List.length = List.replicate rows.length width := by
    rw [List.eq_replicate_iff]
    exact ⟨List.length_map _, by simpa using h⟩
  rw [List.length_flatten, hlengths, List.sum_replicate_nat, Nat.mul_comm]

private theorem vector_scoped (hp : ScopedPieces E piece) (before stop : Nat) :
    Always E (vector c piece before stop) (Tree.Scoped c.scope) := by
  unfold vector
  refine (Keeps.mapM fun row _ => Keeps.mapM fun x _ => cell_scoped hp row[x]?).bind fun cells hcells => ?_
  refine .pure ⟨?_, Tree.allScoped_iff.mpr fun t ht => ?_⟩
  · rw [← hcells.1]
    exact length_flatten_of_forall fun row hrow => by rw [(hcells.2 row hrow).1, List.length_range]
  · obtain ⟨row, hrow, ht⟩ := List.mem_flatten.mp ht
    exact (hcells.2 row hrow).2 t ht

private theorem square_scoped (h : Admits c.env E) (hp : ScopedPieces E piece) (start closing : Nat)
    (base : Option Nat) (stop : Nat) :
    Always E (square c piece start closing base stop) (Tree.Scoped c.scope) := by
  unfold square
  cases base with
  | none => exact hp _ _ _ _
  | some first =>
    refine (hp _ _ _ _).bind fun t ht => ?_
    exact (evaluateBase_always h _ ht).bind fun base _ => hp _ _ _ _

/-- Parameters are read one after the other, each one an identifier that starts no statement and is new. -/
theorem readParams_has {Q : List Text → Prop} (hnil : Q [])
    (hnew : ∀ params name, Q params → isIdentifier name → isKeyword name = false → name ∉ params →
      Q (params ++ [name]))
    {position : Nat} (hmalformed : E (.malformedParameters position))
    (hreserved : ∀ name, E (.reservedName name position)) (head : Text) : Ends E (readParams position head) Q := by
  have hnames (names : Text) : Ends E (do
      if (Text.trim names).isEmpty then return []
      (Text.pieces ',' names).foldlM (fun params piece => do
        let name := Text.trim piece
        if !isIdentifier name || params.contains name then throw (ParseError.malformedParameters position)
        if isKeyword name then throw (.reservedName name position)
        return params ++ [name]) []) Q := by
    refine .ite (fun _ => hnil) fun _ => Ends.foldlM hnil fun params hparams piece _ => ?_
    refine .ite (fun _ => hmalformed) fun hfresh => .ite (fun _ => hreserved _) fun hkeyword => ?_
    simp only [Bool.or_eq_true, Bool.not_eq_true', List.contains_iff_mem, not_or, Bool.not_eq_false] at hfresh
    exact hnew params _ hparams hfresh.1 (Bool.not_eq_true _ ▸ hkeyword) hfresh.2
  unfold readParams
  simp only
  split
  · split
    · exact hnames _
    · exact hmalformed
  · exact hnames _

/-- Parameters have different names. -/
theorem readParams_nodup {position : Nat} (hmalformed : E (.malformedParameters position))
    (hreserved : ∀ name, E (.reservedName name position)) (head : Text) :
    Ends E (readParams position head) List.Nodup :=
  readParams_has List.nodup_nil
    (fun _ _ hparams _ _ hfresh => List.concat_eq_append ▸ List.Nodup.concat hfresh hparams) hmalformed hreserved head

private theorem lambda_scoped (h : Admits c.env E) (hp : ScopedPieces E piece) (hb : ScopedBlocks E blockPiece)
    (start arrow : Nat) (braced : Bool) (stop : Nat) :
    Always E (lambda c piece blockPiece start arrow braced stop) (Tree.Scoped c.scope) := by
  unfold lambda
  refine (Keeps.lift (readParams_nodup (h.other _ rfl) (fun _ => h.other _ rfl) _)).bind fun params _ => ?_
  have hfunction (body : Block) (hbody : body.IsBody (params ++ c.scope.params ++ c.scope.locals)) :
      Always E (do return .function { label := ← freshLabel, params, body } c.scope.captureWidth)
        (Tree.Scoped c.scope) :=
    freshLabel_always.bind fun label _ => .pure ⟨rfl, hbody⟩
  cases braced with
  | true => exact (Keeps.map ((hb _ _ _).mono fun r hr => ⟨_, _, hr⟩)).bind hfunction
  | false =>
    refine Keeps.bind (Keeps.map ((hp _ _ _ _).mono fun t ht => ?_)) hfunction
    exact Block.returning_isBody (Tree.Scoped.congr (by rfl) (by rfl) ht)

private theorem operand_scoped (h : Admits c.env E) (hp : ScopedPieces E piece) (hb : ScopedBlocks E blockPiece)
    (s : Section) : Always E (operand c piece blockPiece s) (Tree.Scoped c.scope) := by
  unfold operand
  simp only
  split
  · split
    · exact .pure (Tree.number_scoped _ _)
    · exact .throw (h.other _ rfl)
  · exact .lift (Scope.resolve_scoped h _ _)
  · exact call_scoped h hp _ _ _
  · exact hp _ _ _ _
  · exact square_scoped h hp _ _ _ _
  · exact vector_scoped hp _ _
  · exact .pure nofun
  · exact lambda_scoped h hp hb _ _ _ _
  · exact .throw (h.other _ rfl)
  · exact .throw (h.other _ rfl)

section
variable {P : Tree → Prop}

def Progress.Has (P : Tree → Prop) (progress : Progress) : Prop :=
  ∀ item ∈ progress.items, item.Has P fun _ => True

private theorem operators_has (h : Admits c.env E) {progress : Progress} (hi : progress.Has P) (s : Section) :
    Ends E (operators c progress s) (Progress.Has P) := by
  unfold operators
  simp only
  split
  · exact h.other _ rfl
  · refine .ite (fun _ => .ite (fun _ => h.other _ rfl) fun _ => hi) fun _ => ?_
    exact List.forall_mem_cons.mpr ⟨trivial, hi⟩

private theorem step_has (h : Admits c.env E) (hP : Tree.Operates P) {progress : Progress} (hi : progress.Has P)
    {s : Section} (hs : s.broken = false → Always E (operand c piece blockPiece s) P) :
    Always E (step c piece blockPiece progress s) (Progress.Has P) := by
  unfold step
  refine .ite (fun _ => .throw (h.other _ rfl)) fun hb => .ite (fun _ => ?_) fun _ => ?_
  · exact .lift (operators_has h hi s)
  · refine (hs (Bool.not_eq_true _ ▸ hb)).bind fun t ht => .pure (List.forall_mem_cons.mpr ⟨?_, hi⟩)
    show P (if progress.signed then Flat.negate t else t)
    split
    · exact Flat.negate_has hP ht
    · exact ht

/-- What holds of the trees of all sections that can be parsed holds of the tree of the expression. -/
theorem expression_has (h : Admits c.env E) (hP : Tree.Operates P)
    (hs : ∀ s ∈ Section.ofText c.ambient.base false 0 c.text, s.broken = false →
      Always E (operand c piece blockPiece s) P) :
    Always E (expression c piece blockPiece) P := by
  unfold expression
  have hsteps : Always E
      ((Section.ofText c.ambient.base false 0 c.text).foldlM (step c piece blockPiece) {}) (Progress.Has P) :=
    Keeps.foldlM nofun fun progress hi s hmem => step_has h hP hi (hs s hmem)
  refine hsteps.bind fun progress hi => ?_
  split
  · exact .throw (h.other _ rfl)
  · exact .throw (h.other _ rfl)
  · refine .lift (Flat.fold_has (Q := fun _ => True) hP (fun _ _ => h.other _ rfl) trivial fun item hitem => ?_)
    exact hi item (List.mem_reverse.mp hitem)

end

theorem expression_scoped (h : Admits c.env E) (hp : ScopedPieces E piece)
    (hb : ScopedBlocks E blockPiece) :
    Always E (expression c piece blockPiece) (Tree.Scoped c.scope) :=
  expression_has h (Tree.Scoped.structural c.scope).operates fun s _ _ => operand_scoped h hp hb s

end Expression
end Reckoner.Parse
