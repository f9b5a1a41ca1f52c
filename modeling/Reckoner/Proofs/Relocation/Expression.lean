import Reckoner.Parse.Expression
import Reckoner.Proofs.Outcome
import Reckoner.Proofs.Relocation.Shifting
import Reckoner.Proofs.Scoping.Folding
import Mathlib.Data.List.Forall2

/-! An expression is parsed alike behind a text without lexemes: section by section and then in the folding of
its operators, only the places of errors differ. -/
namespace Reckoner

/-- The same names are in sight. -/
structure Scope.SameSight (s s' : Scope) : Prop where
  params : s.params = s'.params
  locals : s.locals = s'.locals
  pending : s.pending = s'.pending

/-- The same outcome, but for the places that errors name. -/
abbrev Parse.Same {α : Type} (x y : Parse α) : Prop := Agree Eq (fun _ _ => True) x y Eq

namespace Flat

inductive Item.Alike : Item → Item → Prop
  | operand (t : Tree) : Alike (.operand t) (.operand t)
  | operator (op : Builtin) (place place' : Nat) : Alike (.operator op place) (.operator op place')

variable {items items' : List Item}

private theorem release_alike (held : Option Tree) (h : List.Forall₂ Item.Alike items items') :
    List.Forall₂ Item.Alike (release held items) (release held items') := by
  cases held with
  | none => exact h
  | some t => exact .cons (.operand t) h

private theorem joinOperands_alike (held : Option Tree) (h : List.Forall₂ Item.Alike items items') :
    List.Forall₂ Item.Alike (joinOperands held items) (joinOperands held items') := by
  induction h generalizing held with
  | nil => exact release_alike held .nil
  | cons hi _ ih =>
    cases hi with
    | operand t =>
      cases held with
      | none => exact ih (some t)
      | some product => exact ih (some (.builtin .mul [product, t]))
    | operator op place place' =>
      cases held with
      | none => exact .cons (.operator op place place') (ih none)
      | some product => exact .cons (.operand product) (.cons (.operator op place place') (ih none))

private theorem foldLevel_alike (level : Builtin → Bool) (held : Option Tree)
    (h : List.Forall₂ Item.Alike items items') :
    Coincide (fun _ _ => True) (List.Forall₂ Item.Alike) (foldLevel level held items)
      (foldLevel level held items') := by
  fun_induction foldLevel level held items generalizing items' with
  | case1 held =>
    cases h
    exact release_alike held .nil
  | case2 held t rest ih =>
    cases h with
    | cons hi hrest =>
      cases hi
      exact Coincide.map ((ih hrest).mono fun _ _ => release_alike held)
  | case3 op position hop left right rest ih =>
    obtain _ | ⟨hi, _ | ⟨hright, hrest⟩⟩ := h
    cases hi
    cases hright
    simp only [foldLevel, hop, if_true]
    exact ih hrest
  | case4 held op position rest hop hno =>
    cases h with
    | cons hi hrest =>
      cases hi
      rw [foldLevel.eq_def level held (_ :: _)]
      simp only
      rw [if_pos hop]
      split
      · cases hrest with
        | cons hright _ =>
          cases hright
          exact (hno _ _ _ rfl rfl).elim
      · trivial
  | case5 held op position rest hop ih =>
    cases h with
    | cons hi hrest =>
      cases hi
      rw [foldLevel.eq_def level held (_ :: _)]
      simp only
      rw [if_neg hop]
      refine (ih hrest).bind fun _ _ h => ?_
      exact release_alike held (.cons (.operator op _ _) h)

private theorem fold_alike {leading leading' : Option Nat} (hl : leading.isSome = leading'.isSome)
    (h : List.Forall₂ Item.Alike items items') :
    Coincide (fun _ _ => True) Eq (fold leading items) (fold leading' items') := by
  unfold fold
  refine Coincide.bind (R := List.Forall₂ Item.Alike) ?_ fun a b hab => ?_
  · have hj := joinOperands_alike none h
    generalize joinOperands none items = l at hj ⊢
    generalize joinOperands none items' = l' at hj ⊢
    induction levels generalizing l l' with
    | nil => exact hj
    | cons level levels ih =>
      rw [List.foldlM_cons, List.foldlM_cons]
      exact (foldLevel_alike level none hj).bind ih
  · split
    · obtain _ | ⟨hi, _ | _⟩ := hab
      cases hi
      rw [hl]
      rfl
    · rename_i hnot
      split
      · obtain _ | ⟨hi, _ | _⟩ := hab
        cases hi
        exact (hnot _ rfl).elim
      · trivial

end Flat

namespace Scope.SameSight
variable {s s' : Scope}

private theorem slot? (h : s.SameSight s') (env : Environment) (name : Text) :
    s.slot? env name = s'.slot? env name := by
  simp only [Scope.slot?, Scope.argument?, Scope.local?, h.params, h.locals]

private theorem function? (h : s.SameSight s') (env : Environment) (name : Text) :
    s.function? env name = s'.function? env name := by
  simp only [Scope.function?, h.pending]

private theorem resolve (h : s.SameSight s') (env : Environment) (ambient : Ambient) (name : Text) (p p' : Nat) :
    Coincide (fun _ _ => True) Eq (s.resolve env ambient name p) (s'.resolve env ambient name p') := by
  unfold Scope.resolve
  simp only [h.slot? env name, h.function? env name]
  split
  · rfl
  · trivial

private theorem callee (h : s.SameSight s') (env : Environment) (name : Text) (count p p' : Nat) :
    Coincide (fun _ _ => True) Eq (s.callee env name count p) (s'.callee env name count p') := by
  unfold Scope.callee
  rw [h.slot? env name, h.function? env name]
  split
  · rfl
  · split
    · rfl
    · trivial
  · split
    · rfl
    · trivial
  · trivial

private theorem lambda (h : s.SameSight s') (params : List Text) : Scope.lambda params s = Scope.lambda params s' := by
  simp only [Scope.lambda, h.params, h.locals, h.pending]

private theorem captureWidth (h : s.SameSight s') : s.captureWidth = s'.captureWidth := by
  simp only [Scope.captureWidth, h.params, h.locals]

end Scope.SameSight

namespace Parse

def MovedPieces (n : Nat) (piece piece' : PieceParser) : Prop :=
  ∀ before stop s s' ambient, s.SameSight s' →
    Same (piece (before + n) (stop + n) s ambient) (piece' before stop s' ambient)

def MovedBlocks (n : Nat) (blockPiece blockPiece' : BlockPieceParser) : Prop :=
  ∀ before stop s, Same (blockPiece (before + n) (stop + n) s) (blockPiece' before stop s)

structure Context.Moved (n : Nat) (c c' : Context) : Prop where
  env : c.env = c'.env
  scope : c.scope.SameSight c'.scope
  ambient : c.ambient = c'.ambient
  text : ∃ front, n = Text.byteLength front ∧ c.text = front ++ c'.text

section
variable {n : Nat} {c c' : Context} {piece piece' : PieceParser} {blockPiece blockPiece' : BlockPieceParser}

private theorem Context.Moved.slice (h : c.Moved n c') (start stop : Nat) :
    Text.slice c.text (start + n) (stop + n) = Text.slice c'.text start stop := by
  obtain ⟨front, rfl, htext⟩ := h.text
  rw [htext, Nat.add_comm start, Nat.add_comm stop, Text.slice_append_left]

def movedPiece (n : Nat) (p : Nat × Nat) : Nat × Nat := (p.1 + n, p.2 + n)

private theorem argumentPieces_moved (h : c.Moved n c') (before stop : Nat) :
    argumentPieces c (before + n) (stop + n) = (argumentPieces c' before stop).map (movedPiece n) := by
  have hinner : Text.slice c.text (before + n + 1) (stop + n) = Text.slice c'.text (before + 1) stop := by
    rw [Nat.add_right_comm, h.slice]
  unfold argumentPieces
  rw [hinner, h.ambient]
  simp only
  split
  · rfl
  · rw [List.map_map]
    refine List.map_congr_left fun p _ => ?_
    simp only [Function.comp_apply, movedPiece, Prod.mk.injEq]
    omega

private theorem call_moved (h : c.Moved n c') (hp : MovedPieces n piece piece') (start opening : Nat) {stop : Nat}
    (hs : 0 < stop) :
    Same (call c piece (start + n) (opening + n) (stop + n)) (call c' piece' start opening stop) := by
  have hlast : stop + n - 1 = stop - 1 + n := by omega
  unfold call
  simp only [hlast, argumentPieces_moved h, h.slice, h.env, List.length_map]
  refine Agree.bind (R := Eq) (Agree.lift (h.scope.callee _ _ _ _ _)) fun callee _ hcallee => ?_
  subst hcallee
  refine Agree.bind (R := Eq) (Agree.mapM fun p _ => ?_) fun args _ hargs => ?_
  · exact h.ambient ▸ hp p.1 p.2 _ _ _ h.scope
  · exact .pure (by rw [hargs])

private theorem cellPieces_moved (h : c.Moved n c') (before stop : Nat) :
    cellPieces c (before + n) (stop + n) = (cellPieces c' before stop).map (List.map (movedPiece n)) := by
  have hinner : Text.slice c.text (before + n + 1) (stop + n) = Text.slice c'.text (before + 1) stop := by
    rw [Nat.add_right_comm, h.slice]
  unfold cellPieces
  rw [hinner, h.ambient]
  simp only [List.map_map]
  refine List.map_congr_left fun row _ => ?_
  simp only [Function.comp_apply, List.map_map]
  refine List.map_congr_left fun p _ => ?_
  simp only [Function.comp_apply, movedPiece, Prod.mk.injEq]
  omega

private theorem cell_moved (h : c.Moved n c') (hp : MovedPieces n piece piece') (place : Option (Nat × Nat)) :
    Same (cell c piece (place.map (movedPiece n))) (cell c' piece' place) := by
  cases place with
  | none => exact .pure rfl
  | some place =>
    obtain ⟨before, stop⟩ := place
    have hcell : Text.slice c.text (before + n + 1) (stop + n) = Text.slice c'.text (before + 1) stop := by
      rw [Nat.add_right_comm, h.slice]
    simp only [Option.map_some, movedPiece, cell, hcell]
    split
    · exact .pure rfl
    · exact h.ambient ▸ hp before stop _ _ _ h.scope

private theorem vector_moved (h : c.Moved n c') (hp : MovedPieces n piece piece') (before stop : Nat) :
    Same (vector c piece (before + n) (stop + n)) (vector c' piece' before stop) := by
  have hwidth : List.length ∘ List.map (movedPiece n) = List.length := by
    funext row
    exact List.length_map _
  unfold vector
  simp only [cellPieces_moved h, List.map_map, hwidth, List.length_map]
  refine Agree.bind (R := Eq) (Agree.mapM fun row _ => ?_) fun cells _ hcells => ?_
  · have hcell (x : Nat) : Same (cell c piece (row.map (movedPiece n))[x]?) (cell c' piece' row[x]?) := by
      rw [List.getElem?_map]
      exact cell_moved h hp row[x]?
    have hcells (l : List Nat) := Agree.mapM (l := l) (k := id) (f := fun x =>
      cell c piece (row.map (movedPiece n))[x]?) fun x _ => hcell x
    simpa using hcells (List.range _)
  · exact .pure (by rw [hcells])

private theorem evaluateBase_moved (env : Environment) (p p' : Nat) (t : Tree) :
    Same (evaluateBase env p t) (evaluateBase env p' t) := by
  unfold evaluateBase
  split
  · exact .throw trivial
  · refine (Agree.self (fun _ => trivial) (attempt (env.evaluate .empty t))).bind fun r _ hr => ?_
    subst hr
    cases r with
    | error e => exact .throw trivial
    | ok v =>
      simp only
      split
      · exact .pure rfl
      · exact .throw trivial

private theorem square_moved (h : c.Moved n c') (hp : MovedPieces n piece piece') (start closing : Nat)
    (base : Option Nat) (hb : ∀ first ∈ base, 0 < first) (stop : Nat) :
    Same (square c piece (start + n) (closing + n) (base.map (· + n)) (stop + n))
      (square c' piece' start closing base stop) := by
  unfold square
  cases base with
  | none => exact hp _ _ _ _ _ h.scope
  | some first =>
    have hfirst : first + n - 1 = first - 1 + n := by
      have := hb first rfl
      omega
    simp only [Option.map_some, hfirst, h.env, h.ambient]
    refine Agree.bind (R := Eq) (hp _ _ _ _ _ h.scope) fun t _ ht => ?_
    subst ht
    refine Agree.bind (R := Eq) (evaluateBase_moved _ _ _ t) fun base _ hbase => ?_
    exact hbase ▸ hp _ _ _ _ _ h.scope

private theorem readParams_moved (p p' : Nat) (head : Text) :
    Coincide (fun _ _ => True) Eq (readParams p head) (readParams p' head) := by
  have hnames (names : Text) : Coincide (fun _ _ => True) Eq
      (do
        if (Text.trim names).isEmpty then return []
        (Text.pieces ',' names).foldlM (fun params piece => do
          let name := Text.trim piece
          if !isIdentifier name || params.contains name then throw (ParseError.malformedParameters p)
          if isKeyword name then throw (ParseError.reservedName name p)
          return params ++ [name]) [] : Except ParseError (List Text))
      (do
        if (Text.trim names).isEmpty then return []
        (Text.pieces ',' names).foldlM (fun params piece => do
          let name := Text.trim piece
          if !isIdentifier name || params.contains name then throw (ParseError.malformedParameters p')
          if isKeyword name then throw (ParseError.reservedName name p')
          return params ++ [name]) [] : Except ParseError (List Text)) := by
    refine .ite (fun _ => rfl) fun _ => Coincide.foldlM (fun params piece _ => ?_) []
    exact .ite (fun _ => trivial) fun _ => .ite (fun _ => trivial) fun _ => rfl
  unfold readParams
  simp only
  split
  · split
    · exact hnames _
    · trivial
  · exact hnames _

private theorem lambda_moved (h : c.Moved n c') (hp : MovedPieces n piece piece')
    (hb : MovedBlocks n blockPiece blockPiece') (start arrow : Nat) (braced : Bool) {stop : Nat} (hs : 0 < stop) :
    Same (lambda c piece blockPiece (start + n) (arrow + n) braced (stop + n))
      (lambda c' piece' blockPiece' start arrow braced stop) := by
  unfold lambda
  rw [h.slice]
  refine Agree.bind (R := Eq) (Agree.lift (readParams_moved _ _ _)) fun params _ hparams => ?_
  subst hparams
  rw [h.scope.captureWidth]
  have hlabel (body : Block) : Same
      (do return Tree.function { label := ← freshLabel, params, body } c'.scope.captureWidth)
      (do return Tree.function { label := ← freshLabel, params, body } c'.scope.captureWidth) :=
    Agree.self (fun _ => trivial) _
  cases braced with
  | true =>
    have hlast : stop + n - 1 = stop - 1 + n := by omega
    have hafter : arrow + n + 2 = arrow + 2 + n := by omega
    simp only [if_true, hlast, hafter, h.slice, h.scope.lambda]
    refine Agree.bind (R := Eq) (Agree.map ?_) fun body _ hbody => hbody ▸ hlabel body
    rw [Nat.add_right_comm]
    exact (hb _ _ _).mono fun _ _ h => congrArg Prod.fst h
  | false =>
    have hafter : arrow + n + 1 = arrow + 1 + n := by omega
    simp only [hafter, h.ambient, h.scope.lambda]
    refine Agree.bind (R := Eq) (Agree.map ?_) fun body _ hbody => hbody ▸ hlabel body
    exact (hp _ _ _ _ _ ⟨rfl, rfl, rfl⟩).mono fun _ _ h => congrArg Block.returning h

private theorem operand_moved (h : c.Moved n c') (hp : MovedPieces n piece piece')
    (hb : MovedBlocks n blockPiece blockPiece') {s : Section} (hs : s.Solid) :
    Same (operand c piece blockPiece (s.shift n)) (operand c' piece' blockPiece' s) := by
  obtain ⟨kind, start, stop, broken⟩ := s
  have hlast : stop + n - 1 = stop - 1 + n := by
    have := hs.stop
    simp only at this
    omega
  unfold operand
  simp only [Section.shift, h.slice, h.env, h.ambient]
  cases kind with
  | number =>
    simp only [SectionKind.shift]
    split
    · exact .pure rfl
    · exact .throw trivial
  | «variable» => exact .lift (h.scope.resolve _ _ _ _ _)
  | call opening => exact call_moved h hp start opening hs.stop
  | parenthesis =>
    simp only [SectionKind.shift, hlast]
    exact hp _ _ _ _ _ h.scope
  | square closing base =>
    exact square_moved h hp start closing base (fun first hf => hs.base closing first (by rw [Option.mem_def.mp hf])) stop
  | vector =>
    simp only [SectionKind.shift, hlast]
    exact vector_moved h hp start (stop - 1)
  | operators => exact .throw trivial
  | function arrow braced => exact lambda_moved h hp hb start arrow braced hs.stop
  | string =>
    simp only [SectionKind.shift, hlast]
    rw [Nat.add_right_comm, h.slice]
    exact .pure rfl
  | undefined => exact .throw trivial

structure Progress.Alike (progress progress' : Progress) : Prop where
  items : List.Forall₂ Flat.Item.Alike progress.items progress'.items
  signed : progress.signed = progress'.signed
  leading : progress.leading.isSome = progress'.leading.isSome

variable {progress progress' : Progress}

private theorem Progress.Alike.isEmpty (h : progress.Alike progress') :
    progress.items.isEmpty = progress'.items.isEmpty := by
  have hi := h.items
  generalize progress.items = items at hi
  generalize progress'.items = items' at hi
  cases hi <;> rfl

private theorem operators_moved (h : c.Moved n c') (hprogress : progress.Alike progress') (s : Section) :
    Coincide (fun _ _ => True) Progress.Alike (operators c progress (s.shift n)) (operators c' progress' s) := by
  unfold operators
  simp only [Section.shift, h.slice, hprogress.isEmpty, hprogress.leading]
  split
  · trivial
  · refine .ite (fun _ => .ite (fun _ => trivial) fun _ => ?_) fun _ => ?_
    · exact ⟨hprogress.items, rfl, rfl⟩
    · exact ⟨.cons (.operator _ _ _) hprogress.items, rfl, hprogress.leading⟩

private theorem step_moved (h : c.Moved n c') (hp : MovedPieces n piece piece')
    (hb : MovedBlocks n blockPiece blockPiece') (hprogress : progress.Alike progress') {s : Section} (hs : s.Solid) :
    Agree Eq (fun _ _ => True) (step c piece blockPiece progress (s.shift n))
      (step c' piece' blockPiece' progress' s) Progress.Alike := by
  have hbroken : (s.shift n).broken = s.broken := rfl
  have hkind : ((s.shift n).kind = .operators) = (s.kind = .operators) := by
    exact propext (not_iff_not.mp (iff_of_eq (Section.isOperators_shift s.kind)))
  unfold step
  simp only [hbroken, hkind, hprogress.signed]
  split
  · exact .throw trivial
  · split
    · exact .lift (operators_moved h hprogress s)
    · refine Agree.bind (R := Eq) (operand_moved h hp hb hs) fun t _ ht => ?_
      subst ht
      exact .pure ⟨.cons (.operand _) hprogress.items, rfl, hprogress.leading⟩

/-- An expression is parsed alike behind a text without lexemes. -/
theorem expression_moved (h : c.Moved n c') (hp : MovedPieces n piece piece')
    (hb : MovedBlocks n blockPiece blockPiece')
    (hlex : Lexeme.lex c'.ambient.base 0 c.text = (Lexeme.lex c'.ambient.base 0 c'.text).map (Lexeme.shift n)) :
    Same (expression c piece blockPiece) (expression c' piece' blockPiece') := by
  have hsections : Section.ofText c.ambient.base false 0 c.text =
      (Section.ofText c'.ambient.base false 0 c'.text).map (Section.shift n) ∧
        ∀ s ∈ Section.ofText c'.ambient.base false 0 c'.text, s.Solid := by
    obtain ⟨front, rfl, htext⟩ := h.text
    have hlength : Text.byteLength c.text = Text.byteLength c'.text + Text.byteLength front := by
      rw [htext, Text.byteLength_append, Nat.add_comm]
    unfold Section.ofText
    simp only [Text.dropBytes, h.ambient, hlex, hlength]
    rcases Nat.eq_zero_or_pos (Text.byteLength c'.text) with hzero | hpos
    · have hnil : c'.text = [] := Text.eq_nil_of_byteLength hzero
      rw [hnil, Lexeme.lex, List.map_nil, Section.all_nil, Section.all_nil]
      exact ⟨rfl, List.forall_mem_nil _⟩
    · exact Section.all_shift hpos (fun l hl => Nat.lt_of_le_of_lt (Nat.zero_le _) (Lexeme.lex_bounds hl).2) false
  unfold expression
  rw [hsections.1]
  refine Agree.bind (R := Progress.Alike) (Agree.foldlM ⟨.nil, rfl, rfl⟩ fun progress progress' hprogress s hs => ?_)
    fun progress progress' hprogress => ?_
  · exact step_moved h hp hb hprogress (hsections.2 s hs)
  · obtain ⟨items, _, leading⟩ := progress
    obtain ⟨items', _, leading'⟩ := progress'
    obtain ⟨hi, -, hleading⟩ := hprogress
    simp only at hi hleading ⊢
    cases hi with
    | nil =>
      cases leading <;> cases leading' <;> simp_all
      · exact .throw trivial
      · exact .throw trivial
    | cons hi hrest => exact .lift (Flat.fold_alike hleading (List.rel_reverse (.cons hi hrest)))

end

end Parse
end Reckoner
