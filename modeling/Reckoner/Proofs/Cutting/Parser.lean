import Reckoner.Proofs.Cutting.Statements
import Reckoner.Proofs.Outcome
import Reckoner.Proofs.Pieces

/-! The parser with a check at every cut and at every recursive call. A check that fails ends the parse with an
error of its own; no text leads to one, so every cut is in range and every call takes less text. -/
namespace Reckoner

open Text (IsCut isBoundary byteLength slice)

abbrev TextParser := (t : Text) → (place : Nat) → Scope → Ambient → Parse Tree

abbrev BlockParser := (t : Text) → (place : Nat) → Scope → Parse (Block × Scope)

namespace Checked
open Parse (Context BlockContext Progress evaluateBase freshLabel)

section
variable (torn : ParseError)

/-- The bytes from `start` up to `stop`, or the error when they cannot be cut out. -/
def cutOut (t : Text) (start stop : Nat) : Parse Text :=
  if IsCut t start stop then return slice t start stop else throw torn

/-- The value of a number literal, without the two characters that select its base and on both sides of its
exponent's letter. -/
def number (base : Nat) (t : Text) : Parse (Option Float) := do
  let marked := Numeral.markedBase base t
  let body ← if marked.isSome then cutOut torn t 2 (byteLength t) else pure t
  let (mantissa, exponent) := Numeral.splitExponent (marked.getD base) body
  if exponent.isSome then
    let _ ← cutOut torn body 0 (byteLength mantissa)
    let _ ← cutOut torn body (byteLength mantissa + 1) (byteLength body)
  return Numeral.read base t

variable (c : Context) (parse : TextParser) (parseBlock : BlockParser)

def call (start opening stop : Nat) : Parse Tree := do
  let name ← cutOut torn c.text start opening
  let inner ← cutOut torn c.text (opening + 1) (stop - 1)
  let pieces := if (Text.trim inner).isEmpty then [] else Text.splitOutside c.ambient.base .comma inner
  let callee ← Parse.ofExcept (c.scope.callee c.env name pieces.length (c.offset + start))
  let args ← pieces.mapM fun p => do
    parse (← cutOut torn inner p.1 p.2) (c.offset + opening + 1 + p.1) c.scope c.ambient
  return callee.apply args

def row (inner : Text) (place : Nat × Nat) : Parse (List (Nat × Nat)) := do
  let written ← cutOut torn inner place.1 place.2
  return (Text.splitOutside c.ambient.base .comma written).map fun p => (place.1 + p.1, place.1 + p.2)

def cell (inner : Text) (place : Nat) : Option (Nat × Nat) → Parse Tree
  | none => return .number .zero
  | some p => do
    let written ← cutOut torn inner p.1 p.2
    if (Text.trim written).isEmpty then return .number .zero
    else parse written (place + p.1) c.scope c.ambient

def vector (inner : Text) (place : Nat) : Parse Tree := do
  let rows ← (Text.splitOutside c.ambient.base .semicolon inner).mapM (row torn c inner)
  let width := (rows.map List.length).max?.getD 1
  let cells ← rows.mapM fun cells => (List.range width).mapM fun x => cell torn c parse inner place cells[x]?
  return .vector width rows.length cells.flatten

def square (start closing : Nat) (base : Option Nat) (stop : Nat) : Parse Tree := do
  let base ← match base with
    | none => pure 10
    | some first => do
      let written ← cutOut torn c.text first stop
      evaluateBase c.env (c.offset + first) (← parse written (c.offset + first) c.scope c.ambient)
  let inner ← cutOut torn c.text (start + 1) closing
  parse inner (c.offset + start + 1) c.scope { units := true, base }

def lambda (start arrow : Nat) (braced : Bool) (stop : Nat) : Parse Tree := do
  let head ← cutOut torn c.text start arrow
  let written ← cutOut torn c.text (arrow + 2) stop
  let params ← Parse.ofExcept (readParams (c.offset + start) head)
  let inner := Scope.lambda params c.scope
  let body ←
    if braced then
      let brace := Text.leadingBlank written
      let inside ← cutOut torn written (brace + 1) (byteLength written - 1)
      Prod.fst <$> parseBlock inside (c.offset + (arrow + 2 + brace) + 1) inner
    else Block.returning <$> parse written (c.offset + (arrow + 2)) inner { base := c.ambient.base }
  return .function { label := ← freshLabel, params, body } c.scope.captureWidth

def operand (s : Section) : Parse Tree := do
  let written ← cutOut torn c.text s.start s.stop
  let position := c.offset + s.start
  match s.kind with
  | .number => do
    match ← number torn c.ambient.base written with
    | some x => return .number (.real x)
    | none => throw (.invalidNumber written position)
  | .variable => Parse.ofExcept (c.scope.resolve c.env c.ambient written position)
  | .call opening => call torn c parse s.start opening s.stop
  | .parenthesis => do
    let inner ← cutOut torn written 1 (byteLength written - 1)
    parse inner (c.offset + s.start + 1) c.scope c.ambient
  | .square closing base => square torn c parse s.start closing base s.stop
  | .vector => do
    let inner ← cutOut torn written 1 (byteLength written - 1)
    vector torn c parse inner (c.offset + s.start + 1)
  | .string => do
    let inner ← cutOut torn written 1 (byteLength written - 1)
    return .literal (.string inner)
  | .function arrow braced => lambda torn c parse parseBlock s.start arrow braced s.stop
  | .operators => throw (.missingOperand position)
  | .undefined => throw (.unexpectedToken written position)

def step (progress : Progress) (s : Section) : Parse Progress := do
  if s.broken then throw (.bracketMismatch (c.offset + s.start))
  if s.kind = .operators then
    let _ ← cutOut torn c.text s.start s.stop
    Parse.ofExcept (Parse.operators c progress s)
  else
    let t ← operand torn c parse parseBlock s
    let t := if progress.signed then Flat.negate t else t
    return { progress with items := .operand t :: progress.items, signed := false }

def expression : Parse Tree :=
  match sections c.ambient.base c.text false 0 with
  | none => throw torn
  | some read => do
    let progress ← read.foldlM (step torn c parse parseBlock) {}
    match progress.items, progress.leading with
    | [], none => throw (.emptyExpression c.offset)
    | [], some position => throw (.missingOperand position)
    | items, leading => Parse.ofExcept (Flat.fold leading items.reverse)

def block (c : BlockContext) (scope : Scope) : Parse (Block × Scope) :=
  match readAll 0 c.text with
  | none => throw torn
  | some read => do
    let firstSlot := scope.locals.length
    let (actions, scope) ← Parse.statements c scope [] read
    let block : Block := ⟨actions, scope.locals.drop firstSlot, firstSlot, scope.frameSize⟩
    return (block, { scope with locals := scope.locals.take firstSlot })

end

/-- The lengths of the innermost texts around that are parsed as an expression and as a block. -/
structure Around where
  expression : Option Nat := none
  block : Option Nat := none

mutual

/-- Parses an expression. What is parsed within it is shorter; a block also is shorter than the block around. -/
def parseExpression (torn : ParseError) (env : Environment) (around : Around) (t : Text) (offset : Nat)
    (scope : Scope) (ambient : Ambient) : Parse Tree :=
  let within : Around := { around with expression := some t.length }
  expression torn { env, scope, ambient, text := t, offset }
    (fun u place scope ambient =>
      if _ : u.length < t.length then parseExpression torn env within u place scope ambient else throw torn)
    (fun u place scope =>
      if _ : u.length < t.length ∧ ∀ n ∈ around.block, u.length < n then parseBlock torn env within u place scope
      else throw torn)
termination_by (t.length, 0)

/-- Parses the inside of a code block. The blocks within it are shorter. An expression may be all of it, but it is
shorter than the expression around. -/
def parseBlock (torn : ParseError) (env : Environment) (around : Around) (t : Text) (offset : Nat) (scope : Scope) :
    Parse (Block × Scope) :=
  let within : Around := { around with block := some t.length }
  block torn
    { text := t
      offset
      expression := fun start stop scope => do
        let u ← cutOut torn t start stop
        if _ : u.length ≤ t.length ∧ ∀ n ∈ around.expression, u.length < n then
          parseExpression torn env within u (offset + start) scope {}
        else throw torn
      block := fun before stop scope => do
        let u ← cutOut torn t (before + 1) stop
        if _ : u.length < t.length then parseBlock torn env within u (offset + before + 1) scope
        else throw torn } scope
termination_by (t.length, 1)
decreasing_by
  · rename_i h
    rcases Nat.lt_or_eq_of_le h.1 with h | h
    · exact Prod.Lex.left _ _ h
    · rw [h]
      exact Prod.Lex.right _ (by decide)
  · exact Prod.Lex.left _ _ ‹_›

end

section
variable {torn : ParseError} {c : Context} {parse : TextParser} {parseBlock : BlockParser} {piece : PieceParser}
  {blockPiece : BlockPieceParser}

private theorem cutOut_eq {t : Text} {start stop : Nat} (h : IsCut t start stop) :
    cutOut torn t start stop = pure (slice t start stop) := if_pos h

/-- The letter that selects a base stands behind a zero, and both take up one byte. -/
private theorem markedBase_cut {base : Nat} {t : Text} (h : (Numeral.markedBase base t).isSome) :
    IsCut t 2 (byteLength t) := by
  unfold Numeral.markedBase at h
  split at h
  · rename_i letter rest
    obtain ⟨marked, hmarked⟩ := Option.isSome_iff_exists.mp h
    have hletter := Lexeme.utf8Size_of_markedBase hmarked
    have hfront : byteLength ['0', letter] = 2 := by
      rw [Text.byteLength_cons, Text.byteLength_cons, hletter]
      rfl
    have hmiddle := IsCut.middle ['0', letter] rest []
    rw [hfront, List.append_nil] at hmiddle
    have hwhole : byteLength ('0' :: letter :: rest) = 2 + byteLength rest := by
      rw [← hfront, ← Text.byteLength_append]
      rfl
    rw [hwhole]
    exact hmiddle
  · exact nomatch h

private theorem eq_of_cut {sought : Char → Bool} {t before after : Text}
    (h : Text.cut sought t = some (before, after)) :
    ∃ c, sought c ∧ t = before ++ c :: after := by
  induction t generalizing before with
  | nil => exact nomatch h
  | cons c t ih =>
    rw [Text.cut] at h
    split at h
    · rename_i hc
      obtain ⟨rfl, rfl⟩ := Prod.mk.inj (Option.some.inj h)
      exact ⟨c, hc, rfl⟩
    · obtain ⟨⟨rest, after'⟩, hrest, heq⟩ := Option.map_eq_some_iff.mp h
      obtain ⟨rfl, rfl⟩ := Prod.mk.inj heq
      obtain ⟨d, hd, rfl⟩ := ih hrest
      exact ⟨d, hd, rfl⟩

/-- The exponent stands behind a letter of one byte. -/
private theorem splitExponent_letter {base : Nat} {body mantissa exponent : Text}
    (h : Numeral.splitExponent base body = (mantissa, some exponent)) :
    ∃ e : Char, e.utf8Size = 1 ∧ body = mantissa ++ [e] ++ exponent := by
  unfold Numeral.splitExponent at h
  split at h
  · exact nomatch h
  · split at h
    · rename_i hcut
      obtain ⟨rfl, hexponent⟩ := Prod.mk.inj h
      obtain rfl := Option.some.inj hexponent
      obtain ⟨e, he, rfl⟩ := eq_of_cut hcut
      refine ⟨e, ?_, by simp⟩
      obtain rfl | rfl : e = 'e' ∨ e = 'E' := by simpa using he
      · rfl
      · rfl
    · exact nomatch h

private theorem splitExponent_cuts {base : Nat} {body mantissa exponent : Text}
    (h : Numeral.splitExponent base body = (mantissa, some exponent)) :
    IsCut body 0 (byteLength mantissa) ∧ IsCut body (byteLength mantissa + 1) (byteLength body) := by
  obtain ⟨e, he, rfl⟩ := splitExponent_letter h
  have hfront : byteLength (mantissa ++ [e]) = byteLength mantissa + 1 := by
    rw [Text.byteLength_append, Text.byteLength_cons, he]
    rfl
  have hmantissa := IsCut.middle [] mantissa ([e] ++ exponent)
  have hexponent := IsCut.middle (mantissa ++ [e]) exponent []
  rw [Text.byteLength_append (mantissa ++ [e]), hfront]
  rw [hfront, List.append_nil] at hexponent
  rw [List.nil_append, Text.byteLength_nil, Nat.zero_add, ← List.append_assoc] at hmantissa
  exact ⟨hmantissa, hexponent⟩

private theorem number_eq (base : Nat) (t : Text) : number torn base t = pure (Numeral.read base t) := by
  have hrest (body : Text) : (do
      let (mantissa, exponent) := Numeral.splitExponent ((Numeral.markedBase base t).getD base) body
      if exponent.isSome then
        let _ ← cutOut torn body 0 (byteLength mantissa)
        let _ ← cutOut torn body (byteLength mantissa + 1) (byteLength body)
      return Numeral.read base t : Parse (Option Float)) = pure (Numeral.read base t) := by
    rcases h : Numeral.splitExponent ((Numeral.markedBase base t).getD base) body with ⟨mantissa, _ | exponent⟩
    · rfl
    · obtain ⟨hmantissa, hexponent⟩ := splitExponent_cuts h
      simp only [Option.isSome_some, if_true]
      rw [cutOut_eq hmantissa, cutOut_eq hexponent]
      rfl
  unfold number
  simp only
  split
  · rename_i h
    rw [cutOut_eq (markedBase_cut h), pure_bind]
    exact hrest _
  · rw [pure_bind]
    exact hrest t

theorem number_bind {α : Type} (base : Nat) (t : Text) (f : Option Float → Parse α) :
    number torn base t >>= f = f (Numeral.read base t) := by
  rw [number_eq, pure_bind]

structure Agrees (c : Context) (parse : TextParser) (parseBlock : BlockParser) (piece : PieceParser)
    (blockPiece : BlockPieceParser) : Prop where
  expression {before stop : Nat} (scope : Scope) (ambient : Ambient) : IsCut c.text (before + 1) stop →
    parse (slice c.text (before + 1) stop) (c.offset + before + 1) scope ambient = piece before stop scope ambient
  block {before stop : Nat} (scope : Scope) : IsCut c.text (before + 1) stop →
    parseBlock (slice c.text (before + 1) stop) (c.offset + before + 1) scope = blockPiece before stop scope

/-- A piece of the inside of a bracket group is a piece of the text. -/
private theorem Agrees.inner (h : Agrees c parse parseBlock piece blockPiece) {before stop : Nat}
    (hcut : IsCut c.text (before + 1) stop) {p q : Nat} (hpiece : IsCut (slice c.text (before + 1) stop) p q)
    (scope : Scope) (ambient : Ambient) :
    parse (slice (slice c.text (before + 1) stop) p q) (c.offset + before + 1 + p) scope ambient =
      piece (before + p) (before + 1 + q) scope ambient := by
  obtain ⟨houter, hslice⟩ := hcut.outer hpiece
  have hplace : before + 1 + p = before + p + 1 := by omega
  have hoffset : c.offset + before + 1 + p = c.offset + (before + p) + 1 := by omega
  rw [hslice, hoffset]
  rw [hplace] at houter ⊢
  exact h.expression scope ambient houter

/-- The arguments of a call, as places in its inside. -/
private theorem argumentPieces_eq (c : Context) (before stop : Nat) :
    Parse.argumentPieces c before stop =
      (if (Text.trim (slice c.text (before + 1) stop)).isEmpty then []
        else Text.splitOutside c.ambient.base .comma (slice c.text (before + 1) stop)).map
          fun p => (before + p.1, before + 1 + p.2) := by
  unfold Parse.argumentPieces
  simp only
  split <;> rfl

private theorem call_eq (h : Agrees c parse parseBlock piece blockPiece) {start opening stop : Nat}
    (hname : IsCut c.text start opening) (hinner : IsCut c.text (opening + 1) (stop - 1)) :
    call torn c parse start opening stop = Parse.call c piece start opening stop := by
  unfold call Parse.call
  rw [cutOut_eq hname, cutOut_eq hinner, argumentPieces_eq]
  simp only [pure_bind, List.length_map, List.mapM_map]
  generalize hpieces : (if (Text.trim (slice c.text (opening + 1) (stop - 1))).isEmpty then [] else
    Text.splitOutside c.ambient.base .comma (slice c.text (opening + 1) (stop - 1))) = pieces
  have hcuts : ∀ p ∈ pieces, IsCut (slice c.text (opening + 1) (stop - 1)) p.1 p.2 := by
    intro p hp
    rw [← hpieces] at hp
    split at hp
    · exact nomatch hp
    · exact Text.splitOutside_cuts p hp
  refine bind_congr fun callee => ?_
  have hargs : (pieces.mapM fun p => do
      parse (← cutOut torn (slice c.text (opening + 1) (stop - 1)) p.1 p.2) (c.offset + opening + 1 + p.1)
        c.scope c.ambient) =
      pieces.mapM fun p => piece (opening + p.1) (opening + 1 + p.2) c.scope c.ambient := by
    refine mapM_congr fun p hp => ?_
    rw [cutOut_eq (hcuts p hp), pure_bind]
    exact h.inner hinner (hcuts p hp) c.scope c.ambient
  rw [hargs]
  rfl

/-- A cell of a vector; what is missing is zero in both. -/
private theorem cell_eq (h : Agrees c parse parseBlock piece blockPiece) {before stop : Nat}
    (hinner : IsCut c.text (before + 1) stop) (place : Option (Nat × Nat))
    (hplace : ∀ p ∈ place, IsCut (slice c.text (before + 1) stop) p.1 p.2) :
    cell torn c parse (slice c.text (before + 1) stop) (c.offset + before + 1) place =
      Parse.cell c piece (place.map fun p => (before + p.1, before + 1 + p.2)) := by
  cases place with
  | none => rfl
  | some p =>
    have hp := hplace p rfl
    obtain ⟨-, hslice⟩ := hinner.outer hp
    have hstart : before + p.1 + 1 = before + 1 + p.1 := by omega
    simp only [cell, Option.map_some, Parse.cell]
    rw [cutOut_eq hp, pure_bind, h.inner hinner hp, hstart, hslice]

def rows (c : Context) (inner : Text) : List (List (Nat × Nat)) :=
  (Text.splitOutside c.ambient.base .semicolon inner).map fun p =>
    (Text.splitOutside c.ambient.base .comma (slice inner p.1 p.2)).map fun q => (p.1 + q.1, p.1 + q.2)

private theorem rows_cuts (c : Context) (inner : Text) : ∀ cells ∈ rows c inner, ∀ q ∈ cells, IsCut inner q.1 q.2 := by
  intro cells hcells q hq
  obtain ⟨p, hp, rfl⟩ := List.mem_map.mp hcells
  obtain ⟨q, hcell, rfl⟩ := List.mem_map.mp hq
  exact ((Text.splitOutside_cuts p hp).outer (Text.splitOutside_cuts q hcell)).1

private theorem cellPieces_eq (c : Context) (before stop : Nat) :
    Parse.cellPieces c before stop =
      (rows c (slice c.text (before + 1) stop)).map (List.map fun p => (before + p.1, before + 1 + p.2)) := by
  unfold Parse.cellPieces rows
  simp only [List.map_map]
  refine List.map_congr_left fun p _ => ?_
  simp only [Function.comp_apply, List.map_map]
  refine List.map_congr_left fun q _ => ?_
  simp only [Function.comp_apply, Nat.add_assoc]

private theorem mapM_row (torn : ParseError) (c : Context) (inner : Text) :
    (Text.splitOutside c.ambient.base .semicolon inner).mapM (row torn c inner) = pure (rows c inner) := by
  have hrow : ∀ p ∈ Text.splitOutside c.ambient.base .semicolon inner, row torn c inner p = pure
      ((Text.splitOutside c.ambient.base .comma (slice inner p.1 p.2)).map fun q => (p.1 + q.1, p.1 + q.2)) := by
    intro p hp
    rw [row, cutOut_eq (Text.splitOutside_cuts p hp), pure_bind]
  rw [mapM_congr hrow, List.mapM_pure]
  rfl

private theorem vector_eq (h : Agrees c parse parseBlock piece blockPiece) {before stop : Nat}
    (hinner : IsCut c.text (before + 1) stop) :
    vector torn c parse (slice c.text (before + 1) stop) (c.offset + before + 1) =
      Parse.vector c piece before stop := by
  have hcuts := rows_cuts c (slice c.text (before + 1) stop)
  have hlength : List.length ∘ List.map (fun p : Nat × Nat => (before + p.1, before + 1 + p.2)) = List.length := by
    funext cells
    exact List.length_map _
  unfold vector Parse.vector
  rw [mapM_row, pure_bind, cellPieces_eq]
  generalize rows c (slice c.text (before + 1) stop) = read at hcuts
  simp only [List.map_map, hlength, List.length_map, List.mapM_map]
  have hcells : (read.mapM fun cells => (List.range ((read.map List.length).max?.getD 1)).mapM fun x =>
      cell torn c parse (slice c.text (before + 1) stop) (c.offset + before + 1) cells[x]?) =
      read.mapM fun cells => (List.range ((read.map List.length).max?.getD 1)).mapM fun x =>
        Parse.cell c piece (cells.map fun p => (before + p.1, before + 1 + p.2))[x]? := by
    refine mapM_congr fun cells hmem => mapM_congr fun x _ => ?_
    rw [List.getElem?_map]
    exact cell_eq h hinner _ fun p hp => hcuts cells hmem p (List.mem_of_getElem? hp)
  rw [hcells]
  rfl

private theorem square_eq (h : Agrees c parse parseBlock piece blockPiece) {start closing stop : Nat}
    {base : Option Nat}
    (hinner : IsCut c.text (start + 1) closing) (hbase : ∀ first ∈ base, 0 < first ∧ IsCut c.text first stop) :
    square torn c parse start closing base stop = Parse.square c piece start closing base stop := by
  unfold square Parse.square
  rw [cutOut_eq hinner]
  cases base with
  | none =>
    simp only [pure_bind]
    exact h.expression _ _ hinner
  | some first =>
    obtain ⟨hpos, hcut⟩ := hbase first rfl
    obtain ⟨before, rfl⟩ := Nat.exists_eq_succ_of_ne_zero (Nat.ne_of_gt hpos)
    simp only [cutOut_eq hcut, pure_bind]
    refine congr (congrArg _ (h.expression _ _ hcut)) (funext fun t => ?_)
    refine bind_congr fun base => ?_
    exact h.expression _ _ hinner

private theorem lambda_eq (h : Agrees c parse parseBlock piece blockPiece) {start arrow stop : Nat} {braced : Bool}
    (hhead : IsCut c.text start arrow) (hbody : IsCut c.text (arrow + 2) stop)
    (hinside : braced → IsCut c.text (arrow + 2 + Text.leadingBlank (slice c.text (arrow + 2) stop) + 1) (stop - 1)) :
    lambda torn c parse parseBlock start arrow braced stop =
      Parse.lambda c piece blockPiece start arrow braced stop := by
  unfold lambda Parse.lambda
  rw [cutOut_eq hhead, cutOut_eq hbody]
  simp only [pure_bind]
  refine bind_congr fun params => ?_
  cases braced with
  | true =>
    have hbrace := hinside rfl
    have hordered := hbrace.ordered
    rw [Nat.add_assoc] at hbrace
    obtain ⟨hcut, hslice⟩ := hbody.inset hbrace (by omega)
    rw [← Nat.add_assoc] at hslice hbrace
    simp only [if_true]
    rw [cutOut_eq hcut, pure_bind, hslice, h.block _ hbrace]
  | false =>
    have hparse := h.expression (Scope.lambda params c.scope) { base := c.ambient.base } hbody
    simp only [Bool.false_eq_true, if_false]
    exact congrArg (fun body : Parse Tree => do
      let body ← Block.returning <$> body
      return Tree.function { label := ← freshLabel, params, body } c.scope.captureWidth) hparse

/-- A section that can be cut out, with all that is cut out for it, is parsed alike. -/
private theorem operand_eq (h : Agrees c parse parseBlock piece blockPiece) {s : Section}
    (hs : IsCut c.text s.start s.stop)
    (hparts : s.kind.Within c.text s.start s.stop) :
    operand torn c parse parseBlock s = Parse.operand c piece blockPiece s := by
  have hinset (hinside : IsCut c.text (s.start + 1) (s.stop - 1)) :=
    hs.inset hinside (by have := hinside.ordered; omega)
  unfold operand Parse.operand
  rw [cutOut_eq hs, pure_bind]
  simp only
  cases hkind : s.kind with
  | number => exact number_bind _ _ _
  | «variable» => rfl
  | call opening =>
    rw [hkind] at hparts
    exact call_eq h hparts.1 hparts.2
  | parenthesis =>
    rw [hkind] at hparts
    obtain ⟨hcut, hslice⟩ := hinset hparts
    simp only [cutOut_eq hcut, pure_bind, hslice]
    exact h.expression _ _ hparts
  | square closing base =>
    rw [hkind] at hparts
    exact square_eq h hparts.1 hparts.2
  | vector =>
    rw [hkind] at hparts
    obtain ⟨hcut, hslice⟩ := hinset hparts
    simp only [cutOut_eq hcut, pure_bind, hslice]
    exact vector_eq h hparts
  | operators => rfl
  | function arrow braced =>
    rw [hkind] at hparts
    exact lambda_eq h hparts.1 hparts.2.1 hparts.2.2
  | string =>
    rw [hkind] at hparts
    obtain ⟨hcut, hslice⟩ := hinset hparts
    simp only [cutOut_eq hcut, pure_bind, hslice]
  | undefined => rfl

private theorem step_eq (h : Agrees c parse parseBlock piece blockPiece) (progress : Progress) {s : Section}
    (hs : s.broken = false → IsCut c.text s.start s.stop ∧ s.kind.Within c.text s.start s.stop) :
    step torn c parse parseBlock progress s = Parse.step c piece blockPiece progress s := by
  unfold step Parse.step
  cases hb : s.broken with
  | true => rfl
  | false =>
    obtain ⟨hcut, hparts⟩ := hs hb
    rw [cutOut_eq hcut, operand_eq h hcut hparts]
    rfl

private theorem expression_eq (h : Agrees c parse parseBlock piece blockPiece) :
    expression torn c parse parseBlock = Parse.expression c piece blockPiece := by
  have hsteps : (Section.ofText c.ambient.base false 0 c.text).foldlM (step torn c parse parseBlock) {} =
      (Section.ofText c.ambient.base false 0 c.text).foldlM (Parse.step c piece blockPiece) {} :=
    foldlM_congr (fun progress s hs => step_eq h progress (Section.ofText_within hs)) {}
  unfold expression Parse.expression
  rw [sections_eq (Text.isBoundary_zero c.text)]
  exact congrArg (· >>= _) hsteps

end

section
variable {torn : ParseError} {c c' : BlockContext}

structure Coincides (c c' : BlockContext) : Prop where
  text : c.text = c'.text
  offset : c.offset = c'.offset
  expression {start stop : Nat} (scope : Scope) : IsCut c'.text start stop →
    c.expression start stop scope = c'.expression start stop scope
  block {before stop : Nat} (scope : Scope) : IsCut c'.text (before + 1) stop →
    c.block before stop scope = c'.block before stop scope

private theorem body_eq (h : Coincides c c') (scope : Scope) {code : Body} (hcode : code.Within c'.text) :
    Parse.body c scope code = Parse.body c' scope code := by
  cases code with
  | missing place => simp only [Parse.body, h.offset]
  | unclosed brace => simp only [Parse.body, h.offset]
  | braced brace stop => exact h.block scope hcode
  | bare start stop =>
    obtain ⟨hpos, hcut⟩ := hcode
    obtain ⟨before, rfl⟩ := Nat.exists_eq_succ_of_ne_zero (Nat.ne_of_gt hpos)
    exact h.block scope hcut

private theorem condition_eq (h : Coincides c c') (scope : Scope) {head : Condition} (hhead : head.Within c'.text) :
    Parse.condition c scope head = Parse.condition c' scope head := by
  cases head with
  | noParenthesis found place => simp only [Parse.condition, h.offset]
  | unclosed parenthesis => simp only [Parse.condition, h.offset]
  | closed parenthesis stop => exact h.expression scope hhead

private theorem statement_eq (h : Coincides c c') (scope : Scope) (previous : Option Action) {s : Statement}
    (hs : s.Within c'.text) : Parse.statement c scope previous s = Parse.statement c' scope previous s := by
  cases s with
  | expression start stop => simp only [Parse.statement, h.expression scope hs]
  | giveBack start stop => simp only [Parse.statement, h.expression scope hs]
  | jump leaves start rest stop => simp only [Parse.statement, Parse.jump, h.text, h.offset]
  | assign name start value stop => simp only [Parse.statement, Parse.assign, h.offset, h.expression scope hs.2]
  | conditional loops head code =>
    simp only [Parse.statement, condition_eq h scope hs.1, body_eq h _ hs.2]
  | otherwise start code => simp only [Parse.statement, h.offset, body_eq h scope hs.2]
  | otherwiseIf start first alternative =>
    unfold Parse.statement
    rw [h.offset]
    cases alternative with
    | none =>
      rw [statement_eq h scope none (s := first) hs.2]
    | some second =>
      rw [statement_eq h scope none (s := first) hs.2.1]
      simp only [statement_eq h _ _ (s := second) hs.2.2]

private theorem statements_eq (h : Coincides c c') (scope : Scope) (done : List Action) {read : List (Nat × Statement)}
    (hread : ∀ s ∈ read, s.2.Within c'.text) :
    Parse.statements c scope done read = Parse.statements c' scope done read := by
  induction read generalizing scope done with
  | nil => rfl
  | cons s read ih =>
    obtain ⟨hs, hread⟩ := List.forall_mem_cons.mp hread
    unfold Parse.statements
    rw [h.offset, statement_eq h scope done.head? hs]
    simp only [ih _ _ hread]

private theorem block_eq (h : Coincides c c') (scope : Scope) : block torn c scope = Parse.block c' scope := by
  obtain ⟨hall, hwithin⟩ := Statement.readAll_checks (Text.Behind.self c'.text)
  unfold block Parse.block
  rw [h.text, hall]
  simp only
  rw [statements_eq h scope [] fun s hs => (hwithin s hs).2]

end

private theorem ne_nil_of_cut {t : Text} {before stop : Nat} (h : IsCut t (before + 1) stop) : t ≠ [] := by
  rintro rfl
  have hordered := h.ordered
  have hwithin := h.within
  rw [Text.byteLength_nil] at hwithin
  omega

mutual

/-- An expression that is not longer than the block around. -/
private theorem parseExpression_eq (torn : ParseError) (env : Environment) (around : Around) (t : Text) (offset : Nat)
    (scope : Scope) (ambient : Ambient) (hblock : ∀ n ∈ around.block, t.length ≤ n) :
    parseExpression torn env around t offset scope ambient =
      Reckoner.parseExpression env t offset scope ambient := by
  have hagrees : Agrees { env, scope, ambient, text := t, offset }
      (fun u place scope ambient =>
        if _ : u.length < t.length then
          parseExpression torn env { around with expression := some t.length } u place scope ambient
        else throw torn)
      (fun u place scope =>
        if _ : u.length < t.length ∧ ∀ n ∈ around.block, u.length < n then
          parseBlock torn env { around with expression := some t.length } u place scope
        else throw torn)
      (Context.piece { env, scope, ambient, text := t, offset })
      (Context.blockPiece { env, scope, ambient, text := t, offset }) := by
    constructor
    · intro before stop scope ambient hcut
      have hless := Text.length_slice_lt stop (Nat.succ_pos before) (ne_nil_of_cut hcut)
      rw [dif_pos hless]
      exact parseExpression_eq torn env _ _ _ scope ambient fun n hn =>
        Nat.le_trans (Nat.le_of_lt hless) (hblock n hn)
    · intro before stop scope hcut
      have hless := Text.length_slice_lt stop (Nat.succ_pos before) (ne_nil_of_cut hcut)
      rw [dif_pos ⟨hless, fun n hn => Nat.lt_of_lt_of_le hless (hblock n hn)⟩]
      refine parseBlock_eq torn env _ _ _ scope fun n hn => ?_
      obtain rfl := Option.some.inj hn
      exact hless
  rw [parseExpression, expression_eq hagrees]
  exact (Reckoner.parseExpression_eq { env, scope, ambient, text := t, offset }).symm
termination_by (t.length, 0)
decreasing_by all_goals exact Prod.Lex.left _ _ hless

/-- A block that is shorter than the expression around. -/
private theorem parseBlock_eq (torn : ParseError) (env : Environment) (around : Around) (t : Text) (offset : Nat)
    (scope : Scope) (hexpression : ∀ n ∈ around.expression, t.length < n) :
    parseBlock torn env around t offset scope = Reckoner.parseBlock env t offset scope := by
  have hcoincides : Coincides
      { text := t
        offset
        expression := fun start stop scope => do
          let u ← cutOut torn t start stop
          if _ : u.length ≤ t.length ∧ ∀ n ∈ around.expression, u.length < n then
            parseExpression torn env { around with block := some t.length } u (offset + start) scope {}
          else throw torn
        block := fun before stop scope => do
          let u ← cutOut torn t (before + 1) stop
          if _ : u.length < t.length then
            parseBlock torn env { around with block := some t.length } u (offset + before + 1) scope
          else throw torn }
      (Parse.blockContext env t offset) := by
    refine ⟨rfl, rfl, ?_, ?_⟩
    · intro start stop scope (hcut : IsCut t start stop)
      have hle := Text.length_slice_le t start stop
      simp only
      rw [cutOut_eq hcut, pure_bind, dif_pos ⟨hle, fun n hn => Nat.lt_of_le_of_lt hle (hexpression n hn)⟩]
      refine parseExpression_eq torn env _ _ _ scope {} fun n hn => ?_
      obtain rfl := Option.some.inj hn
      exact hle
    · intro before stop scope (hcut : IsCut t (before + 1) stop)
      have hless := Text.length_slice_lt stop (Nat.succ_pos before) (ne_nil_of_cut hcut)
      simp only
      rw [cutOut_eq hcut, pure_bind, dif_pos hless]
      exact parseBlock_eq torn env _ _ _ scope fun n hn => Nat.lt_trans hless (hexpression n hn)
  rw [parseBlock, block_eq hcoincides]
  exact (Reckoner.parseBlock_eq env t offset scope).symm
termination_by (t.length, 1)
decreasing_by
  · rcases Nat.lt_or_eq_of_le hle with h | h
    · exact Prod.Lex.left _ _ h
    · rw [h]
      exact Prod.Lex.right _ (by decide)
  · exact Prod.Lex.left _ _ hless

end

/-- The parser never cuts a text out of range or within a character, its loops lead forward, and what it parses
within a text is shorter: with all this checked it does the same, whatever a failed check would end it with. -/
theorem never_torn (torn : ParseError) (env : Environment) (t : Text) (offset : Nat) (scope : Scope) :
    (∀ ambient : Ambient,
      parseExpression torn env {} t offset scope ambient = Reckoner.parseExpression env t offset scope ambient) ∧
    parseBlock torn env {} t offset scope = Reckoner.parseBlock env t offset scope :=
  ⟨fun ambient => parseExpression_eq torn env {} t offset scope ambient nofun,
    parseBlock_eq torn env {} t offset scope nofun⟩

end Checked
end Reckoner
