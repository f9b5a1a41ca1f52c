import Reckoner.Proofs.Closures.Distinct
import Reckoner.Proofs.Closures.Layout
import Reckoner.Proofs.Pieces
import Reckoner.Proofs.Scoping.DefiniteAssignment

/-! Anonymous functions read names lexically. The names of the parameters, those around and the captured values are
laid out alike by the parser, at the making of the function and at its call. -/
namespace Reckoner

/-- In the frame of a call, in the scope of the body that is called, the parameters have the values of the arguments
and all other names in sight those that they had around; no other name is in sight. -/
structure Scope.ReadsLexically (s : Scope) (frame : Frame) (params : List Text) (args : List Value) (inner : Scope)
    (called : Frame) : Prop where
  argument {j : Nat} {name : Text} {v : Value} : params[j]? = some name → args[j]? = some v →
    called.Denotes inner name v
  captured {name : Text} {v : Value} : name ∉ params → frame.Denotes s name v → called.Denotes inner name v
  denotes {name : Text} : name ∈ s.params ∨ name ∈ s.locals → ∃ v, frame.Denotes s name v
  resolves {env : Environment} {ambient : Ambient} {name : Text} (position : Nat) : ¬ambient.ReadsUnit env name →
    ((∃ t, inner.resolve env ambient name position = .ok t ∧ t.IsFrameSlot) ↔
      name ∈ params ∨ name ∈ s.params ∨ name ∈ s.locals)

private theorem Frame.Matches.readsLexically {frame : Frame} {s : Scope} (h : frame.Matches s)
    (hlocals : s.locals.Nodup)
    {params : List Text} (hparams : params.Nodup) {args : List Value} (hargs : args.length = params.length)
    (locals : List Value) :
    s.ReadsLexically frame params args (.lambda params s) (frame.called s args locals) where
  argument := h.denotes_param hargs locals hparams
  captured := h.denotes_captured hlocals hargs locals
  denotes := h.denotes hlocals
  resolves position hunit := by
    rw [Scope.resolve_isFrameSlot_iff _ hunit]
    simp only [Scope.lambda, List.mem_append, List.not_mem_nil, or_false, or_assoc]

/-- A name was bound to a value in a scope around, and since then it was neither bound nor assigned to: behind it
lie further declarations, and calls of functions made where it had the value. -/
inductive Frame.Holds (name : Text) (v : Value) : Scope → Frame → Prop
  | bound {s : Scope} {frame : Frame} (h : frame.Denotes s name v) : Holds name v s frame
  | later {s s' : Scope} {frame frame' : Frame} (h : Holds name v s frame) (hs : s.Extends s')
    (hlocals : s'.locals.Nodup) (hkept : ∀ t, s.frameSlot? name = some t → frame'.value? t = frame.value? t) :
    Holds name v s' frame'
  | called {s : Scope} {frame : Frame} {params : List Text} {args : List Value} (h : Holds name v s frame)
    (hlocals : s.locals.Nodup) (hmatches : frame.Matches s) (hname : name ∉ params)
    (hargs : args.length = params.length) (locals : List Value) :
    Holds name v (.lambda params s) (frame.called s args locals)

/-- However deep functions are nested, a name has the value that the innermost one to bind it gave it. -/
private theorem Frame.Holds.denotes {name : Text} {v : Value} {s : Scope} {frame : Frame} (h : Holds name v s frame) :
    frame.Denotes s name v := by
  induction h with
  | bound h => exact h
  | later _ hs hlocals hkept ih =>
    obtain ⟨t, ht, hv⟩ := ih.value?
    exact denotes_of_value? (hs.frameSlot? hlocals ht) ((hkept t ht).trans hv)
  | called _ hlocals hmatches hname hargs locals ih => exact hmatches.denotes_captured hlocals hargs locals hname ih

/-- The parser makes of an anonymous function its parameters, and a body that is parsed with them and all that is in
sight around them. -/
private theorem Parse.lambda_function (c : Context) (start arrow : Nat) (braced : Bool) (stop : Nat) :
    Always (fun _ => True) (lambda c c.piece c.blockPiece start arrow braced stop) fun t =>
      ∃ f, t = .function f c.scope.captureWidth ∧
        readParams (c.offset + start) (Text.slice c.text start arrow) = .ok f.params ∧ f.params.Nodup ∧
        f.body.AcceptedIn c.env (.lambda f.params c.scope) := by
  have hparams : Ends (fun _ => True) (readParams (c.offset + start) (Text.slice c.text start arrow)) fun params =>
      readParams (c.offset + start) (Text.slice c.text start arrow) = .ok params ∧ params.Nodup := by
    have hnodup : Ends (fun _ => True) (readParams (c.offset + start) (Text.slice c.text start arrow)) List.Nodup :=
      readParams_nodup trivial (fun _ => trivial) _
    revert hnodup
    cases readParams (c.offset + start) (Text.slice c.text start arrow) with
    | ok params => exact fun hnodup => ⟨rfl, hnodup⟩
    | error e => exact fun _ => trivial
  unfold lambda
  refine (Keeps.lift hparams).bind fun params hread => ?_
  have hfunction (body : Block) (hbody : body.AcceptedIn c.env (.lambda params c.scope)) :
      Always (fun _ => True) (do return Tree.function { label := ← freshLabel, params, body } c.scope.captureWidth)
        fun t => ∃ f, t = .function f c.scope.captureWidth ∧
          readParams (c.offset + start) (Text.slice c.text start arrow) = .ok f.params ∧ f.params.Nodup ∧
          f.body.AcceptedIn c.env (.lambda f.params c.scope) :=
    freshLabel_always.bind fun label _ => .pure ⟨⟨label, params, body⟩, rfl, hread.1, hread.2, hbody⟩
  cases braced with
  | true =>
    refine (Keeps.map ((Keeps.returned _).mono ?_)).bind hfunction
    rintro ⟨code, last⟩ ⟨supply, hcode⟩
    exact .braced hcode
  | false =>
    refine (Keeps.map ((Keeps.returned _).mono ?_)).bind hfunction
    rintro t ⟨supply, ht⟩
    exact .bare ht

namespace Eval

/-- A parse goes on only in scopes whose local variables differ. In these the anonymous functions that it makes read
names lexically: called with arguments, behind which stand the values captured in a frame that matches the scope, the
parameters have the values of the arguments, the other names in sight have those that they had in that frame, and no
other name has a slot; so it is however deep such functions are nested. -/
theorem closures_read_lexically :
    (∀ alike env t offset s, s.locals.Nodup →
      (∀ ambient, Watched.parseExpression alike env t offset s ambient = parseExpression env t offset s ambient) ∧
        Watched.parseBlock alike env t offset s = parseBlock env t offset s) ∧
    (∀ c : Parse.Context,
      parseExpression c.env c.text c.offset c.scope c.ambient = Parse.expression c c.piece c.blockPiece) ∧
    (∀ c : Parse.Context, c.scope.locals.Nodup → ∀ start arrow braced stop supply supply' t,
      (Parse.lambda c c.piece c.blockPiece start arrow braced stop).run.run supply = (.ok t, supply') →
      ∃ f, t = .function f c.scope.captureWidth ∧
        readParams (c.offset + start) (Text.slice c.text start arrow) = .ok f.params ∧
        f.body.AcceptedIn c.env (.lambda f.params c.scope) ∧
        ∀ frame : Frame, frame.Matches c.scope → ∃ captured, (∀ m, tree m frame t = pure (.function f captured)) ∧
          ∀ args : List Value, args.length = f.params.length →
            (∀ m, callLambda m f captured args = m.invoke f.body (args ++ captured)) ∧
            ∀ locals, c.scope.ReadsLexically frame f.params args (.lambda f.params c.scope)
              ⟨args ++ captured, locals⟩) ∧
    ∀ name v s frame, Frame.Holds name v s frame → frame.Denotes s name v := by
  refine ⟨fun alike env t offset s hs => ?_, parseExpression_eq,
    fun c hc start arrow braced stop supply supply' t ht => ?_, fun name v s frame h => h.denotes⟩
  · exact ⟨Watched.parseExpression_eq alike env t offset hs, Watched.parseBlock_eq alike env t offset hs⟩
  · have hmade := (Parse.lambda_function c start arrow braced stop supply trivial).2
    rw [ht] at hmade
    obtain ⟨f, rfl, hread, hparams, hbody⟩ := hmade
    refine ⟨f, rfl, hread, hbody, fun frame hframe => ⟨frame.capture c.scope.captureWidth, fun m => ?_, ?_⟩⟩
    · rw [tree]
    · intro args hargs
      exact ⟨fun m => if_pos hargs, hframe.readsLexically hc hparams hargs⟩

/-- A function that takes the name of a local variable for its first parameter, made in a frame and called; and one
that is made in the frame of the call. -/
theorem closures_read_lexically_of_shadowing :
    let c : Parse.Context :=
      { env := {}
        scope := { params := [['x']], locals := [['y']], frameSize := 1 }
        ambient := {}
        text := "(y,z)=>x".toList
        offset := 0 }
    let f : Lambda := ⟨0, [['y'], ['z']], .returning (.argument 2)⟩
    let frame : Frame := ⟨[.string ['a']], [.string ['b']]⟩
    let called : Frame := ⟨[.string ['c'], .string ['d'], .string ['a'], .string ['b']], []⟩
    let inner := Scope.lambda f.params c.scope
    c.scope.locals.Nodup ∧
      (Parse.lambda c c.piece c.blockPiece 0 5 false 8).run.run {} = (.ok (.function f 2), { nextLabel := 1 }) ∧
      frame.Matches c.scope ∧ called.Denotes inner ['y'] (.string ['c']) ∧ called.Denotes inner ['z'] (.string ['d']) ∧
      called.Denotes inner ['x'] (.string ['a']) ∧
      (called.called inner [.string ['e']] []).Denotes (.lambda [['w']] inner) ['x'] (.string ['a']) := by
  intro c f frame called inner
  have hlocals : c.scope.locals.Nodup := List.nodup_singleton _
  have hrun : (Parse.lambda c c.piece c.blockPiece 0 5 false 8).run.run {} =
      (.ok (.function f 2), { nextLabel := 1 }) := by
    unfold Parse.Context.piece parseExpression
    with_unfolding_all rfl
  have hmatches : frame.Matches c.scope := ⟨rfl, Nat.le_refl 1⟩
  have hx : frame.Denotes c.scope ['x'] (.string ['a']) := Frame.denotes_of_value? rfl rfl
  obtain ⟨-, -, hlexical, hnested⟩ := closures_read_lexically
  obtain ⟨g, hg, -, -, hcalls⟩ := hlexical c hlocals 0 5 false 8 _ _ _ hrun
  obtain ⟨rfl, -⟩ := Tree.function.inj hg
  obtain ⟨captured, htree, hcall⟩ := hcalls frame hmatches
  have hvalue := congrArg (fun x : Eval Value => (x.run.run #[]).1) (htree ({} : Environment).machine)
  rw [tree] at hvalue
  obtain ⟨-, rfl⟩ := Value.function.inj (Except.ok.inj hvalue)
  obtain ⟨-, hreads⟩ := hcall [.string ['c'], .string ['d']] rfl
  have hread := hreads []
  have hcaptured := hread.captured (by decide) hx
  have hheld : Frame.Holds ['x'] (.string ['a']) (.lambda [['w']] inner) (called.called inner [.string ['e']] []) :=
    .called (.bound hcaptured) List.nodup_nil ⟨rfl, Nat.zero_le _⟩ (show ['x'] ∉ [['w']] by decide) rfl []
  exact ⟨hlocals, hrun, hmatches, hread.argument (j := 0) rfl rfl, hread.argument (j := 1) rfl rfl, hcaptured,
    hnested _ _ _ _ hheld⟩

end Eval
end Reckoner
