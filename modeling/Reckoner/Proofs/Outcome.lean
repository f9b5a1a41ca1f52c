import Mathlib.Data.List.Basic

/-! What holds of every outcome of a computation that may fail and has a state, and of the outcomes of
two such computations side by side. -/
namespace Reckoner
section
variable {ε σ τ α β γ δ : Type}

def Ends (E : ε → Prop) (r : Except ε α) (Q : α → Prop) : Prop :=
  match r with
  | .ok a => Q a
  | .error e => E e

/-- From a state in `I` the computation ends in a state in `I`, with a value in `Q` or an error in
`E`. -/
def Keeps (I : σ → Prop) (E : ε → Prop) (x : ExceptT ε (StateM σ) α) (Q : α → Prop) : Prop :=
  ∀ s, I s → I (x.run.run s).2 ∧ Ends E (x.run.run s).1 Q

abbrev Always (E : ε → Prop) (x : ExceptT ε (StateM σ) α) (Q : α → Prop) : Prop :=
  Keeps (fun _ => True) E x Q

def Coincide (E : ε → ε → Prop) (R : α → β → Prop) : Except ε α → Except ε β → Prop
  | .ok a, .ok b => R a b
  | .error e, .error e' => E e e'
  | _, _ => False

/-- From states in `S` both computations end in states in `S`, both with values in `R` or both with
errors in `E`. -/
def Agree (S : σ → τ → Prop) (E : ε → ε → Prop) (x : ExceptT ε (StateM σ) α)
    (y : ExceptT ε (StateM τ) β) (R : α → β → Prop) : Prop :=
  ∀ s t, S s t → S (x.run.run s).2 (y.run.run t).2 ∧ Coincide E R (x.run.run s).1 (y.run.run t).1

theorem run_bind (x : ExceptT ε (StateM σ) α) (f : α → ExceptT ε (StateM σ) β) (s : σ) :
    (x >>= f).run.run s =
      match (x.run.run s).1 with
      | .ok a => (f a).run.run (x.run.run s).2
      | .error e => (.error e, (x.run.run s).2) := by
  change (ExceptT.bindCont f (x.run.run s).1).run (x.run.run s).2 = _
  cases (x.run.run s).1 <;> rfl

theorem mapM_congr {m : Type → Type} [Monad m] [LawfulMonad m] {f g : γ → m α} {l : List γ}
    (h : ∀ c ∈ l, f c = g c) : l.mapM f = l.mapM g := by
  induction l with
  | nil => rfl
  | cons c l ih =>
    rw [List.mapM_cons, List.mapM_cons, h c List.mem_cons_self, ih fun d hd => h d (List.mem_cons_of_mem _ hd)]

theorem foldlM_congr {m : Type → Type} [Monad m] {f g : α → γ → m α} {l : List γ}
    (h : ∀ a, ∀ c ∈ l, f a c = g a c) (a : α) : l.foldlM f a = l.foldlM g a := by
  induction l generalizing a with
  | nil => rfl
  | cons c l ih =>
    rw [List.foldlM_cons, List.foldlM_cons, h a c List.mem_cons_self]
    exact congrArg _ (funext fun b => ih (fun a d hd => h a d (List.mem_cons_of_mem _ hd)) b)

/-- A loop over numbers, as a fold. -/
theorem forIn_range' {m : Type → Type} [Monad m] [LawfulMonad m] (first stop : Nat) (f : α → Nat → m α) (a : α) :
    (forIn [first:stop] a fun k a => ForInStep.yield <$> f a k) = (List.range' first (stop - first)).foldlM f a := by
  rw [Std.Legacy.Range.forIn_eq_forIn_range']
  simp [Std.Legacy.Range.size]

theorem forIn_range {m : Type → Type} [Monad m] [LawfulMonad m] (n : Nat) (f : α → Nat → m α) (a : α) :
    (forIn [:n] a fun k a => ForInStep.yield <$> f a k) = (List.range n).foldlM f a := by
  rw [List.range_eq_range', forIn_range', Nat.sub_zero]

namespace Ends
variable {E : ε → Prop} {P Q : α → Prop} {R : β → Prop} {r : Except ε α} {f : α → Except ε β}

theorem bind (hr : Ends E r Q) (hf : ∀ a, Q a → Ends E (f a) R) : Ends E (r >>= f) R := by
  cases r with
  | ok a => exact hf a hr
  | error e => exact hr

theorem mono (hr : Ends E r Q) (h : ∀ a, Q a → P a) : Ends E r P := by
  cases r with
  | ok a => exact h a hr
  | error e => exact hr

theorem ite {c : Prop} [Decidable c] {r' : Except ε α} (h : c → Ends E r Q) (h' : ¬c → Ends E r' Q) :
    Ends E (if c then r else r') Q := by
  by_cases hc : c
  · rw [if_pos hc]
    exact h hc
  · rw [if_neg hc]
    exact h' hc

theorem map {g : α → β} (hr : Ends E r fun a => R (g a)) : Ends E (g <$> r) R := by
  cases r with
  | ok a => exact hr
  | error e => exact hr

theorem mapM {g : γ → Except ε α} {l : List γ} (h : ∀ c ∈ l, Ends E (g c) Q) :
    Ends E (l.mapM g) fun as => as.length = l.length ∧ ∀ a ∈ as, Q a := by
  induction l with
  | nil => exact ⟨rfl, by simp⟩
  | cons c l ih =>
    rw [List.mapM_cons]
    refine (h c List.mem_cons_self).bind fun a ha => ?_
    refine (ih fun d hd => h d (List.mem_cons_of_mem _ hd)).bind fun as has => ?_
    exact ⟨by simp [has.1], by simpa using ⟨ha, has.2⟩⟩

theorem arrayMapM {g : γ → Except ε α} {l : Array γ} (h : ∀ c, Ends E (g c) Q) :
    Ends E (l.mapM g) fun _ => True := by
  rw [Array.mapM_eq_mapM_toList]
  exact map ((mapM fun c _ => h c).mono fun _ _ => trivial)

theorem foldlM {g : α → γ → Except ε α} {l : List γ} {a : α} (ha : Q a)
    (h : ∀ a, Q a → ∀ c ∈ l, Ends E (g a c) Q) : Ends E (l.foldlM g a) Q := by
  induction l generalizing a with
  | nil => exact ha
  | cons c l ih =>
    rw [List.foldlM_cons]
    refine (h a ha c List.mem_cons_self).bind fun b hb => ?_
    exact ih hb fun b hb d hd => h b hb d (List.mem_cons_of_mem _ hd)

/-- Two folds that take the same steps from where an invariant holds. -/
theorem foldlM_congr {f g : α → γ → Except ε α} {l : List γ} {a : α} (ha : Q a)
    (h : ∀ a, Q a → ∀ c ∈ l, f a c = g a c ∧ Ends E (g a c) Q) :
    l.foldlM f a = l.foldlM g a ∧ Ends E (l.foldlM g a) Q := by
  induction l generalizing a with
  | nil => exact ⟨rfl, ha⟩
  | cons c l ih =>
    obtain ⟨heq, hends⟩ := h a ha c List.mem_cons_self
    rw [List.foldlM_cons, List.foldlM_cons, heq]
    cases hg : g a c with
    | error e =>
      rw [hg] at hends
      exact ⟨rfl, hends⟩
    | ok b =>
      rw [hg] at hends
      exact ih hends fun b hb d hd => h b hb d (List.mem_cons_of_mem _ hd)

end Ends

namespace Keeps
variable {I : σ → Prop} {E : ε → Prop} {P Q : α → Prop} {R : β → Prop}
  {x : ExceptT ε (StateM σ) α} {f : α → ExceptT ε (StateM σ) β}

theorem pure {a : α} (h : Q a) : Keeps I E (Pure.pure a) Q := fun _ hs => ⟨hs, h⟩

theorem throw {e : ε} (h : E e) : Keeps I E (MonadExcept.throw e : ExceptT ε (StateM σ) α) Q :=
  fun _ hs => ⟨hs, h⟩

theorem bind (hx : Keeps I E x Q) (hf : ∀ a, Q a → Keeps I E (f a) R) : Keeps I E (x >>= f) R := by
  intro s hs
  obtain ⟨ht, h⟩ := hx s hs
  rw [run_bind]
  split
  · rename_i ha
    rw [ha] at h
    exact hf _ h _ ht
  · rename_i he
    rw [he] at h
    exact ⟨ht, h⟩

/-- What is done with a value matters only for the values there can be. -/
theorem bind_congr {g : α → ExceptT ε (StateM σ) β} (hx : Always E x Q) (h : ∀ a, Q a → f a = g a) :
    x >>= f = x >>= g := by
  refine ExceptT.ext (StateT.ext fun s => ?_)
  have hvalue := (hx s trivial).2
  change (x >>= f).run.run s = (x >>= g).run.run s
  rw [run_bind, run_bind]
  cases hr : (x.run.run s).1 with
  | error e => rfl
  | ok a =>
    rw [hr] at hvalue
    exact congrArg (fun y : ExceptT ε (StateM σ) β => y.run.run _) (h a hvalue)

theorem mono (hx : Keeps I E x Q) (h : ∀ a, Q a → P a) : Keeps I E x P :=
  fun s hs => ⟨(hx s hs).1, (hx s hs).2.mono h⟩

theorem map {g : α → β} (hx : Keeps I E x fun a => R (g a)) : Keeps I E (g <$> x) R := by
  rw [map_eq_pure_bind]
  exact hx.bind fun _ h => pure h

theorem ite {c : Prop} [Decidable c] {y : ExceptT ε (StateM σ) α} (h : c → Keeps I E x Q)
    (h' : ¬c → Keeps I E y Q) : Keeps I E (if c then x else y) Q := by
  by_cases hc : c
  · rw [if_pos hc]
    exact h hc
  · rw [if_neg hc]
    exact h' hc

/-- A result that does not hang on the state. -/
theorem lift {r : Except ε α} (h : Ends E r Q) :
    Keeps I E (ExceptT.mk (Pure.pure r : StateM σ (Except ε α))) Q := fun _ hs => ⟨hs, h⟩

theorem mapM {g : γ → ExceptT ε (StateM σ) α} {l : List γ} (h : ∀ c ∈ l, Keeps I E (g c) Q) :
    Keeps I E (l.mapM g) fun as => as.length = l.length ∧ ∀ a ∈ as, Q a := by
  induction l with
  | nil => exact pure ⟨rfl, by simp⟩
  | cons c l ih =>
    rw [List.mapM_cons]
    refine (h c List.mem_cons_self).bind fun a ha => ?_
    refine (ih fun d hd => h d (List.mem_cons_of_mem _ hd)).bind fun as has => ?_
    exact pure ⟨by simp [has.1], by simpa using ⟨ha, has.2⟩⟩

theorem foldlM {g : α → γ → ExceptT ε (StateM σ) α} {l : List γ} {a : α} (ha : Q a)
    (h : ∀ a, Q a → ∀ c ∈ l, Keeps I E (g a c) Q) : Keeps I E (l.foldlM g a) Q := by
  induction l generalizing a with
  | nil => exact pure ha
  | cons c l ih =>
    rw [List.foldlM_cons]
    refine (h a ha c List.mem_cons_self).bind fun b hb => ?_
    exact ih hb fun b hb d hd => h b hb d (List.mem_cons_of_mem _ hd)

/-- What each step tells about its element holds of all elements in the end. -/
theorem foldlM_forall {F : γ → Prop} {g : α → γ → ExceptT ε (StateM σ) α} {l : List γ}
    (h : ∀ a, ∀ c ∈ l, Keeps I E (g a c) fun _ => F c) (a : α) :
    Keeps I E (l.foldlM g a) fun _ => ∀ c ∈ l, F c := by
  induction l generalizing a with
  | nil => exact pure nofun
  | cons c l ih =>
    rw [List.foldlM_cons]
    refine (h a c List.mem_cons_self).bind fun b hc => ?_
    refine (ih (fun b d hd => h b d (List.mem_cons_of_mem _ hd)) b).mono fun _ hl => ?_
    exact List.forall_mem_cons.mpr ⟨hc, hl⟩

theorem mapM_forall {F : γ → Prop} {g : γ → ExceptT ε (StateM σ) α} {l : List γ}
    (h : ∀ c ∈ l, Keeps I E (g c) fun _ => F c) : Keeps I E (l.mapM g) fun _ => ∀ c ∈ l, F c := by
  induction l with
  | nil => exact pure nofun
  | cons c l ih =>
    rw [List.mapM_cons]
    refine (h c List.mem_cons_self).bind fun a hc => ?_
    refine (ih fun d hd => h d (List.mem_cons_of_mem _ hd)).bind fun as hl => ?_
    exact pure (List.forall_mem_cons.mpr ⟨hc, hl⟩)

theorem mapM_forall₂ {F : γ → α → Prop} {g : γ → ExceptT ε (StateM σ) α} {l : List γ}
    (h : ∀ c ∈ l, Keeps I E (g c) (F c)) : Keeps I E (l.mapM g) (List.Forall₂ F l) := by
  induction l with
  | nil => exact pure .nil
  | cons c l ih =>
    rw [List.mapM_cons]
    refine (h c List.mem_cons_self).bind fun a ha => ?_
    refine (ih fun d hd => h d (List.mem_cons_of_mem _ hd)).bind fun as has => ?_
    exact pure (.cons ha has)

theorem and {R : α → Prop} (hx : Keeps I E x Q) (hx' : Keeps I E x R) :
    Keeps I E x fun a => Q a ∧ R a := by
  intro s hs
  obtain ⟨ht, h⟩ := hx s hs
  have h' := (hx' s hs).2
  refine ⟨ht, ?_⟩
  cases hr : (x.run.run s).1 with
  | ok a =>
    rw [hr] at h h'
    exact ⟨h, h'⟩
  | error e =>
    rw [hr] at h
    exact h

end Keeps

/-- What a computation returns, it returns from some state. -/
theorem Keeps.returned (x : ExceptT ε (StateM σ) α) :
    Always (fun _ => True) x fun a => ∃ s, (x.run.run s).1 = .ok a := by
  refine fun s _ => ⟨trivial, ?_⟩
  cases hr : (x.run.run s).1 with
  | ok a => exact ⟨s, hr⟩
  | error e => exact trivial

theorem Coincide.mono {E : ε → ε → Prop} {R Q : α → β → Prop} {r : Except ε α} {r' : Except ε β}
    (hr : Coincide E R r r') (h : ∀ a b, R a b → Q a b) : Coincide E Q r r' := by
  cases r <;> cases r'
  · exact hr
  · exact hr
  · exact hr
  · exact h _ _ hr

namespace Coincide
variable {E : ε → ε → Prop} {R : α → β → Prop} {T : γ → δ → Prop} {r : Except ε α} {r' : Except ε β}

theorem map {f : α → γ} {g : β → δ} (h : Coincide E (fun a b => T (f a) (g b)) r r') :
    Coincide E T (f <$> r) (g <$> r') := by
  cases r <;> cases r' <;> exact h

theorem map_left {T : γ → β → Prop} {f : α → γ} (h : Coincide E (fun a b => T (f a) b) r r') :
    Coincide E T (f <$> r) r' := by
  cases r <;> cases r' <;> exact h

theorem bind {f : α → Except ε γ} {g : β → Except ε δ} (h : Coincide E R r r')
    (hf : ∀ a b, R a b → Coincide E T (f a) (g b)) : Coincide E T (r >>= f) (r' >>= g) := by
  cases r <;> cases r'
  · exact h
  · exact h.elim
  · exact h.elim
  · exact hf _ _ h

theorem ite {c : Prop} [Decidable c] {q : Except ε α} {q' : Except ε β} (h : c → Coincide E R r r')
    (h' : ¬c → Coincide E R q q') : Coincide E R (if c then r else q) (if c then r' else q') := by
  by_cases hc : c
  · rw [if_pos hc, if_pos hc]
    exact h hc
  · rw [if_neg hc, if_neg hc]
    exact h' hc

theorem ends {Q : α → Prop} (h : Coincide E R r r') (hQ : ∀ a b, R a b → Q a) : Ends (fun _ => True) r Q := by
  cases r <;> cases r'
  · exact trivial
  · exact trivial
  · exact h.elim
  · exact hQ _ _ h

theorem and_ends {P : ε → Prop} {Q : α → Prop} (h : Coincide E R r r') (hQ : Ends P r Q) :
    Coincide E (fun a b => Q a ∧ R a b) r r' := by
  cases r <;> cases r'
  · exact h
  · exact h.elim
  · exact h.elim
  · exact ⟨hQ, h⟩

/-- What is done with results that correspond comes to the same. -/
theorem bind_eq {f : α → Except ε γ} {g : β → Except ε γ} (h : Coincide Eq R r r') (hf : ∀ a b, R a b → f a = g b) :
    r >>= f = r' >>= g := by
  cases r <;> cases r'
  · exact congrArg Except.error h
  · exact h.elim
  · exact h.elim
  · exact hf _ _ h

theorem mapM {f : γ → Except ε α} {g : γ → Except ε β} {l : List γ} (h : ∀ c ∈ l, Coincide E R (f c) (g c)) :
    Coincide E (List.Forall₂ R) (l.mapM f) (l.mapM g) := by
  induction l with
  | nil => exact List.Forall₂.nil
  | cons c l ih =>
    rw [List.mapM_cons, List.mapM_cons]
    refine (h c List.mem_cons_self).bind fun a b hab => ?_
    exact (ih fun d hd => h d (List.mem_cons_of_mem _ hd)).bind fun as bs has => List.Forall₂.cons hab has

theorem foldlM {f g : α → γ → Except ε α} {l : List γ} (h : ∀ a, ∀ c ∈ l, Coincide E Eq (f a c) (g a c))
    (a : α) : Coincide E Eq (l.foldlM f a) (l.foldlM g a) := by
  induction l generalizing a with
  | nil => exact rfl
  | cons c l ih =>
    rw [List.foldlM_cons, List.foldlM_cons]
    refine (h a c List.mem_cons_self).bind fun b _ hb => ?_
    exact hb ▸ ih (fun a d hd => h a d (List.mem_cons_of_mem _ hd)) b

end Coincide

namespace Agree
variable {S : σ → τ → Prop} {E : ε → ε → Prop} {Q R : α → β → Prop} {T : γ → δ → Prop}
  {x : ExceptT ε (StateM σ) α} {y : ExceptT ε (StateM τ) β}
  {f : α → ExceptT ε (StateM σ) γ} {g : β → ExceptT ε (StateM τ) δ}

theorem pure {a : α} {b : β} (h : R a b) : Agree S E (Pure.pure a) (Pure.pure b) R :=
  fun _ _ hs => ⟨hs, h⟩

theorem throw {e e' : ε} (h : E e e') :
    Agree S E (MonadExcept.throw e : ExceptT ε (StateM σ) α)
      (MonadExcept.throw e' : ExceptT ε (StateM τ) β) R :=
  fun _ _ hs => ⟨hs, h⟩

theorem bind (hx : Agree S E x y R) (hf : ∀ a b, R a b → Agree S E (f a) (g b) T) :
    Agree S E (x >>= f) (y >>= g) T := by
  intro s t hs
  obtain ⟨hs', h⟩ := hx s t hs
  rw [run_bind, run_bind]
  cases ha : (x.run.run s).1 <;> cases hb : (y.run.run t).1 <;> rw [ha, hb] at h
  · exact ⟨hs', h⟩
  · exact h.elim
  · exact h.elim
  · exact hf _ _ h _ _ hs'

theorem mono (hx : Agree S E x y R) (h : ∀ a b, R a b → Q a b) : Agree S E x y Q :=
  fun s t hs => ⟨(hx s t hs).1, (hx s t hs).2.mono h⟩

theorem map {k : α → γ} {k' : β → δ} (hx : Agree S E x y fun a b => T (k a) (k' b)) :
    Agree S E (k <$> x) (k' <$> y) T := by
  rw [map_eq_pure_bind, map_eq_pure_bind]
  exact hx.bind fun _ _ h => pure h

theorem mapM {f : γ → ExceptT ε (StateM σ) α} {g : δ → ExceptT ε (StateM τ) α} {k : δ → γ} {l : List δ}
    (h : ∀ d ∈ l, Agree S E (f (k d)) (g d) Eq) : Agree S E ((l.map k).mapM f) (l.mapM g) Eq := by
  induction l with
  | nil => exact pure rfl
  | cons d l ih =>
    rw [List.map_cons, List.mapM_cons, List.mapM_cons]
    refine (h d List.mem_cons_self).bind fun a _ ha => ?_
    refine (ih fun e he => h e (List.mem_cons_of_mem _ he)).bind fun as _ has => ?_
    exact pure (by rw [ha, has])

theorem foldlM {f : α → γ → ExceptT ε (StateM σ) α} {g : β → δ → ExceptT ε (StateM τ) β} {k : δ → γ}
    {l : List δ} {a : α} {b : β} (hab : R a b) (h : ∀ a b, R a b → ∀ d ∈ l, Agree S E (f a (k d)) (g b d) R) :
    Agree S E ((l.map k).foldlM f a) (l.foldlM g b) R := by
  induction l generalizing a b with
  | nil => exact pure hab
  | cons d l ih =>
    rw [List.map_cons, List.foldlM_cons, List.foldlM_cons]
    refine (h a b hab d List.mem_cons_self).bind fun a b hab => ?_
    exact ih hab fun a b hab e he => h a b hab e (List.mem_cons_of_mem _ he)

theorem ite {c : Prop} [Decidable c] {x' : ExceptT ε (StateM σ) α} {y' : ExceptT ε (StateM τ) β}
    (h : c → Agree S E x y R) (h' : ¬c → Agree S E x' y' R) :
    Agree S E (if c then x else x') (if c then y else y') R := by
  by_cases hc : c
  · rw [if_pos hc, if_pos hc]
    exact h hc
  · rw [if_neg hc, if_neg hc]
    exact h' hc

/-- Results that do not hang on the states. -/
theorem lift {r : Except ε α} {r' : Except ε β} (h : Coincide E R r r') :
    Agree S E (ExceptT.mk (Pure.pure r : StateM σ (Except ε α)))
      (ExceptT.mk (Pure.pure r' : StateM τ (Except ε β))) R :=
  fun _ _ hs => ⟨hs, h⟩

/-- What the second computation returns, the first one returns too. -/
theorem run_eq {x y : ExceptT ε (StateM σ) α} (h : Agree Eq E x y Eq) {s s' : σ} {a : α}
    (hy : y.run.run s = (.ok a, s')) : x.run.run s = (.ok a, s') := by
  obtain ⟨hstate, hresult⟩ := h s s rfl
  rw [hy] at hstate hresult
  cases hx : (x.run.run s).1 with
  | error e =>
    rw [hx] at hresult
    exact hresult.elim
  | ok b =>
    rw [hx] at hresult
    exact Prod.ext (hx.trans (congrArg _ hresult)) hstate

/-- One computation from one state. -/
theorem self (hE : ∀ e, E e e) (x : ExceptT ε (StateM σ) α) : Agree Eq E x x Eq := by
  rintro s _ rfl
  refine ⟨rfl, ?_⟩
  cases (x.run.run s).1 with
  | ok => exact rfl
  | error e => exact hE e

end Agree
end
end Reckoner
