import Shading.Proofs.Except

/-!
# Runs side by side

Two runs are parallel when both fail, or both succeed with values that are related. Runs
that are built in the same way from parallel ones are parallel.
-/

namespace Shading

variable {ε ε' α α' α'' β β' σ σ' : Type}

namespace Except

/-- Both runs fail, or both succeed with related values. -/
inductive Parallel (R : α → α' → Prop) : Except ε α → Except ε' α' → Prop where
  | ok {a : α} {a' : α'} (h : R a a') : Parallel R (.ok a) (.ok a')
  | error {e : ε} {e' : ε'} : Parallel R (.error e) (.error e')

namespace Parallel

variable {R : α → α' → Prop} {S : β → β' → Prop} {x : Except ε α} {x' : Except ε' α'}

/-- Where one run succeeds the other one does, with a related result. -/
theorem exists_of_ok (h : Parallel R x x') {a : α} (hx : x = .ok a) :
    ∃ a', x' = .ok a' ∧ R a a' := by
  cases h with
  | ok h =>
      cases hx
      exact ⟨_, rfl, h⟩
  | error => cases hx

theorem of_forall (h : ∀ a, x = .ok a → ∃ a', x' = .ok a' ∧ R a a')
    (h' : ∀ a', x' = .ok a' → ∃ a, x = .ok a) : Parallel R x x' := by
  cases x with
  | ok a =>
      obtain ⟨a', rfl, hR⟩ := h a rfl
      exact .ok hR
  | error e =>
      cases x' with
      | ok a' =>
          obtain ⟨a, ha⟩ := h' a' rfl
          cases ha
      | error e' => exact .error

theorem mono {R' : α → α' → Prop} (h : Parallel R x x') (hR : ∀ a a', R a a' → R' a a') :
    Parallel R' x x' := by
  cases h with
  | ok h => exact .ok (hR _ _ h)
  | error => exact .error

theorem symm (h : Parallel R x x') : Parallel (fun a' a => R a a') x' x := by
  cases h with
  | ok h => exact .ok h
  | error => exact .error

/-- Parallel runs go on from one to the next. -/
theorem trans {R' : α' → α'' → Prop} {R'' : α → α'' → Prop} {x'' : Except ε α''}
    (h : Parallel R x x') (h' : Parallel R' x' x'')
    (hR : ∀ a a' a'', R a a' → R' a' a'' → R'' a a'') : Parallel R'' x x'' := by
  cases h with
  | ok h =>
      cases h' with
      | ok h' => exact .ok (hR _ _ _ h h')
  | error =>
      cases h' with
      | error => exact .error

/-- The second steps are parallel where the first results are related. -/
theorem bind {f : α → Except ε β} {f' : α' → Except ε' β'} (h : Parallel R x x')
    (hf : ∀ a a', R a a' → Parallel S (f a) (f' a')) : Parallel S (x >>= f) (x' >>= f') := by
  cases h with
  | ok h => exact hf _ _ h
  | error => exact .error

/-- Two runs that give the same value. -/
theorem bindEq {y : Except ε α} {y' : Except ε' α} {f : α → Except ε β} {f' : α → Except ε' β'}
    (h : Parallel Eq y y') (hf : ∀ a, Parallel S (f a) (f' a)) :
    Parallel S (y >>= f) (y' >>= f') :=
  h.bind fun a _ ha => ha ▸ hf a

theorem ite {p : Prop} [Decidable p] {y : Except ε α} {y' : Except ε' α'}
    (h : p → Parallel R x x') (h' : ¬p → Parallel R y y') :
    Parallel R (if p then x else y) (if p then x' else y') := by
  split
  · exact h ‹_›
  · exact h' ‹_›

/-- Errors may be mapped on both sides. -/
theorem mapError {δ δ' : Type} {f : ε → δ} {f' : ε' → δ'} (h : Parallel R x x') :
    Parallel R (x.mapError f) (x'.mapError f') := by
  cases h with
  | ok h => exact .ok h
  | error => exact .error

/-- Runs over one list that give the same values. -/
theorem mapM {f : α → Except ε β} {f' : α → Except ε' β} (l : List α)
    (h : ∀ a, Parallel Eq (f a) (f' a)) : Parallel Eq (l.mapM f) (l.mapM f') := by
  induction l with
  | nil => exact .ok rfl
  | cons a rest ih =>
      rw [List.mapM_cons, List.mapM_cons]
      exact (h a).bindEq fun _ => ih.bindEq fun _ => .ok rfl

/-- Folds over a list and over its image. -/
theorem foldlM {γ : Type} {P : σ → σ' → Prop} {f : σ → γ → Except ε σ} {γ' : Type}
    {f' : σ' → γ' → Except ε' σ'} {g : γ → γ'}
    (h : ∀ s s' c, P s s' → Parallel P (f s c) (f' s' (g c))) (l : List γ) {s : σ} {s' : σ'}
    (hs : P s s') : Parallel P (l.foldlM f s) ((l.map g).foldlM f' s') := by
  induction l generalizing s s' with
  | nil => exact .ok hs
  | cons c rest ih =>
      rw [List.map_cons, List.foldlM_cons, List.foldlM_cons]
      exact (h s s' c hs).bind fun _ _ ht => ih ht

/-- A run that does not tell a value from a part of it takes values with equal parts alike. -/
theorem of_map (f : α → Except ε β) {g : α → α} (h : ∀ a, Parallel Eq (f a) (f (g a)))
    {a a' : α} (heq : g a = g a') : Parallel Eq (f a) (f a') :=
  (h a).trans (heq ▸ (h a').symm) fun _ _ _ hb hb' => hb.trans hb'.symm

end Parallel

end Except

namespace StateT

/-- From related states the runs are parallel, and the states after them are related. -/
def Parallel (P : σ → σ' → Prop) (R : α → α' → Prop) (m : StateT σ (Except ε) α)
    (m' : StateT σ' (Except ε') α') : Prop :=
  ∀ s s', P s s' → Except.Parallel (fun p p' => R p.1 p'.1 ∧ P p.2 p'.2) (m s) (m' s')

namespace Parallel

variable {P : σ → σ' → Prop} {R : α → α' → Prop} {S : β → β' → Prop}
variable {m : StateT σ (Except ε) α} {m' : StateT σ' (Except ε') α'}

theorem pure {a : α} {a' : α'} (h : R a a') :
    Parallel P R (Pure.pure a : StateT σ (Except ε) α) (Pure.pure a' : StateT σ' (Except ε') α') :=
  fun _ _ hs => .ok ⟨h, hs⟩

theorem bind {f : α → StateT σ (Except ε) β} {f' : α' → StateT σ' (Except ε') β'}
    (h : Parallel P R m m') (hf : ∀ a a', R a a' → Parallel P S (f a) (f' a')) :
    Parallel P S (m >>= f) (m' >>= f') := fun s s' hs =>
  (h s s' hs).bind fun p p' hp => hf p.1 p'.1 hp.1 p.2 p'.2 hp.2

/-- Two runs that give the same value. -/
theorem bindEq {n : StateT σ (Except ε) α} {n' : StateT σ' (Except ε') α}
    {f : α → StateT σ (Except ε) β} {f' : α → StateT σ' (Except ε') β'}
    (h : Parallel P Eq n n') (hf : ∀ a, Parallel P S (f a) (f' a)) :
    Parallel P S (n >>= f) (n' >>= f') :=
  h.bind fun a _ ha => ha ▸ hf a

theorem ite {p : Prop} [Decidable p] {n : StateT σ (Except ε) α} {n' : StateT σ' (Except ε') α'}
    (h : p → Parallel P R m m') (h' : ¬p → Parallel P R n n') :
    Parallel P R (if p then m else n) (if p then m' else n') := by
  split
  · exact h ‹_›
  · exact h' ‹_›

theorem state : Parallel P P (get : StateT σ (Except ε) σ) (get : StateT σ' (Except ε') σ') :=
  fun _ _ hs => .ok ⟨hs, hs⟩

theorem update {f : σ → σ} {f' : σ' → σ'} (h : ∀ s s', P s s' → P (f s) (f' s')) :
    Parallel P Eq (modify f : StateT σ (Except ε) PUnit)
      (modify f' : StateT σ' (Except ε') PUnit) :=
  fun _ _ hs => .ok ⟨rfl, h _ _ hs⟩

theorem lift {x : Except ε α} {x' : Except ε' α'} (h : Except.Parallel R x x') :
    Parallel P R (liftM x : StateT σ (Except ε) α) (liftM x' : StateT σ' (Except ε') α') :=
  fun _ _ hs => h.bind fun _ _ ha => .ok ⟨ha, hs⟩

/-- Runs over a list and over its image. -/
theorem mapM {γ δ : Type} {f : α → StateT σ (Except ε) β} {f' : γ → StateT σ' (Except ε') β'}
    {g : α → γ} {k : β → δ} {k' : β' → δ}
    (h : ∀ a, Parallel P (fun b b' => k b = k' b') (f a) (f' (g a))) (l : List α) :
    Parallel P (fun bs bs' => bs.map k = bs'.map k') (l.mapM f) ((l.map g).mapM f') := by
  induction l with
  | nil => exact .pure rfl
  | cons a rest ih =>
      rw [List.map_cons, List.mapM_cons, List.mapM_cons]
      exact (h a).bind fun b b' hb => ih.bind fun bs bs' hbs =>
        .pure (by rw [List.map_cons, List.map_cons, hb, hbs])

end Parallel

end StateT

end Shading
